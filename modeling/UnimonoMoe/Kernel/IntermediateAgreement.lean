import UnimonoMoe.Kernel.IntermediateScale
import Mathlib.Order.Bounds.Basic

/-!
# Agreement on the intermediate scales

Every warp that quantizes a block of a row does so with the maximum over all 128 columns of the
block, and `down_phase` multiplies with the scale that was made of the same maximum.

* The registers of the two warpgroups cover the columns of a block (`exists_register`), so the
  maximum over what the threads bring to a cell is that over the columns (`eq_blockMax`).
* The barriers put all zeroing behind who updates, all updates behind who reads or converts, and all
  reading behind who converts (`zero_of_atomicMax`, `atomicMax_of_quantize`,
  `atomicMax_of_convert`, `quantize_of_convert`).
* `CellInv` follows a cell of `inter_scales` through a tile: after its zeroing it holds the maximum
  of what has been brought so far, after its conversion the scale made of the maximum of the block,
  and it keeps this through the down projection.

In exact arithmetic factor and scale are reciprocal when the maximum is finite and exceeds
`__FLT_MIN__`.  A smaller maximum counts as zero on both sides: the factor is `0` and the scale
`1/448`.
-/

namespace UnimonoMoe

open Epochs Binary32

variable {B : ScaleBuild} {T : ScaleTiles B} {tiles : ℕ} {m₀ : ℕ → Float32}
  {c c' : ScaleConfig} {n tile row sg pp sb half : ℕ} {t u : Tid} {i j : InterScaleOp}

/-! ## Registers and columns -/

section Registers

/-- A pass of either warpgroup is about the block with the number of the pass. -/
lemma scaleGroupOf_eq (t : Tid) (pp : ℕ) : scaleGroupOf t pp = pp := by
  have hwg := t.wg.isLt
  unfold scaleGroupOf featurePass numWg
  omega

/-- The registers of a pass hold columns of its block. -/
lemma colOf_mem {dr : ℕ} (t : Tid) (pp : ℕ) (hdr : dr < 32) :
    ∃ k < 128, colOf t pp dr = pp * 128 + k := by
  have hwg := t.wg.isLt
  refine ⟨colOf t pp dr - pp * 128, ?_, ?_⟩ <;> unfold colOf featurePass numWg <;> omega

/-- Every column of a block is in a register, whatever the row. -/
lemma exists_register {k : ℕ} (pp : ℕ) (hrow : row < 64 * B.mSubs) (hk : k < 128) :
    ∃ (t : Tid) (sb half dr : ℕ), OnRows B (row + 1) t sb half ∧ rowOf t sb half = row ∧
      dr < 32 ∧ dr / 2 % 2 = half ∧ colOf t pp dr = pp * 128 + k := by
  refine ⟨⟨k / 64 * 128 + row % 64 / 16 * 32 + row % 8 * 4 + k % 8 / 2, by omega⟩, row / 64,
    row % 16 / 8, k % 64 / 8 * 4 + row % 16 / 8 * 2 + k % 2, ⟨by omega, by omega, ?_⟩, ?_, by omega,
    by omega, ?_⟩
  · simp only [rowOf, Tid.m0b]
    omega
  · simp only [rowOf, Tid.m0b]
    omega
  · simp only [colOf, featurePass, Tid.wg, numWg]
    omega

end Registers

/-! ## Maxima -/

section Maxima

/-- `blockMax` is the maximum over the columns of the block. -/
lemma blockMax_spec (T : ScaleTiles B) (tile row sg : ℕ) : IsMagnitude (T.blockMax tile row sg) ∧
    IsGreatest (insert 0 {k | ∃ j < 128, k = absBits (T.acc tile row (sg * 128 + j))})
      (bits (T.blockMax tile row sg)) := by
  have hmax := isGreatest_foldl_fmaxf (List.range 128) fun j => T.acc tile row (sg * 128 + j)
  simp only [List.mem_range] at hmax
  exact hmax

/-- What a thread brings is the maximum over its registers of the row. -/
lemma partialMax_spec (T : ScaleTiles B) (tile : ℕ) (t : Tid) (pp sb half : ℕ) :
    IsMagnitude (T.partialMax tile t pp sb half) ∧
      IsGreatest (insert 0 {k | ∃ dr, (dr < 32 ∧ dr / 2 % 2 = half) ∧
          k = absBits (T.acc tile (rowOf t sb half) (colOf t pp dr))})
        (bits (T.partialMax tile t pp sb half)) := by
  have hmax := isGreatest_foldl_fmaxf ((List.range 32).filter (· / 2 % 2 = half))
    fun dr => T.acc tile (rowOf t sb half) (colOf t pp dr)
  simp only [List.foldl_filter, decide_eq_true_eq, List.mem_filter, List.mem_range] at hmax
  exact hmax

end Maxima

/-! ## What the barriers put behind a thread -/

section Order

/-- A thread has executed an operation. -/
abbrev ScaleTiles.Ran (T : ScaleTiles B) (tiles : ℕ) (c : ScaleConfig) (n : ℕ) (t : Tid)
    (i : InterScaleOp) : Prop := (T.machine tiles).Ran c n () t i

/-- A thread has executed what its program has before `j`. -/
def ScaleTiles.Passed (T : ScaleTiles B) (tiles : ℕ) (c : ScaleConfig) (n : ℕ) (t : Tid)
    (j : InterScaleOp) : Prop :=
  0 < n ∧ T.Runs n t j ∧ ∀ i, T.Runs n t i → B.place i < B.place j → T.Ran tiles c n t i

/-- What has run is an instruction of the phase. -/
lemma ran_runs (hi : T.Ran tiles c n t i) : 0 < n ∧ T.Runs n t i := mem_scaleProgram.mp hi.1

/-- The next instruction of a thread is one of its phase. -/
lemma head_runs (h : (T.machine tiles).Reachable m₀ c) (hi : c.Head () t i) :
    0 < c.epoch () ∧ T.Runs (c.epoch ()) t i :=
  mem_scaleProgram.mp (Config.Head.mem_prog h hi)

/-- A thread has passed the barriers before its next instruction. -/
lemma passed_of_head (h : (T.machine tiles).Reachable m₀ c) (hj : c.Head () t j) :
    T.Passed tiles c (c.epoch ()) t j := by
  obtain ⟨hpos, hruns⟩ := head_runs h hj
  exact ⟨hpos, hruns, fun i hi hlt =>
    hj.before (scaleMachine_staged T tiles) h (mem_scaleProgram.mpr ⟨hpos, hi⟩) hlt⟩

/-- And those before what it has run. -/
lemma passed_of_ran (h : (T.machine tiles).Reachable m₀ c) (hj : T.Ran tiles c n t j) :
    T.Passed tiles c n t j := by
  obtain ⟨hpos, hruns⟩ := ran_runs hj
  exact ⟨hpos, hruns, fun i hi hlt =>
    hj.before (scaleMachine_staged T tiles) h (mem_scaleProgram.mpr ⟨hpos, hi⟩) hlt⟩

/-- What lies before a barrier has been executed by every thread when one is past the barrier. -/
lemma ScaleTiles.Passed.behind (h : (T.machine tiles).Reachable m₀ c)
    (hj : T.Passed tiles c n t j) (k : ℕ) (hk : T.Runs n t (.sync k)) (hkj : k < B.place j)
    (hi : T.Runs n u i) (hik : B.place i < k) : T.Ran tiles c n u i := by
  obtain ⟨hpos, -, hbefore⟩ := hj
  have hall : ∀ u, True → InterScaleOp.sync k ∈ T.program n u := fun u _ =>
    mem_scaleProgram.mpr ⟨hpos, hk⟩
  exact (hbefore _ hk hkj).of_barrier (scaleMachine_staged T tiles) h (fun _ => True) hall
    (fun _ hopen u _ => hopen u) trivial (mem_scaleProgram.mpr ⟨hpos, hi⟩) hik

/-- Who updates a maximum has all zeroing behind it. -/
lemma zero_of_atomicMax (h : (T.machine tiles).Reachable m₀ c)
    (hj : T.Passed tiles c n t (.atomicMax pp sb half)) {k : ℕ} (hk : T.Runs n u (.zero k)) :
    T.Ran tiles c n u (.zero k) := by
  have hsync : T.Runs n t (.sync 2) := by
    simp only [ScaleTiles.Runs, if_pos hk.1]
    exact Or.inl (Or.inr rfl)
  exact hj.behind h 2 hsync (by simp only [ScaleBuild.place]; omega) hk (by simp [ScaleBuild.place])

/-- Who reads a maximum has all updates of the pass behind it. -/
lemma atomicMax_of_quantize (h : (T.machine tiles).Reachable m₀ c)
    (hj : T.Passed tiles c n t (.quantize pp sb half)) {sb' half' : ℕ}
    (hi : T.Runs n u (.atomicMax pp sb' half')) : T.Ran tiles c n u (.atomicMax pp sb' half') := by
  have hsync : T.Runs n t (.sync (4 + 4 * pp)) := by
    simp only [ScaleTiles.Runs, if_pos hi.1]
    exact Or.inr (Or.inl ⟨pp, hi.2.1, Or.inl rfl⟩)
  exact hj.behind h _ hsync (by simp only [ScaleBuild.place]; omega) hi
    (by simp only [ScaleBuild.place]; omega)

/-- Who converts a maximum has all updates behind it. -/
lemma atomicMax_of_convert (h : (T.machine tiles).Reachable m₀ c) {k : ℕ}
    (hj : T.Passed tiles c n t (.convert k)) (hi : T.Runs n u (.atomicMax pp sb half)) :
    T.Ran tiles c n u (.atomicMax pp sb half) := by
  have hpp := hi.2.1
  have hsync : T.Runs n t (.sync (4 + 4 * pp)) := by
    simp only [ScaleTiles.Runs, if_pos hi.1]
    exact Or.inr (Or.inl ⟨pp, hpp, Or.inl rfl⟩)
  exact hj.behind h _ hsync (by simp only [ScaleBuild.place]; omega) hi
    (by simp only [ScaleBuild.place]; omega)

/-- Who converts a maximum has all its readers behind it. -/
lemma quantize_of_convert (h : (T.machine tiles).Reachable m₀ c) {k : ℕ}
    (hj : T.Passed tiles c n t (.convert k)) (hi : T.Runs n u (.quantize pp sb half)) :
    T.Ran tiles c n u (.quantize pp sb half) := by
  have hpp := hi.2.1
  have hsync : T.Runs n t (.sync (6 + 4 * pp)) := by
    simp only [ScaleTiles.Runs, if_pos hi.1]
    exact Or.inr (Or.inl ⟨pp, hpp, Or.inr rfl⟩)
  exact hj.behind h _ hsync (by simp only [ScaleBuild.place]; omega) hi
    (by simp only [ScaleBuild.place]; omega)

/-- The zeroing of a cell comes before its conversion. -/
lemma zero_of_convert {k : ℕ} (hj : T.Passed tiles c n t (.convert k))
    (hzero : T.Runs n t (.zero k)) : T.Ran tiles c n t (.zero k) :=
  hj.2.2 _ hzero (by simp only [ScaleBuild.place]; omega)

end Order

/-! ## The life of a cell -/

section Cells

/-- The thread that zeroes and converts a cell. -/
def owner (k : ℕ) : Tid := Fin.ofNat 256 k

/-- What has been brought to a cell so far. -/
def ScaleTiles.brought (T : ScaleTiles B) (tiles : ℕ) (c : ScaleConfig) (n row sg : ℕ) : Set ℕ :=
  insert 0 {k | ∃ t sb half, rowOf t sb half = row ∧ T.Ran tiles c n t (.atomicMax sg sb half) ∧
    k = bits (T.partialMax (RingBuild.tileOf n) t sg sb half)}

/-- A cell of `inter_scales` in its epoch. -/
structure ScaleTiles.CellInv (T : ScaleTiles B) (tiles : ℕ) (c : ScaleConfig) (row sg : ℕ) :
    Prop where
  /-- between its zeroing and its conversion it holds the maximum of what has been brought -/
  accumulating : T.Ran tiles c (c.epoch ()) (owner (B.cell row sg)) (.zero (B.cell row sg)) →
    ¬T.Ran tiles c (c.epoch ()) (owner (B.cell row sg)) (.convert (B.cell row sg)) →
    IsMagnitude (c.mem (B.cell row sg)) ∧
      IsGreatest (T.brought tiles c (c.epoch ()) row sg) (bits (c.mem (B.cell row sg)))
  /-- then it holds the scale -/
  converted : T.Ran tiles c (c.epoch ()) (owner (B.cell row sg)) (.convert (B.cell row sg)) →
    c.mem (B.cell row sg) =
      downScale Float32.div (T.blockMax (RingBuild.tileOf (c.epoch ())) row sg)
  /-- also in the down projection -/
  kept : 0 < c.epoch () → RingBuild.isUp (c.epoch ()) = false → c.mem (B.cell row sg) =
    downScale Float32.div (T.blockMax (RingBuild.tileOf (c.epoch ())) row sg)

/-- An operation writes a cell. -/
def WritesCell (B : ScaleBuild) (t : Tid) (row sg : ℕ) : InterScaleOp → Prop
  | .zero k | .convert k => k = B.cell row sg
  | .atomicMax pp sb half => rowOf t sb half = row ∧ pp = sg
  | _ => False

/-- A cell has one owner. -/
lemma owner_eq {k : ℕ} (ht : k % 256 = t) : t = owner k := Fin.ext ht.symm

/-- The owner of a cell clears it. -/
lemma runs_zero (hup : RingBuild.isUp n = true) (hrow : row < T.rows (RingBuild.tileOf n))
    (hsg : sg < B.scaleGroups) : T.Runs n (owner (B.cell row sg)) (.zero (B.cell row sg)) :=
  ⟨hup, Loops.rowMajor_lt (hrow.trans_le (T.rows_le _)) hsg, rfl⟩

/-- And it converts it. -/
lemma runs_convert (hup : RingBuild.isUp n = true) (hrow : row < T.rows (RingBuild.tileOf n))
    (hsg : sg < B.scaleGroups) : T.Runs n (owner (B.cell row sg)) (.convert (B.cell row sg)) :=
  ⟨hup, Loops.rowMajor_lt hrow hsg, rfl⟩

/-- Other operations leave the cell alone. -/
lemma effect_of_not_writes (hsg : sg < B.scaleGroups) (hi : T.Runs (c.epoch ()) t i)
    (hnot : ¬WritesCell B t row sg i) :
    (T.effect c () t i).1 (B.cell row sg) = c.mem (B.cell row sg) := by
  cases i with
  | sync k => rfl
  | zero k => exact Function.update_of_ne (fun h => hnot h.symm) _ _
  | atomicMax pp sb half =>
    refine Function.update_of_ne (fun h => hnot ?_) _ _
    rw [scaleGroupOf_eq] at h
    have hpp : pp < B.scaleGroups := B.ppPerWg_eq ▸ hi.2.1
    obtain ⟨hrow, hgroup⟩ := B.cell_inj hsg hpp h
    exact ⟨hrow.symm, hgroup.symm⟩
  | quantize pp sb half => rfl
  | convert k => exact Function.update_of_ne (fun h => hnot h.symm) _ _
  | scaleUse p dk sb half => rfl

/-- When all that a row has to bring has been brought, the maximum is that of the block. -/
lemma eq_blockMax {x : Float32} (hup : RingBuild.isUp n = true)
    (hgreatest : IsGreatest (T.brought tiles c n row sg) (bits x))
    (hrow : row < T.rows (RingBuild.tileOf n)) (hsg : sg < B.scaleGroups)
    (hall : ∀ t sb half, T.Runs n t (.atomicMax sg sb half) →
      T.Ran tiles c n t (.atomicMax sg sb half)) :
    x = T.blockMax (RingBuild.tileOf n) row sg := by
  obtain ⟨-, hblock⟩ := blockMax_spec T (RingBuild.tileOf n) row sg
  refine bits_injective (le_antisymm ?_ ?_)
  · rcases hgreatest.1 with h | ⟨t, sb, half, rfl, -, h⟩
    · rw [h]
      exact Nat.zero_le _
    · rcases (partialMax_spec T (RingBuild.tileOf n) t sg sb half).2.1 with
        h' | ⟨dr, ⟨hdr, -⟩, h'⟩
      · rw [h, h']
        exact Nat.zero_le _
      · obtain ⟨k, hk, hcol⟩ := colOf_mem t sg hdr
        rw [h, h', hcol]
        exact hblock.2 (Or.inr ⟨k, hk, rfl⟩)
  · rcases hblock.1 with h | ⟨k, hk, h⟩
    · rw [h]
      exact Nat.zero_le _
    · obtain ⟨t, sb, half, dr, ⟨hsb, hhalf, -⟩, hrowOf, hdr, hdrHalf, hcol⟩ :=
        exists_register sg (hrow.trans_le (T.rows_le _)) hk
      have hpp : sg < B.ppPerWg := B.ppPerWg_eq ▸ hsg
      have hran := hall t sb half ⟨hup, hpp, hsb, hhalf, hrowOf ▸ hrow⟩
      have hpartial := (partialMax_spec T (RingBuild.tileOf n) t sg sb half).2.2
        (Or.inr ⟨dr, ⟨hdr, hdrHalf⟩, rfl⟩)
      rw [h, ← hrowOf, ← hcol]
      exact hpartial.trans (hgreatest.2 (Or.inr ⟨t, sb, half, hrowOf, hran, rfl⟩))

end Cells

/-! ## Steps -/

section Steps

/-- What a step of thread `t` adds to what has been executed. -/
def ScaleTiles.Adds (T : ScaleTiles B) (tiles : ℕ) (c c' : ScaleConfig) (t : Tid)
    (i : InterScaleOp) : Prop :=
  c'.epoch () = c.epoch () ∧ ∀ u j, T.Ran tiles c' (c.epoch ()) u j ↔
    T.Ran tiles c (c.epoch ()) u j ∨ u = t ∧ j = i

/-- A step adds no other instruction to what has run. -/
lemma ScaleTiles.Adds.ran_iff (hadds : T.Adds tiles c c' t i) (hne : ¬(u = t ∧ j = i)) :
    T.Ran tiles c' (c.epoch ()) u j ↔ T.Ran tiles c (c.epoch ()) u j := by
  rw [hadds.2]
  exact or_iff_left hne

/-- A step that is no `atomicMax` of the cell brings it nothing. -/
lemma ScaleTiles.Adds.brought_eq (hadds : T.Adds tiles c c' t i)
    (hother : ∀ sb half, rowOf t sb half = row → i ≠ .atomicMax sg sb half) :
    T.brought tiles c' (c.epoch ()) row sg = T.brought tiles c (c.epoch ()) row sg := by
  have hran : ∀ u sb half, rowOf u sb half = row →
      (T.Ran tiles c' (c.epoch ()) u (.atomicMax sg sb half) ↔
        T.Ran tiles c (c.epoch ()) u (.atomicMax sg sb half)) := by
    intro u sb half hrow
    refine hadds.ran_iff ?_
    rintro ⟨rfl, rfl⟩
    exact hother sb half hrow rfl
  unfold ScaleTiles.brought
  congr 1
  ext k
  constructor
  · rintro ⟨u, sb, half, hrow, hj, hk⟩
    exact ⟨u, sb, half, hrow, (hran u sb half hrow).mp hj, hk⟩
  · rintro ⟨u, sb, half, hrow, hj, hk⟩
    exact ⟨u, sb, half, hrow, (hran u sb half hrow).mpr hj, hk⟩

/-- Operations on other cells. -/
lemma ScaleTiles.CellInv.other (hinv : T.CellInv tiles c row sg) (hadds : T.Adds tiles c c' t i)
    (hnot : ¬WritesCell B t row sg i) (hmem : c'.mem (B.cell row sg) = c.mem (B.cell row sg)) :
    T.CellInv tiles c' row sg := by
  have hran : ∀ u j, WritesCell B u row sg j →
      (T.Ran tiles c' (c.epoch ()) u j ↔ T.Ran tiles c (c.epoch ()) u j) := by
    intro u j hj
    refine hadds.ran_iff ?_
    rintro ⟨rfl, rfl⟩
    exact hnot hj
  have hbrought : T.brought tiles c' (c.epoch ()) row sg =
      T.brought tiles c (c.epoch ()) row sg := by
    refine hadds.brought_eq fun sb half hrow hi => hnot ?_
    rw [hi]
    exact ⟨hrow, rfl⟩
  refine ⟨?_, ?_, ?_⟩
  · rw [hadds.1, hmem, hbrought, hran _ (.zero _) rfl, hran _ (.convert _) rfl]
    exact hinv.accumulating
  · rw [hadds.1, hmem, hran _ (.convert _) rfl]
    exact hinv.converted
  · rw [hadds.1, hmem]
    exact hinv.kept

/-- The zeroing of the cell. -/
lemma cellInv_zero (h : (T.machine tiles).Reachable m₀ c)
    (hhead : c.Head () t (.zero (B.cell row sg)))
    (hadds : T.Adds tiles c c' t (.zero (B.cell row sg))) (hmem : c'.mem (B.cell row sg) = 0) :
    T.CellInv tiles c' row sg := by
  obtain ⟨-, hruns⟩ := head_runs h hhead
  obtain ⟨hup, -, ht⟩ := id hruns
  obtain rfl : t = owner (B.cell row sg) := owner_eq ht
  have hnot := hhead.not_ran (M := T.machine tiles)
  have hconvert : ¬T.Ran tiles c' (c.epoch ()) (owner (B.cell row sg))
      (.convert (B.cell row sg)) := by
    rw [hadds.ran_iff (by simp)]
    exact fun hran => hnot (zero_of_convert (passed_of_ran h hran) hruns)
  refine ⟨fun _ _ => ?_, fun hran => ?_, fun _ hdown => ?_⟩
  · rw [hadds.1, hmem, bits_zero]
    refine ⟨isMagnitude_zero, Or.inl rfl, ?_⟩
    rintro _ (rfl | ⟨u, sb, half, -, hran, -⟩)
    · exact le_rfl
    · rw [hadds.ran_iff (by simp)] at hran
      exact absurd (zero_of_atomicMax h (passed_of_ran h hran) hruns) hnot
  · rw [hadds.1] at hran
    exact absurd hran hconvert
  · rw [hadds.1, hup] at hdown
    exact absurd hdown nofun

/-- An update of the cell. -/
lemma ScaleTiles.CellInv.atomicMax (h : (T.machine tiles).Reachable m₀ c)
    (hinv : T.CellInv tiles c row sg) (hsg : sg < B.scaleGroups)
    (hhead : c.Head () t (.atomicMax sg sb half)) (hrow : rowOf t sb half = row)
    (hadds : T.Adds tiles c c' t (.atomicMax sg sb half))
    (hmem : c'.mem (B.cell row sg) = intMax (c.mem (B.cell row sg))
      (T.partialMax (RingBuild.tileOf (c.epoch ())) t sg sb half)) :
    T.CellInv tiles c' row sg := by
  obtain ⟨-, hruns⟩ := head_runs h hhead
  obtain ⟨hup, -, -, -, hlt⟩ := id hruns
  rw [hrow] at hlt
  have hzero := zero_of_atomicMax h (passed_of_head h hhead) (runs_zero hup hlt hsg)
  have hconvert : ¬T.Ran tiles c (c.epoch ()) (owner (B.cell row sg))
      (.convert (B.cell row sg)) := fun hran =>
    hhead.not_ran (M := T.machine tiles) (atomicMax_of_convert h (passed_of_ran h hran) hruns)
  obtain ⟨hmag, hgreatest⟩ := hinv.accumulating hzero hconvert
  have hpartial := (partialMax_spec T (RingBuild.tileOf (c.epoch ())) t sg sb half).1
  obtain ⟨hmag', hbits⟩ := bits_intMax hmag hpartial
  refine ⟨fun _ _ => ?_, fun hran => ?_, fun _ hdown => ?_⟩
  · rw [hadds.1, hmem]
    refine ⟨hmag', hbits ▸ ⟨?_, ?_⟩⟩
    · rcases max_choice (bits (c.mem (B.cell row sg)))
        (bits (T.partialMax (RingBuild.tileOf (c.epoch ())) t sg sb half)) with hmax | hmax
      · rw [hmax]
        refine hgreatest.1.imp id ?_
        rintro ⟨u, sb', half', hrow', hran, hk⟩
        exact ⟨u, sb', half', hrow', (hadds.2 _ _).mpr (Or.inl hran), hk⟩
      · rw [hmax]
        exact Or.inr ⟨t, sb, half, hrow, (hadds.2 _ _).mpr (Or.inr ⟨rfl, rfl⟩), rfl⟩
    · rintro k (rfl | ⟨u, sb', half', hrow', hran, rfl⟩)
      · exact Nat.zero_le _
      · rcases (hadds.2 _ _).mp hran with hold | ⟨rfl, hnew⟩
        · exact (hgreatest.2 (Or.inr ⟨u, sb', half', hrow', hold, rfl⟩)).trans (le_max_left _ _)
        · cases hnew
          exact le_max_right _ _
  · rw [hadds.1, hadds.ran_iff (by simp)] at hran
    exact absurd hran hconvert
  · rw [hadds.1, hup] at hdown
    exact absurd hdown nofun

/-- The conversion of the cell. -/
lemma ScaleTiles.CellInv.convert (h : (T.machine tiles).Reachable m₀ c)
    (hinv : T.CellInv tiles c row sg) (hrow : row < T.rows (RingBuild.tileOf (c.epoch ())))
    (hsg : sg < B.scaleGroups) (hhead : c.Head () t (.convert (B.cell row sg)))
    (hadds : T.Adds tiles c c' t (.convert (B.cell row sg)))
    (hmem : c'.mem (B.cell row sg) = downScale Float32.div (c.mem (B.cell row sg))) :
    T.CellInv tiles c' row sg := by
  obtain ⟨-, hruns⟩ := head_runs h hhead
  obtain ⟨hup, -, ht⟩ := id hruns
  obtain rfl : t = owner (B.cell row sg) := owner_eq ht
  have hpassed := passed_of_head h hhead
  have hzero := zero_of_convert hpassed (runs_zero hup hrow hsg)
  obtain ⟨-, hgreatest⟩ := hinv.accumulating hzero (hhead.not_ran (M := T.machine tiles))
  have hmax := eq_blockMax hup hgreatest hrow hsg fun u sb half hi =>
    atomicMax_of_convert h hpassed hi
  refine ⟨fun _ hran => ?_, fun _ => ?_, fun _ hdown => ?_⟩
  · rw [hadds.1, hadds.2] at hran
    exact absurd (Or.inr ⟨rfl, rfl⟩) hran
  · rw [hadds.1, hmem, hmax]
  · rw [hadds.1, hup] at hdown
    exact absurd hdown nofun

/-- The down projection of a tile follows its up projection. -/
lemma isUp_before (hdown : RingBuild.isUp (n + 1) = false) :
    0 < n ∧ RingBuild.isUp n = true ∧ RingBuild.tileOf (n + 1) = RingBuild.tileOf n := by
  simp only [RingBuild.isUp, RingBuild.tileOf, decide_eq_true_eq, decide_eq_false_iff_not] at *
  omega

/-- The next epoch. -/
lemma cellInv_next (hinv : row < T.rows (RingBuild.tileOf (c.epoch ())) → T.CellInv tiles c row sg)
    (hsg : sg < B.scaleGroups) (hidle : ∀ t, c.rest () t = []) (hmem : c'.mem = c.mem)
    (hepoch : c'.epoch () = c.epoch () + 1)
    (hran : ∀ n r u j, (T.machine tiles).Ran c' n r u j ↔ (T.machine tiles).Ran c n r u j)
    (hrow : row < T.rows (RingBuild.tileOf (c'.epoch ()))) : T.CellInv tiles c' row sg := by
  have hnew : ∀ u j, ¬T.Ran tiles c' (c'.epoch ()) u j := fun _ _ => not_ran_of_next hepoch hran
  refine ⟨fun h => absurd h (hnew _ _), fun h => absurd h (hnew _ _), fun _ hdown => ?_⟩
  rw [hepoch] at hdown hrow ⊢
  obtain ⟨hpos, hup, htile⟩ := isUp_before hdown
  rw [htile] at hrow ⊢
  rw [hmem]
  refine (hinv hrow).converted (Machine.Ran.of_idle (hidle _) ?_)
  exact mem_scaleProgram.mpr ⟨hpos, runs_convert hup hrow hsg⟩

/-- Every cell in use keeps its invariant. -/
theorem cellInv (h : (T.machine tiles).Reachable m₀ c)
    (hrow : row < T.rows (RingBuild.tileOf (c.epoch ()))) (hsg : sg < B.scaleGroups) :
    T.CellInv tiles c row sg := by
  induction h with
  | init =>
    have hnot : ∀ n u j, ¬T.Ran tiles ((T.machine tiles).init m₀) n u j := fun _ _ _ =>
      not_ran_init (scaleMachine_staged T tiles)
    exact ⟨fun h => absurd h (hnot _ _ _), fun h => absurd h (hnot _ _ _),
      fun h => absurd h (lt_irrefl 0)⟩
  | @step c c' h hstep ih =>
    cases h.stepOf (scaleMachine_staged T tiles) hstep with
    | exec _ t i hhead _ hmem _ _ hepoch hran =>
      have hadds : T.Adds tiles c c' t i := by
        refine ⟨congrFun hepoch (), fun u j => ?_⟩
        refine (hran (c.epoch ()) () u j).trans (or_congr_right ?_)
        simp
      rw [hadds.1] at hrow
      have hinv := ih hrow
      obtain ⟨-, hruns⟩ := head_runs h hhead
      by_cases hwrites : WritesCell B t row sg i
      · cases i with
        | zero k =>
          obtain rfl : k = B.cell row sg := hwrites
          refine cellInv_zero h hhead hadds ?_
          rw [hmem]
          exact Function.update_self _ _ _
        | atomicMax pp sb half =>
          obtain ⟨rfl, rfl⟩ : rowOf t sb half = row ∧ pp = sg := hwrites
          refine hinv.atomicMax h hsg hhead rfl hadds ?_
          have hmax : (T.effect c () t (.atomicMax pp sb half)).1
              (B.cell (rowOf t sb half) (scaleGroupOf t pp)) = _ := Function.update_self _ _ _
          rw [scaleGroupOf_eq] at hmax
          exact (congrFun hmem _).trans hmax
        | convert k =>
          obtain rfl : k = B.cell row sg := hwrites
          refine hinv.convert h hrow hsg hhead hadds ?_
          rw [hmem]
          exact Function.update_self _ _ _
        | _ => exact hwrites.elim
      · refine hinv.other hadds hwrites ?_
        rw [hmem]
        exact effect_of_not_writes hsg hruns hwrites
    | next _ hidle hmem _ _ hepoch _ hran =>
      exact cellInv_next ih hsg hidle hmem hepoch hran hrow

end Steps

/-! ## What is read -/

section Reads

/-- From its first reading to its conversion a cell holds the maximum of its block. -/
lemma mem_of_passed (h : (T.machine tiles).Reachable m₀ c)
    (hpassed : T.Passed tiles c (c.epoch ()) t (.quantize pp sb half))
    (hconvert : ¬T.Ran tiles c (c.epoch ()) (owner (B.cell (rowOf t sb half) pp))
      (.convert (B.cell (rowOf t sb half) pp))) :
    c.mem (B.cell (rowOf t sb half) pp) =
      T.blockMax (RingBuild.tileOf (c.epoch ())) (rowOf t sb half) pp := by
  obtain ⟨-, ⟨hup, hpp, honRows⟩, -⟩ := id hpassed
  have hsg : pp < B.scaleGroups := B.ppPerWg_eq ▸ hpp
  have hall : ∀ u sb half, T.Runs (c.epoch ()) u (.atomicMax pp sb half) →
      T.Ran tiles c (c.epoch ()) u (.atomicMax pp sb half) := fun u sb half hi =>
    atomicMax_of_quantize h hpassed hi
  have hzero := zero_of_atomicMax h (passed_of_ran h (hall t sb half ⟨hup, hpp, honRows⟩))
    (runs_zero hup honRows.2.2 hsg)
  obtain ⟨-, hgreatest⟩ := (cellInv h honRows.2.2 hsg).accumulating hzero hconvert
  exact eq_blockMax hup hgreatest honRows.2.2 hsg hall

/-- A warp quantizes with the maximum of the block. -/
lemma mem_of_quantize (h : (T.machine tiles).Reachable m₀ c)
    (hhead : c.Head () t (.quantize pp sb half)) :
    c.mem (B.cell (rowOf t sb half) (scaleGroupOf t pp)) =
      T.blockMax (RingBuild.tileOf (c.epoch ())) (rowOf t sb half) pp := by
  obtain ⟨-, hruns⟩ := head_runs h hhead
  rw [scaleGroupOf_eq]
  exact mem_of_passed h (passed_of_head h hhead) fun hran =>
    hhead.not_ran (M := T.machine tiles) (quantize_of_convert h (passed_of_ran h hran) hruns)

/-- Once a maximum may be read nothing is brought to it any more. -/
lemma atomicMax_notMem_rest (h : (T.machine tiles).Reachable m₀ c)
    (hpassed : T.Passed tiles c (c.epoch ()) t (.quantize pp sb half)) (u : Tid)
    (sb' half' : ℕ) : InterScaleOp.atomicMax pp sb' half' ∉ c.rest () u := by
  intro hmem
  have hruns := (mem_scaleProgram.mp (h.mem_prog hmem)).2
  exact (atomicMax_of_quantize h hpassed hruns).2.not_mem rfl hmem

/-- The down projection multiplies with the scale made of the maximum of the block. -/
lemma mem_of_scaleUse {p dk : ℕ} (h : (T.machine tiles).Reachable m₀ c)
    (hhead : c.Head () t (.scaleUse p dk sb half)) :
    c.mem (B.cell (rowOf t sb half) dk) =
      downScale Float32.div (T.blockMax (RingBuild.tileOf (c.epoch ())) (rowOf t sb half) dk) := by
  obtain ⟨hpos, hdown, -, hdk, honRows⟩ := head_runs h hhead
  exact (cellInv h honRows.2.2 hdk).kept hpos hdown

/-- In exact arithmetic the scale is the reciprocal of the factor. -/
lemma quantFactor_mul_downScale {x : Float32} (hx : IsMagnitude x) (hlt : fltMin.lt x = true)
    (hfinite : bits x < infBits) :
    quantFactor exactDiv x * downScale exactDiv x = 1 := by
  have hmin : bits fltMin ≤ infBits := by decide
  have hpos : 0 < value x :=
    value_pos (lt_of_le_of_lt (Nat.zero_le _) ((lt_iff_bits_lt hmin hx).mp hlt)) hfinite
  have h448 : value 448 ≠ 0 := (value_pos (by decide) (by decide)).ne'
  rw [quantFactor, downScale, if_pos hlt, if_pos hlt, exactDiv, exactDiv]
  field_simp

end Reads

/-! ## Progress -/

section Progress

/-- A barrier is alone at its place. -/
lemma eq_sync {k : ℕ} (hk : T.Runs n t (.sync k)) (hj : T.Runs n u j) (hplace : B.place j = k) :
    j = .sync k := by
  have heven : k % 2 = 0 ∧ (RingBuild.isUp n = false → k = 0) := by
    simp only [ScaleTiles.Runs, ScaleBuild.UpSync] at hk
    split_ifs at hk with hup
    · exact ⟨by omega, fun hdown => absurd hup (by rw [hdown]; exact Bool.false_ne_true)⟩
    · exact ⟨by omega, fun _ => hk⟩
  cases j with
  | sync l => exact congrArg InterScaleOp.sync hplace
  | scaleUse p dk sb half =>
    have hzero := heven.2 hj.1
    simp only [ScaleBuild.place] at hplace
    omega
  | _ =>
    simp only [ScaleBuild.place] at hplace
    omega

/-- The tile loop can be run to its end. -/
theorem exists_scales_finished (T : ScaleTiles B) (tiles : ℕ) (m₀ : ℕ → Float32) :
    ∃ c, (T.machine tiles).Reachable m₀ c ∧ c.epoch () = 2 * tiles ∧ ∀ t, c.rest () t = [] := by
  have hlive : ∀ c, (T.machine tiles).Reachable m₀ c →
      (∃ r, (T.machine tiles).Unfinished c r) → ∃ c', (T.machine tiles).Step c c' := by
    intro c h hrun
    refine Machine.exists_step_of_barriers (scaleMachine_staged T tiles) h ?_ hrun
    intro _ t i hhead hblocked
    cases i with
    | sync k =>
      obtain ⟨u, hnot⟩ := not_forall.mp hblocked
      obtain ⟨-, hruns⟩ := head_runs h hhead
      exact ⟨u, hnot, fun j hj hplace => eq_sync hruns (mem_scaleProgram.mp hj).2 hplace⟩
    | _ => exact absurd trivial hblocked
  obtain ⟨c, h, hfinished⟩ := Machine.exists_finished hlive
  exact ⟨c, h, h.of_not_unfinished (hfinished ())⟩

end Progress

/-! ## Agreement -/

section Agreement

/-- In exact arithmetic: a maximum above `__FLT_MIN__` is scaled back by what it was scaled with,
and any other maximum counts as zero on both sides. -/
lemma exact_scales (T : ScaleTiles B) (tile row sg : ℕ) :
    (fltMin.lt (T.blockMax tile row sg) = true → bits (T.blockMax tile row sg) < infBits →
      quantFactor exactDiv (T.blockMax tile row sg) * downScale exactDiv (T.blockMax tile row sg) =
          1 ∧
        downScale exactDiv (T.blockMax tile row sg) = value (T.blockMax tile row sg) / 448) ∧
    (fltMin.lt (T.blockMax tile row sg) = false →
      quantFactor exactDiv (T.blockMax tile row sg) = 0 ∧
        downScale exactDiv (T.blockMax tile row sg) = 1 / 448) := by
  constructor
  · intro hlt hfinite
    refine ⟨quantFactor_mul_downScale (blockMax_spec T tile row sg).1 hlt hfinite, ?_⟩
    rw [downScale, if_pos hlt, exactDiv, value_448]
  · intro hle
    rw [quantFactor, downScale, hle, if_neg Bool.false_ne_true, if_neg Bool.false_ne_true, exactDiv,
      value_one, value_448]
    exact ⟨rfl, rfl⟩

/-- Whatever the order in which the warps take their steps, and whatever `inter_scales` holds at
first, in every tile:

* a warp that quantizes a block of a row reads the maximum over all its columns and makes its factor
  of it;
* from then on no `atomicMax` on the block is to come, and until it is converted the maximum stays;
* the multiplier of the down projection is made of the same maximum;
* in exact arithmetic the multiplier is `maximum / 448`, the reciprocal of the factor, when the
  maximum is finite and exceeds `__FLT_MIN__`; when it does not exceed it, the factor is `0` and the
  multiplier `1 / 448`, as for zero. -/
theorem intermediate_scale_agreement (h : (T.machine tiles).Reachable m₀ c) :
    (∀ t pp sb half, c.Head () t (.quantize pp sb half) →
      c.mem (B.cell (rowOf t sb half) (scaleGroupOf t pp)) =
          T.blockMax (RingBuild.tileOf (c.epoch ())) (rowOf t sb half) pp ∧
        (T.effect c () t (.quantize pp sb half)).2.inv sb half = quantFactor Float32.div
          (T.blockMax (RingBuild.tileOf (c.epoch ())) (rowOf t sb half) pp)) ∧
    (∀ t pp sb half, c.Head () t (.quantize pp sb half) ∨
        T.Ran tiles c (c.epoch ()) t (.quantize pp sb half) →
      (∀ u sb' half', .atomicMax pp sb' half' ∉ c.rest () u) ∧
        ((∀ u, ¬T.Ran tiles c (c.epoch ()) u (.convert (B.cell (rowOf t sb half) pp))) →
          c.mem (B.cell (rowOf t sb half) pp) =
            T.blockMax (RingBuild.tileOf (c.epoch ())) (rowOf t sb half) pp)) ∧
    (∀ t p dk sb half, c.Head () t (.scaleUse p dk sb half) →
      (T.effect c () t (.scaleUse p dk sb half)).2.as sb half = downScale Float32.div
        (T.blockMax (RingBuild.tileOf (c.epoch ())) (rowOf t sb half) dk)) ∧
    ∀ tile row sg,
      (fltMin.lt (T.blockMax tile row sg) = true → bits (T.blockMax tile row sg) < infBits →
        quantFactor exactDiv (T.blockMax tile row sg) *
            downScale exactDiv (T.blockMax tile row sg) = 1 ∧
          downScale exactDiv (T.blockMax tile row sg) = value (T.blockMax tile row sg) / 448) ∧
      (fltMin.lt (T.blockMax tile row sg) = false →
        quantFactor exactDiv (T.blockMax tile row sg) = 0 ∧
          downScale exactDiv (T.blockMax tile row sg) = 1 / 448) := by
  refine ⟨fun t pp sb half hhead => ?_, fun t pp sb half hread => ?_,
    fun t p dk sb half hhead => ?_, exact_scales T⟩
  · have hmem := mem_of_quantize h hhead
    refine ⟨hmem, ?_⟩
    simp only [ScaleTiles.effect, setSub, Function.update_self, hmem]
  · have hpassed := hread.elim (passed_of_head h) (passed_of_ran h)
    exact ⟨atomicMax_notMem_rest h hpassed, fun hconvert => mem_of_passed h hpassed (hconvert _)⟩
  · simp only [ScaleTiles.effect, setSub, Function.update_self, mem_of_scaleUse h hhead]

/-- The constants of the tensor-parallel Qwen3.5 build. -/
def qwenScales : ScaleBuild := ⟨128, 2, 16⟩

/-- The sample build has a row. -/
lemma one_le_scaleRows : 1 ≤ 64 * qwenScales.mSubs := by decide

/-- Tiles with one row, in which all products are `x`. -/
def constTiles (x : Float32) : ScaleTiles qwenScales where
  rows _ := 1
  acc _ _ _ := x
  rows_le _ := one_le_scaleRows

/-- The maximum of a tile of equal values. -/
lemma blockMax_constTiles {x : Float32} (hx : absBits x = bits x) :
    (constTiles x).blockMax 0 0 0 = x := by
  obtain ⟨-, hmax⟩ := blockMax_spec (constTiles x) 0 0 0
  refine bits_injective (hmax.unique ⟨Or.inr ⟨0, by decide, hx.symm⟩, ?_⟩)
  rintro _ (rfl | ⟨j, -, rfl⟩)
  · exact Nat.zero_le _
  · exact hx.le

/-- A warp comes to quantize, and one comes to use the scale. -/
lemma exists_reads (x : Float32) (m₀ : ℕ → Float32) : ∃ c₁ c₂ : ScaleConfig,
    (((constTiles x).machine 1).Reachable m₀ c₁ ∧ c₁.epoch () = 1 ∧
      c₁.Head () 0 (.quantize 0 0 0)) ∧
    ((constTiles x).machine 1).Reachable m₀ c₂ ∧ c₂.epoch () = 2 ∧
      c₂.Head () 0 (.scaleUse 0 0 0 0) := by
  obtain ⟨c, h, hepoch, hidle⟩ := exists_scales_finished (constTiles x) 1 m₀
  have hrow : OnRows qwenScales 1 0 0 0 := ⟨by decide, by decide, by decide⟩
  have hquantize : (constTiles x).Runs 1 0 (.quantize 0 0 0) := ⟨by decide, by decide, hrow⟩
  have hscaleUse : (constTiles x).Runs 2 0 (.scaleUse 0 0 0 0) :=
    ⟨by decide, by decide, by decide, hrow⟩
  have hread : (constTiles x).Ran 1 c 1 0 (.quantize 0 0 0) :=
    ⟨mem_scaleProgram.mpr ⟨Nat.one_pos, hquantize⟩, Or.inl (by omega)⟩
  have huse : (constTiles x).Ran 1 c 2 0 (.scaleUse 0 0 0 0) := by
    refine ⟨mem_scaleProgram.mpr ⟨Nat.two_pos, hscaleUse⟩, Or.inr ⟨by omega, ?_⟩⟩
    rw [hidle]
    exact List.not_mem_nil
  obtain ⟨c₁, h₁, hepoch₁, hhead₁, -⟩ := hread.exists_head (scaleMachine_staged _ 1) h
  obtain ⟨c₂, h₂, hepoch₂, hhead₂, -⟩ := huse.exists_head (scaleMachine_staged _ 1) h
  exact ⟨c₁, c₂, ⟨h₁, hepoch₁, hhead₁⟩, h₂, hepoch₂, hhead₂⟩

/-- A block of ones, in shared memory that holds something else at first. -/
theorem intermediate_scale_agreement_ones : ∃ c : ScaleConfig,
    ((constTiles 1).machine 1).Reachable (fun _ => 448) c ∧ c.Head () 0 (.quantize 0 0 0) ∧
      c.mem 0 = 1 := by
  obtain ⟨c, -, ⟨h, hepoch, hhead⟩, -⟩ := exists_reads 1 fun _ => 448
  have hmem := ((intermediate_scale_agreement h).1 0 0 0 0 hhead).1
  rw [hepoch] at hmem
  exact ⟨c, h, hhead, hmem.trans (blockMax_constTiles (by decide))⟩

/-- A block whose maximum is the least normal number is quantized with the factor `0`, while the
down projection multiplies with `1 / 448` instead of the maximum over `448`. -/
theorem intermediate_scale_least_normal : ∃ c₁ c₂ : ScaleConfig,
    (((constTiles fltMin).machine 1).Reachable (fun _ => 0) c₁ ∧ c₁.epoch () = 1 ∧
      c₁.Head () 0 (.quantize 0 0 0)) ∧
    (((constTiles fltMin).machine 1).Reachable (fun _ => 0) c₂ ∧ c₂.epoch () = 2 ∧
      c₂.Head () 0 (.scaleUse 0 0 0 0)) ∧
    c₁.mem 0 = fltMin ∧ 0 < value fltMin ∧ c₂.mem 0 = downScale Float32.div fltMin ∧
      quantFactor exactDiv fltMin = 0 ∧ downScale exactDiv fltMin = 1 / 448 ∧
      downScale exactDiv fltMin ≠ value fltMin / 448 ∧
      quantFactor exactDiv fltMin * downScale exactDiv fltMin ≠ 1 := by
  obtain ⟨c₁, c₂, ⟨h₁, hepoch₁, hhead₁⟩, h₂, hepoch₂, hhead₂⟩ := exists_reads fltMin fun _ => 0
  have hmax := blockMax_constTiles (show absBits fltMin = bits fltMin by decide)
  have hmem₁ := mem_of_quantize h₁ hhead₁
  have hmem₂ := mem_of_scaleUse h₂ hhead₂
  rw [hepoch₁] at hmem₁
  rw [hepoch₂] at hmem₂
  have hpos : 0 < value fltMin := value_pos (by decide) (by decide)
  have hsmall : value fltMin ≠ 1 := by
    rw [value_fltMin]
    norm_num
  have hnot : fltMin.lt fltMin = false := by decide
  have hexact := (exact_scales (constTiles fltMin) 0 0 0).2
  rw [hmax] at hexact
  obtain ⟨hfactor, hscale⟩ := hexact hnot
  refine ⟨c₁, c₂, ⟨h₁, hepoch₁, hhead₁⟩, ⟨h₂, hepoch₂, hhead₂⟩, hmem₁.trans hmax, hpos, ?_, hfactor,
    hscale, ?_, ?_⟩
  · exact hmem₂.trans (congrArg (downScale Float32.div) hmax)
  · rw [hscale]
    intro heq
    exact hsmall (by linarith)
  · rw [hfactor, zero_mul]
    exact zero_ne_one

end Agreement

end UnimonoMoe
