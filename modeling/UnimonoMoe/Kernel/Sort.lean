import UnimonoMoe.Kernel.Partition
import UnimonoMoe.Lib.Interleaving
import UnimonoMoe.Lib.PrefixSum

/-!
# Counting sort and tile schedule

Phases 1a (fused into the router's write of the top-k ids), 1b and 1c: the histogram of the
assignments, the scan and the tile schedule, and the scatter of the flattened (token, slot) pairs
into one packed region per expert.

Each phase runs as an arbitrary interleaving of the programs of its threads.  The atomics of the
scatter hand out the places of a region in whatever order they happen to execute, so the order
inside a region is not determined; `Sorted` says what is: every region holds exactly the pairs
routed to its expert, each in one place.
-/

namespace UnimonoMoe

open Loops Interleaving PrefixSum

/-! ## The assignments -/

/-- `numel`, the (token, slot) pairs. -/
def Build.numel (B : Build) (numTokens : ℕ) : ℕ := numTokens * B.topK

/-- The test by which the expert-parallel build passes over a slot routed to another rank; the
tensor-parallel builds have no such test. -/
def Build.skips (B : Build) (id : ℤ) : Bool := B.epBuild && decide (id < 0)

/-- What the router leaves in `topk_ids`: ids in range, and in the expert-parallel build also
negative ones. -/
def RoutedIds (B : Build) (numTokens : ℕ) (ids : ℕ → ℤ) : Prop :=
  ∀ i, i < B.numel numTokens →
    (0 ≤ ids i ∧ ids i < B.eLocal) ∨ (B.epBuild = true ∧ ids i < 0)

/-- The pairs this rank works on. -/
def Owned (B : Build) (numTokens : ℕ) (ids : ℕ → ℤ) (i : ℕ) : Prop :=
  i < B.numel numTokens ∧ B.skips (ids i) = false

/-- `expert_counts[e]` as an array index. -/
def expertOf (ids : ℕ → ℤ) (i : ℕ) : ℕ := (ids i).toNat

instance (B : Build) (numTokens : ℕ) (ids : ℕ → ℤ) : DecidablePred (Owned B numTokens ids) :=
  fun _ => inferInstanceAs (Decidable (_ ∧ _))

section Assignments

variable {B : Build} {numTokens : ℕ} {ids : ℕ → ℤ} {i : ℕ}

/-- A token has a slot. -/
lemma topK_pos : 0 < B.topK := by
  rw [B.topK_eq]
  norm_num

/-- An owned pair has an id in range. -/
lemma Owned.range (hids : RoutedIds B numTokens ids) (h : Owned B numTokens ids i) :
    0 ≤ ids i ∧ ids i < B.eLocal := by
  rcases hids i h.1 with hrange | ⟨hep, hneg⟩
  · exact hrange
  · have hskip := h.2
    simp [Build.skips, hep, hneg] at hskip

/-- The expert of an owned slot is local. -/
lemma Owned.expertOf_lt (hids : RoutedIds B numTokens ids) (h : Owned B numTokens ids i) :
    expertOf ids i < B.eLocal := by
  have := h.range hids
  unfold expertOf
  omega

/-- The pairs routed to expert `e`. -/
def slotsOf (B : Build) (numTokens : ℕ) (ids : ℕ → ℤ) (e : ℕ) : Finset ℕ :=
  (Finset.range (B.numel numTokens)).filter fun i => Owned B numTokens ids i ∧ expertOf ids i = e

/-- The owned slots of an expert. -/
lemma mem_slotsOf {e : ℕ} :
    i ∈ slotsOf B numTokens ids e ↔ Owned B numTokens ids i ∧ expertOf ids i = e := by
  rw [slotsOf, Finset.mem_filter, Finset.mem_range]
  exact ⟨fun h => h.2, fun h => ⟨h.1.1, h⟩⟩

/-- How many pairs are routed to expert `e`. -/
def slotCount (B : Build) (numTokens : ℕ) (ids : ℕ → ℤ) (e : ℕ) : ℕ :=
  (slotsOf B numTokens ids e).card

/-- All owned pairs together are at most the pairs there are. -/
lemma offset_slotCount_le (n : ℕ) : offset (slotCount B numTokens ids) n ≤ B.numel numTokens := by
  have hdisj : ∀ e ∈ Finset.range n, ∀ e' ∈ Finset.range n, e ≠ e' →
      Disjoint (slotsOf B numTokens ids e) (slotsOf B numTokens ids e') := by
    intro e _ e' _ hne
    rw [Finset.disjoint_left]
    intro i hi hi'
    exact hne ((mem_slotsOf.mp hi).2.symm.trans (mem_slotsOf.mp hi').2)
  have hsub : (Finset.range n).biUnion (slotsOf B numTokens ids) ⊆
      Finset.range (B.numel numTokens) := by
    intro i hi
    obtain ⟨e, _, hmem⟩ := Finset.mem_biUnion.mp hi
    exact Finset.mem_range.mpr (mem_slotsOf.mp hmem).1.1
  have hcard := Finset.card_le_card hsub
  rw [Finset.card_biUnion hdisj, Finset.card_range] at hcard
  exact hcard

end Assignments

/-! ## Phase 1a: the histogram -/

section Count

variable (B : Build) (numTokens : ℕ) (ids : ℕ → ℤ)

/-- `WARPS_PER_BLOCK`. -/
def Build.warpsPerBlock : ℕ := B.blockSize / 32

/-- `gwarp`. -/
def gwarp (t : B.Thread) : ℕ := t.1 * B.warpsPerBlock + t.2 / 32

/-- The pairs of token `tok` that are counted. -/
def countRow (tok : ℕ) : List ℕ :=
  ((List.range B.topK).map fun k => tok * B.topK + k).filter fun i => !B.skips (ids i)

/-- The `atomicAdd`s on `expert_counts` of a thread: lane 0 of each warp, for the tokens of the
warp. -/
def countProg (t : B.Thread) : List ℕ :=
  if (t.2 : ℕ) % 32 = 0 then
    (strided (gwarp B t) numTokens (B.gridSize * B.warpsPerBlock)).flatMap (countRow B ids)
  else []

/-- The histogram after a run of the phase. -/
def countPhase (run : List (B.Thread × ℕ)) : ℕ → ℕ :=
  run.foldl (fun c p => Function.update c (expertOf ids p.2) (c (expertOf ids p.2) + 1)) fun _ => 0

variable {B numTokens ids}

/-- A block consists of whole warps. -/
lemma warpsPerBlock_eq : B.warpsPerBlock * 32 = B.blockSize := by
  unfold Build.warpsPerBlock
  rw [B.blockSize_eq, B.numExperts_eq]

/-- A block has a warp. -/
lemma warpsPerBlock_pos : 0 < B.warpsPerBlock := by
  have := B.blockSize_pos
  have := warpsPerBlock_eq (B := B)
  omega

/-- The pairs of a token. -/
lemma mem_countRow {tok i : ℕ} :
    i ∈ countRow B ids tok ↔ i / B.topK = tok ∧ B.skips (ids i) = false := by
  simp only [countRow, List.mem_filter, List.mem_map, List.mem_range, Bool.not_eq_true']
  constructor
  · rintro ⟨⟨k, hk, rfl⟩, hskip⟩
    exact ⟨rowMajor_div hk, hskip⟩
  · rintro ⟨rfl, hskip⟩
    exact ⟨⟨i % B.topK, Nat.mod_lt _ topK_pos, by
      rw [Nat.mul_comm]; exact Nat.div_add_mod i B.topK⟩, hskip⟩

/-- The warps of a block are numbered within it. -/
lemma warp_lt (t : B.Thread) : (t.2 : ℕ) / 32 < B.warpsPerBlock := by
  have := t.2.isLt
  have := warpsPerBlock_eq (B := B)
  omega

/-- The warps are numbered within the grid. -/
lemma gwarp_lt (t : B.Thread) : gwarp B t < B.gridSize * B.warpsPerBlock :=
  rowMajor_lt t.1.isLt (warp_lt t)

/-- Lane 0 of a warp is determined by the warp. -/
lemma eq_of_gwarp_eq {t t' : B.Thread} (ht : (t.2 : ℕ) % 32 = 0) (ht' : (t'.2 : ℕ) % 32 = 0)
    (heq : gwarp B t = gwarp B t') : t = t' := by
  obtain ⟨hblock, hwarp⟩ := rowMajor_inj (warp_lt t) (warp_lt t') heq
  exact Prod.ext (Fin.ext hblock) (Fin.ext (by omega))

/-- Every owned pair is counted by exactly one thread. -/
theorem covers_countProg : Covers (countProg B numTokens ids) (Owned B numTokens ids) := by
  have hstep : 0 < B.gridSize * B.warpsPerBlock := Nat.mul_pos B.gridSize_pos warpsPerBlock_pos
  have hmem : ∀ t i, i ∈ countProg B numTokens ids t ↔ (t.2 : ℕ) % 32 = 0 ∧
      i / B.topK < numTokens ∧ i / B.topK % (B.gridSize * B.warpsPerBlock) = gwarp B t ∧
        B.skips (ids i) = false := by
    intro t i
    unfold countProg
    split_ifs with hlane
    · have hworker : i / B.topK ∈ strided (0 + gwarp B t) numTokens _ ↔ _ :=
        mem_strided_worker (gwarp_lt t)
      rw [Nat.zero_add, Nat.sub_zero] at hworker
      simp only [List.mem_flatMap, mem_countRow, hlane, true_and]
      constructor
      · rintro ⟨tok, htok, rfl, hskip⟩
        exact ⟨(hworker.mp htok).2.1, (hworker.mp htok).2.2, hskip⟩
      · rintro ⟨hlt, hmod, hskip⟩
        exact ⟨_, hworker.mpr ⟨Nat.zero_le _, hlt, hmod⟩, rfl, hskip⟩
    · simp [hlane]
  have htoken : ∀ i, i / B.topK < numTokens ↔ i < B.numel numTokens := fun i =>
    Nat.div_lt_iff_lt_mul topK_pos
  refine ⟨fun t => ?_, fun i hi => ?_, fun t i hi => ?_, fun t t' i hi hi' => ?_⟩
  · unfold countProg
    split_ifs
    · refine List.nodup_flatMap.mpr ⟨fun tok _ => ?_, ?_⟩
      · refine (List.nodup_range.map fun k k' heq => ?_).filter _
        exact Nat.add_left_cancel heq
      · refine (nodup_strided hstep).imp fun hne i hi hi' => ?_
        exact hne ((mem_countRow.mp hi).1.symm.trans (mem_countRow.mp hi').1)
    · exact List.nodup_nil
  · -- the warp of the pair's token
    have hw : i / B.topK % (B.gridSize * B.warpsPerBlock) < B.gridSize * B.warpsPerBlock :=
      Nat.mod_lt _ hstep
    generalize hgw : i / B.topK % (B.gridSize * B.warpsPerBlock) = w at hw
    have hblock : w / B.warpsPerBlock < B.gridSize :=
      Nat.div_lt_of_lt_mul (by rwa [Nat.mul_comm])
    have hthread : w % B.warpsPerBlock * 32 < B.blockSize := by
      have := Nat.mod_lt w (warpsPerBlock_pos (B := B))
      have := warpsPerBlock_eq (B := B)
      omega
    refine ⟨(⟨w / B.warpsPerBlock, hblock⟩, ⟨w % B.warpsPerBlock * 32, hthread⟩), ?_⟩
    refine (hmem _ i).mpr ⟨Nat.mul_mod_left _ _, (htoken i).mpr hi.1, ?_, hi.2⟩
    rw [hgw]
    unfold gwarp
    rw [Nat.mul_div_cancel _ (by norm_num), Nat.mul_comm, Nat.div_add_mod]
  · obtain ⟨_, hlt, _, hskip⟩ := (hmem t i).mp hi
    exact ⟨(htoken i).mp hlt, hskip⟩
  · obtain ⟨hlane, _, hgw, _⟩ := (hmem t i).mp hi
    obtain ⟨hlane', _, hgw', _⟩ := (hmem t' i).mp hi'
    exact eq_of_gwarp_eq hlane hlane' (hgw.symm.trans hgw')

/-- A run of increments counts them. -/
lemma countPhase_eq_countP (run : List (B.Thread × ℕ)) (e : ℕ) :
    countPhase B ids run e = (run.map Prod.snd).countP (expertOf ids · = e) := by
  have hfold : ∀ c : ℕ → ℕ, run.foldl (fun c p => Function.update c (expertOf ids p.2)
      (c (expertOf ids p.2) + 1)) c e =
        c e + (run.map Prod.snd).countP (expertOf ids · = e) := by
    induction run with
    | nil => intro c; rfl
    | cons p run ih =>
      intro c
      rw [List.foldl_cons, ih, List.map_cons, List.countP_cons]
      by_cases he : expertOf ids p.2 = e
      · subst he
        simp
        omega
      · simp [he, Function.update_of_ne (Ne.symm he)]
  rw [countPhase, hfold, Nat.zero_add]

/-- Whatever the order of the increments, the histogram is right. -/
theorem countPhase_eq {run : List (B.Thread × ℕ)}
    (hrun : Interleaves (countProg B numTokens ids) run) :
    countPhase B ids run = slotCount B numTokens ids := by
  ext e
  rw [countPhase_eq_countP]
  refine countP_eq_card (covers_countProg.nodup hrun) fun i => ?_
  rw [mem_slotsOf, covers_countProg.mem_iff hrun, decide_eq_true_eq]

end Count

/-! ## Phase 1b: offsets and tiles -/

/-- What phase 1b leaves in the workspace. -/
structure Schedule where
  offsets : ℕ → ℕ
  writePtrs : ℕ → ℕ
  totalTiles : ℕ
  tileExpert : ℕ → ℕ
  tileRowStart : ℕ → ℕ

section Schedule

variable (B : Build) (counts : ℕ → ℕ)

/-- `tiles_e`. -/
def Build.tilesOf (e : ℕ) : ℕ := tiles counts B.blockM e

/-- `off_e`: the inclusive scan of the counts, less the own count. -/
def Build.offOf (e : ℕ) : ℕ := scanLoop B.numExperts B.numExperts 1 counts e - counts e

/-- `tbase`: the inclusive scan of the tile counts, less the own tile count. -/
def Build.tbaseOf (e : ℕ) : ℕ :=
  scanLoop B.numExperts B.numExperts 1 (B.tilesOf counts) e - B.tilesOf counts e

/-- The tiles a thread writes: thread `e` of block 0 writes those of expert `e`. -/
def tileProg (t : B.Thread) : List (ℕ × ℕ) :=
  if (t.1 : ℕ) = 0 then (List.range (B.tilesOf counts t.2)).map fun i => ((t.2 : ℕ), i) else []

/-- Phase 1b, with the tiles written in the order of `run`. -/
def phase1b (run : List (B.Thread × ℕ × ℕ)) : Schedule where
  offsets e :=
    if e = B.numExperts then
      B.offOf counts (B.numExperts - 1) + counts (B.numExperts - 1)
    else B.offOf counts e
  writePtrs := B.offOf counts
  totalTiles := B.tbaseOf counts (B.numExperts - 1) + B.tilesOf counts (B.numExperts - 1)
  tileExpert := storeAll (fun p : ℕ × ℕ => B.tbaseOf counts p.1 + p.2) (fun p => p.1)
    (fun _ => 0) (run.map Prod.snd)
  tileRowStart := storeAll (fun p : ℕ × ℕ => B.tbaseOf counts p.1 + p.2)
    (fun p => B.offOf counts p.1 + p.2 * B.blockM) (fun _ => 0) (run.map Prod.snd)

variable {B counts}

/-- There is an expert. -/
lemma numExperts_pos : 0 < B.numExperts := by
  rw [B.numExperts_eq]
  norm_num

/-- A tile has a row. -/
lemma blockM_pos : 0 < B.blockM := by
  rw [B.blockM_eq]
  norm_num

/-- The scan of the first block yields the offsets. -/
lemma offOf_eq {e : ℕ} (he : e < B.numExperts) : B.offOf counts e = offset counts e := by
  unfold Build.offOf
  rw [scanLoop_eq counts he, sum_range_succ_sub]

/-- And the first tiles of the experts. -/
lemma tbaseOf_eq {e : ℕ} (he : e < B.numExperts) :
    B.tbaseOf counts e = offset (B.tilesOf counts) e := by
  unfold Build.tbaseOf
  rw [scanLoop_eq _ he, sum_range_succ_sub]

/-- Every tile of every expert is written by exactly one thread. -/
lemma covers_tileProg :
    Covers (tileProg B counts) fun p => p.1 < B.numExperts ∧ p.2 < B.tilesOf counts p.1 := by
  have hmem : ∀ (t : B.Thread) p, p ∈ tileProg B counts t ↔
      (t.1 : ℕ) = 0 ∧ (t.2 : ℕ) = p.1 ∧ p.2 < B.tilesOf counts p.1 := by
    rintro t ⟨e, i⟩
    unfold tileProg
    split_ifs with hb
    · simp only [List.mem_map, List.mem_range, Prod.mk.injEq, hb, true_and]
      constructor
      · rintro ⟨i, hi, rfl, rfl⟩
        exact ⟨rfl, hi⟩
      · rintro ⟨rfl, hi⟩
        exact ⟨i, hi, rfl, rfl⟩
    · simp [hb]
  refine ⟨fun t => ?_, ?_, ?_, ?_⟩
  · unfold tileProg
    split_ifs
    · exact List.nodup_range.map fun i i' heq => (Prod.mk.inj heq).2
    · exact List.nodup_nil
  · rintro ⟨e, i⟩ ⟨he, hi⟩
    exact ⟨(⟨0, B.gridSize_pos⟩, ⟨e, B.blockSize_eq ▸ he⟩), (hmem _ _).mpr ⟨rfl, rfl, hi⟩⟩
  · rintro t ⟨e, i⟩ hin
    obtain ⟨_, rfl, hi⟩ := (hmem t _).mp hin
    exact ⟨lt_of_lt_of_eq t.2.isLt B.blockSize_eq, hi⟩
  · rintro t t' p hin hin'
    obtain ⟨hb, he, _⟩ := (hmem t p).mp hin
    obtain ⟨hb', he', _⟩ := (hmem t' p).mp hin'
    exact Prod.ext (Fin.ext (hb.trans hb'.symm)) (Fin.ext (he.trans he'.symm))

/-- What phase 1b computes, whatever the order of its stores. -/
structure Scheduled (B : Build) (counts : ℕ → ℕ) (S : Schedule) : Prop where
  offsets : ∀ e, e ≤ B.numExperts → S.offsets e = offset counts e
  writePtrs : ∀ e, e < B.numExperts → S.writePtrs e = offset counts e
  totalTiles : S.totalTiles = offset (B.tilesOf counts) B.numExperts
  tile : ∀ e, e < B.numExperts → ∀ i, i < B.tilesOf counts e →
    S.tileExpert (offset (B.tilesOf counts) e + i) = e ∧
      S.tileRowStart (offset (B.tilesOf counts) e + i) = offset counts e + i * B.blockM

/-- Phase 1b leaves the schedule, in any order of the threads. -/
theorem scheduled_phase1b {run : List (B.Thread × ℕ × ℕ)}
    (hrun : Interleaves (tileProg B counts) run) : Scheduled B counts (phase1b B counts run) where
  offsets e he := by
    have hlast : B.numExperts - 1 < B.numExperts := Nat.sub_lt numExperts_pos Nat.one_pos
    simp only [phase1b]
    split_ifs with heq
    · rw [offOf_eq hlast, ← offset_succ, heq, Nat.sub_add_cancel numExperts_pos]
    · exact offOf_eq (by omega)
  writePtrs e he := offOf_eq he
  totalTiles := by
    have hlast : B.numExperts - 1 < B.numExperts := Nat.sub_lt numExperts_pos Nat.one_pos
    simp only [phase1b]
    rw [tbaseOf_eq hlast, ← offset_succ, Nat.sub_add_cancel numExperts_pos]
  tile e he i hi := by
    have hin : (e, i) ∈ run.map Prod.snd := (covers_tileProg.mem_iff hrun).mpr ⟨he, hi⟩
    -- distinct tiles of distinct experts have distinct places in the schedule
    have hinj : ∀ p ∈ run.map Prod.snd, ∀ q ∈ run.map Prod.snd,
        B.tbaseOf counts p.1 + p.2 = B.tbaseOf counts q.1 + q.2 → p = q := by
      intro p hp q hq heq
      obtain ⟨hpe, hpi⟩ := (covers_tileProg.mem_iff hrun).mp hp
      obtain ⟨hqe, hqi⟩ := (covers_tileProg.mem_iff hrun).mp hq
      rw [tbaseOf_eq hpe, tbaseOf_eq hqe] at heq
      have hpr : InRegion (B.tilesOf counts) p.1 (offset (B.tilesOf counts) p.1 + p.2) :=
        ⟨Nat.le_add_right _ _, Nat.add_lt_add_left hpi _⟩
      have hqr : InRegion (B.tilesOf counts) q.1 (offset (B.tilesOf counts) p.1 + p.2) := by
        rw [heq]
        exact ⟨Nat.le_add_right _ _, Nat.add_lt_add_left hqi _⟩
      have hsame := region_unique hpr hqr
      rw [hsame] at heq
      exact Prod.ext hsame (Nat.add_left_cancel heq)
    have hnodup := covers_tileProg.nodup hrun
    rw [← tbaseOf_eq he]
    exact ⟨storeAll_of_mem hnodup hinj hin,
      (storeAll_of_mem hnodup hinj hin).trans (by rw [offOf_eq he])⟩

end Schedule

/-! ## Phase 1c: the scatter -/

/-- The two operations on a pair `i`: take the next place of its expert's region into the local
`pos`, and store `i` there. -/
inductive ScatterOp
  | claim (i : ℕ)
  | put (i : ℕ)
deriving DecidableEq, Repr

/-- The pair an operation is about. -/
def ScatterOp.slot : ScatterOp → ℕ
  | .claim i | .put i => i

/-- The state of the scatter; `pos i` is the local `pos` of the iteration for pair `i`. -/
structure ScatterState where
  writePtrs : ℕ → ℕ
  pos : ℕ → ℕ
  sorted : ℕ → ℕ

section Scatter

variable (B : Build) (numTokens : ℕ) (ids : ℕ → ℤ)

/-- One operation of the scatter. -/
def ScatterState.step (s : ScatterState) : ScatterOp → ScatterState
  | .claim i =>
    { s with
      pos := Function.update s.pos i (s.writePtrs (expertOf ids i))
      writePtrs := Function.update s.writePtrs (expertOf ids i) (s.writePtrs (expertOf ids i) + 1) }
  | .put i => { s with sorted := Function.update s.sorted (s.pos i) i }

/-- The body of the scatter loop for pair `i`. -/
def scatterOps (i : ℕ) : List ScatterOp :=
  if B.skips (ids i) then [] else [.claim i, .put i]

/-- The scatter of a thread. -/
def scatterProg (t : B.Thread) : List ScatterOp :=
  (strided (LaunchArgs.gtid B t) (B.numel numTokens) (B.gridSize * B.blockSize)).flatMap
    (scatterOps B ids)

variable {B numTokens ids}

/-- A slot that the rank skips is not scattered. -/
lemma mem_scatterOps {i : ℕ} {op : ScatterOp} :
    op ∈ scatterOps B ids i ↔ op.slot = i ∧ B.skips (ids i) = false := by
  unfold scatterOps
  cases hskip : B.skips (ids i) <;> cases op <;> simp [ScatterOp.slot]

/-- A thread scatters the owned slots with its number modulo that of the threads. -/
lemma mem_scatterProg {t : B.Thread} {op : ScatterOp} : op ∈ scatterProg B numTokens ids t ↔
    Owned B numTokens ids op.slot ∧
      op.slot % (B.gridSize * B.blockSize) = LaunchArgs.gtid B t := by
  have hlt : LaunchArgs.gtid B t < B.gridSize * B.blockSize := rowMajor_lt t.1.isLt t.2.isLt
  have hworker : op.slot ∈ strided (0 + LaunchArgs.gtid B t) (B.numel numTokens) _ ↔ _ :=
    mem_strided_worker hlt
  rw [Nat.zero_add, Nat.sub_zero] at hworker
  simp only [scatterProg, Owned, List.mem_flatMap, mem_scatterOps]
  constructor
  · rintro ⟨i, hi, rfl, hskip⟩
    obtain ⟨_, hnumel, hmod⟩ := hworker.mp hi
    exact ⟨⟨hnumel, hskip⟩, hmod⟩
  · rintro ⟨⟨hnumel, hskip⟩, hmod⟩
    exact ⟨op.slot, hworker.mpr ⟨Nat.zero_le _, hnumel, hmod⟩, rfl, hskip⟩

/-- Every operation on an owned pair is run by exactly one thread. -/
lemma covers_scatterProg :
    Covers (scatterProg B numTokens ids) fun op => Owned B numTokens ids op.slot := by
  have hstep : 0 < B.gridSize * B.blockSize := Nat.mul_pos B.gridSize_pos B.blockSize_pos
  refine ⟨fun t => ?_, fun op hop => ?_, fun t op hop => (mem_scatterProg.mp hop).1,
    fun t t' op hop hop' => ?_⟩
  · refine List.nodup_flatMap.mpr ⟨fun i _ => ?_, ?_⟩
    · unfold scatterOps
      split_ifs <;> simp
    · refine (nodup_strided hstep).imp fun hne op hop hop' => hne ?_
      exact (mem_scatterOps.mp hop).1.symm.trans (mem_scatterOps.mp hop').1
  · have hlt : op.slot % (B.gridSize * B.blockSize) < B.gridSize * B.blockSize :=
      Nat.mod_lt _ hstep
    generalize hg : op.slot % (B.gridSize * B.blockSize) = g at hlt
    have hblock : g / B.blockSize < B.gridSize := (Nat.div_lt_iff_lt_mul B.blockSize_pos).mpr hlt
    refine ⟨(⟨_, hblock⟩, ⟨_, Nat.mod_lt g B.blockSize_pos⟩), mem_scatterProg.mpr ⟨hop, ?_⟩⟩
    rw [hg]
    unfold LaunchArgs.gtid
    rw [Nat.mul_comm]
    exact (Nat.div_add_mod _ _).symm
  · exact LaunchArgs.gtid_injective
      ((mem_scatterProg.mp hop).2.symm.trans (mem_scatterProg.mp hop').2)

/-- The claims of places in the region of expert `e`. -/
def isClaimOf (ids : ℕ → ℤ) (e : ℕ) : ScatterOp → Bool
  | .claim i => expertOf ids i == e
  | .put _ => false

/-- The order of operations of a run of the scatter: no operation twice, exactly the operations
on owned pairs, and every place claimed before it is used. -/
structure ScatterOrder (B : Build) (numTokens : ℕ) (ids : ℕ → ℤ) (ops : List ScatterOp) :
    Prop where
  nodup : ops.Nodup
  mem_iff : ∀ op, op ∈ ops ↔ Owned B numTokens ids op.slot
  claim_first : ∀ pre i suf, ops = pre ++ .put i :: suf → .claim i ∈ pre

/-- Every run of the scatter is of this order. -/
lemma scatterOrder_of_interleaves {run : List (B.Thread × ScatterOp)}
    (hrun : Interleaves (scatterProg B numTokens ids) run) :
    ScatterOrder B numTokens ids (run.map Prod.snd) where
  nodup := covers_scatterProg.nodup hrun
  mem_iff _ := covers_scatterProg.mem_iff hrun
  claim_first pre i suf heq := by
    obtain ⟨pre', rest', rfl, rfl, hrest⟩ := List.map_eq_append_iff.mp heq
    obtain ⟨⟨t, op⟩, suf', rfl, hop, rfl⟩ := List.map_eq_cons_iff.mp hrest
    obtain rfl : op = .put i := hop
    have hput : ScatterOp.put i ∈ scatterProg B numTokens ids t := hrun.mem_iff.mp (by simp)
    obtain ⟨hown, hmod⟩ := mem_scatterProg.mp hput
    have hworker : i ∈ strided (0 + LaunchArgs.gtid B t) (B.numel numTokens)
        (B.gridSize * B.blockSize) :=
      (mem_strided_worker (rowMajor_lt t.1.isLt t.2.isLt)).mpr ⟨Nat.zero_le _, hown.1, hmod⟩
    rw [Nat.zero_add] at hworker
    have hpair : scatterOps B ids i = [.claim i, .put i] := by
      have hskip : B.skips (ids i) = false := hown.2
      simp [scatterOps, hskip]
    have hsub : List.Sublist [ScatterOp.claim i, .put i] (scatterProg B numTokens ids t) := by
      obtain ⟨l, r, hsplit⟩ := List.append_of_mem hworker
      unfold scatterProg
      rw [hsplit, List.flatMap_append, List.flatMap_cons, hpair]
      exact (List.sublist_append_left _ _).trans (List.sublist_append_right _ _)
    exact List.mem_map.mpr ⟨(t, .claim i),
      hrun.mem_left_of_sublist (covers_scatterProg.nodup_prog t) hsub rfl, rfl⟩

/-- The state after a prefix `pre` of the scatter. -/
structure ScatterInv (B : Build) (ids : ℕ → ℤ) (c : ℕ → ℕ) (pre : List ScatterOp)
    (s : ScatterState) : Prop where
  ptr : ∀ e, e < B.numExperts → s.writePtrs e = offset c e + pre.countP (isClaimOf ids e)
  pos_ge : ∀ i, .claim i ∈ pre → offset c (expertOf ids i) ≤ s.pos i
  pos_lt : ∀ i, .claim i ∈ pre → s.pos i < s.writePtrs (expertOf ids i)
  pos_inj : ∀ i j, .claim i ∈ pre → .claim j ∈ pre → s.pos i = s.pos j → i = j
  sorted : ∀ i, .put i ∈ pre → s.sorted (s.pos i) = i

variable {ops pre suf : List ScatterOp} {s : ScatterState} {i : ℕ}

/-- A run claims as many places in a region as there are. -/
lemma ScatterOrder.countP_claims (h : ScatterOrder B numTokens ids ops) (e : ℕ) :
    ops.countP (isClaimOf ids e) = slotCount B numTokens ids e := by
  refine (countP_eq_card (s := (slotsOf B numTokens ids e).map
    ⟨ScatterOp.claim, fun i j heq => by injection heq⟩) h.nodup fun op => ?_).trans
    (Finset.card_map _)
  rw [Finset.mem_map, h.mem_iff]
  constructor
  · rintro ⟨i, hi, rfl⟩
    obtain ⟨hown, he⟩ := mem_slotsOf.mp hi
    exact ⟨hown, beq_iff_eq.mpr he⟩
  · rintro ⟨hown, hclaim⟩
    cases op with
    | claim i => exact ⟨i, mem_slotsOf.mpr ⟨hown, beq_iff_eq.mp hclaim⟩, rfl⟩
    | put i => cases hclaim

/-- A prefix never claims more places in a region than there are. -/
lemma ScatterOrder.countP_prefix_le (h : ScatterOrder B numTokens ids (pre ++ suf)) (e : ℕ) :
    pre.countP (isClaimOf ids e) ≤ slotCount B numTokens ids e := by
  rw [← h.countP_claims, List.countP_append]
  exact Nat.le_add_right _ _

/-- The places claimed so far lie in the regions of their experts. -/
lemma ScatterInv.inRegion (h : ScatterInv B ids (slotCount B numTokens ids) pre s)
    (hops : ScatterOrder B numTokens ids (pre ++ suf)) (hids : RoutedIds B numTokens ids)
    (hi : .claim i ∈ pre) : InRegion (slotCount B numTokens ids) (expertOf ids i) (s.pos i) := by
  have hown := (hops.mem_iff (.claim i)).mp (List.mem_append_left _ hi)
  have he : expertOf ids i < B.numExperts := (hown.expertOf_lt hids).trans_le B.eLocal_le
  have hlt := h.pos_lt i hi
  rw [h.ptr _ he] at hlt
  exact ⟨h.pos_ge i hi, hlt.trans_le (Nat.add_le_add_left (hops.countP_prefix_le _) _)⟩

/-- Claiming a place keeps the invariant. -/
lemma ScatterInv.claim (h : ScatterInv B ids (slotCount B numTokens ids) pre s)
    (hops : ScatterOrder B numTokens ids (pre ++ .claim i :: suf))
    (hids : RoutedIds B numTokens ids) :
    ScatterInv B ids (slotCount B numTokens ids) (pre ++ [.claim i])
      (s.step ids (.claim i)) := by
  have hown := (hops.mem_iff (.claim i)).mp (by simp)
  have he : expertOf ids i < B.numExperts := (hown.expertOf_lt hids).trans_le B.eLocal_le
  have hnew : ScatterOp.claim i ∉ pre := fun hin =>
    (List.nodup_append.mp hops.nodup).2.2 _ hin _ List.mem_cons_self rfl
  have hne : ∀ j, .claim j ∈ pre → j ≠ i := fun j hj heq => hnew (heq ▸ hj)
  have hputs : ∀ j, .put j ∈ pre → j ≠ i := by
    intro j hj heq
    subst heq
    obtain ⟨l, r, hsplit⟩ := List.append_of_mem hj
    have hfirst := hops.claim_first l j (r ++ .claim j :: suf) (by simp [hsplit])
    exact hnew (hsplit ▸ List.mem_append_left _ hfirst)
  -- there is room for one more claim in the region
  have hroom : pre.countP (isClaimOf ids (expertOf ids i)) <
      slotCount B numTokens ids (expertOf ids i) := by
    rw [← hops.countP_claims, List.countP_append, List.countP_cons]
    simp [isClaimOf]
  have hregion : InRegion (slotCount B numTokens ids) (expertOf ids i)
      (s.writePtrs (expertOf ids i)) := by
    rw [h.ptr _ he]
    exact ⟨Nat.le_add_right _ _, Nat.add_lt_add_left hroom _⟩
  -- no earlier claim of any expert holds the same place
  have hfresh : ∀ j, .claim j ∈ pre → s.pos j ≠ s.writePtrs (expertOf ids i) := by
    intro j hj heq
    have hjregion := h.inRegion hops hids hj
    rw [heq] at hjregion
    have hsame := region_unique hjregion hregion
    have hlt := h.pos_lt j hj
    rw [heq, hsame] at hlt
    exact Nat.lt_irrefl _ hlt
  refine ⟨fun e he' => ?_, fun j hj => ?_, fun j hj => ?_, fun j k hj hk => ?_, fun j hj => ?_⟩
  · simp only [ScatterState.step, List.countP_append, List.countP_singleton, isClaimOf]
    by_cases hee : expertOf ids i = e
    · subst hee
      rw [Function.update_self, h.ptr _ he']
      simp
      omega
    · rw [Function.update_of_ne (Ne.symm hee), h.ptr _ he']
      simp [hee]
  · simp only [ScatterState.step]
    by_cases hji : j = i
    · subst hji
      rw [Function.update_self]
      exact hregion.1
    · rw [Function.update_of_ne hji]
      exact h.pos_ge j (by simpa [hji] using hj)
  · simp only [ScatterState.step]
    by_cases hji : j = i
    · subst hji
      rw [Function.update_self, Function.update_self]
      exact Nat.lt_succ_self _
    · have hlt := h.pos_lt j (by simpa [hji] using hj)
      rw [Function.update_of_ne hji]
      by_cases hee : expertOf ids j = expertOf ids i
      · rw [hee] at hlt ⊢
        rw [Function.update_self]
        omega
      · rwa [Function.update_of_ne hee]
  · simp only [ScatterState.step]
    by_cases hji : j = i <;> by_cases hki : k = i
    · exact fun _ => hji.trans hki.symm
    · subst hji
      rw [Function.update_self, Function.update_of_ne hki]
      exact fun heq => absurd heq.symm (hfresh k (by simpa [hki] using hk))
    · subst hki
      rw [Function.update_self, Function.update_of_ne hji]
      exact fun heq => absurd heq (hfresh j (by simpa [hji] using hj))
    · rw [Function.update_of_ne hji, Function.update_of_ne hki]
      exact h.pos_inj j k (by simpa [hji] using hj) (by simpa [hki] using hk)
  · have hj' : ScatterOp.put j ∈ pre := by simpa using hj
    simp only [ScatterState.step]
    rw [Function.update_of_ne (hputs j hj')]
    exact h.sorted j hj'

/-- Using a claimed place keeps the invariant. -/
lemma ScatterInv.put (h : ScatterInv B ids (slotCount B numTokens ids) pre s)
    (hops : ScatterOrder B numTokens ids (pre ++ .put i :: suf)) :
    ScatterInv B ids (slotCount B numTokens ids) (pre ++ [.put i]) (s.step ids (.put i)) := by
  have hclaimed : ∀ j, .claim j ∈ pre ++ [.put i] → .claim j ∈ pre := fun j hj => by
    simpa using hj
  have hi : ScatterOp.claim i ∈ pre := hops.claim_first pre i suf rfl
  refine ⟨fun e he => ?_, fun j hj => h.pos_ge j (hclaimed j hj),
    fun j hj => h.pos_lt j (hclaimed j hj),
    fun j k hj hk => h.pos_inj j k (hclaimed j hj) (hclaimed k hk), fun j hj => ?_⟩
  · simp only [ScatterState.step, List.countP_append, List.countP_singleton, isClaimOf]
    simpa using h.ptr e he
  · simp only [ScatterState.step]
    by_cases hji : j = i
    · subst hji
      exact Function.update_self _ _ _
    · have hj' : ScatterOp.put j ∈ pre := by simpa [hji] using hj
      obtain ⟨l, r, hsplit⟩ := List.append_of_mem hj'
      have hjclaim := hops.claim_first l j (r ++ .put i :: suf) (by simp [hsplit])
      have hne : s.pos j ≠ s.pos i := fun heq =>
        hji (h.pos_inj j i (hsplit ▸ List.mem_append_left _ hjclaim) hi heq)
      rw [Function.update_of_ne hne]
      exact h.sorted j hj'

/-- The invariant holds after every prefix of a run. -/
theorem scatterInv (hids : RoutedIds B numTokens ids) {s₀ : ScatterState}
    (hptr : ∀ e, e < B.numExperts → s₀.writePtrs e = offset (slotCount B numTokens ids) e)
    (hops : ScatterOrder B numTokens ids (pre ++ suf)) :
    ScatterInv B ids (slotCount B numTokens ids) pre
      (pre.foldl (ScatterState.step ids) s₀) := by
  induction pre using List.reverseRecOn generalizing suf with
  | nil =>
    refine ⟨fun e he => hptr e he, ?_, ?_, ?_, ?_⟩ <;> simp
  | append_singleton pre op ih =>
    rw [List.append_assoc] at hops
    rw [List.foldl_append]
    cases op with
    | claim i => exact (ih hops).claim hops hids
    | put i => exact (ih hops).put hops

/-- What the scatter leaves in `sorted_token_ids`: every region holds exactly the pairs of its
expert, each in one place. -/
structure Sorted (B : Build) (numTokens : ℕ) (ids : ℕ → ℤ) (sorted : ℕ → ℕ) : Prop where
  owned : ∀ e x, e < B.numExperts → InRegion (slotCount B numTokens ids) e x →
    Owned B numTokens ids (sorted x) ∧ expertOf ids (sorted x) = e
  place : ∀ i, Owned B numTokens ids i →
    ∃ x, InRegion (slotCount B numTokens ids) (expertOf ids i) x ∧ sorted x = i
  inj : ∀ x y, x < offset (slotCount B numTokens ids) B.numExperts →
    y < offset (slotCount B numTokens ids) B.numExperts → sorted x = sorted y → x = y

/-- Whatever the order of the atomics, the scatter sorts. -/
theorem sorted_of_scatter (hids : RoutedIds B numTokens ids) {s₀ : ScatterState}
    (hptr : ∀ e, e < B.numExperts → s₀.writePtrs e = offset (slotCount B numTokens ids) e)
    {run : List (B.Thread × ScatterOp)} (hrun : Interleaves (scatterProg B numTokens ids) run) :
    Sorted B numTokens ids ((run.map Prod.snd).foldl (ScatterState.step ids) s₀).sorted := by
  have hops := scatterOrder_of_interleaves hrun
  have hwhole : ScatterOrder B numTokens ids (run.map Prod.snd ++ []) := by
    rwa [List.append_nil]
  have hinv := scatterInv hids hptr hwhole
  generalize (run.map Prod.snd).foldl (ScatterState.step ids) s₀ = s at hinv
  have hclaim : ∀ i, Owned B numTokens ids i → .claim i ∈ run.map Prod.snd := fun i hi =>
    (hops.mem_iff (.claim i)).mpr hi
  have hput : ∀ i, Owned B numTokens ids i → s.sorted (s.pos i) = i := fun i hi =>
    hinv.sorted i ((hops.mem_iff (.put i)).mpr hi)
  have hregion : ∀ i, Owned B numTokens ids i →
      InRegion (slotCount B numTokens ids) (expertOf ids i) (s.pos i) := fun i hi =>
    hinv.inRegion hwhole hids (hclaim i hi)
  -- the places of an expert's pairs fill its region, because they are as many
  have hfill : ∀ e x, InRegion (slotCount B numTokens ids) e x →
      ∃ i, Owned B numTokens ids i ∧ expertOf ids i = e ∧ s.pos i = x := by
    intro e x hx
    have hsub : (slotsOf B numTokens ids e).image s.pos ⊆
        Finset.Ico (offset (slotCount B numTokens ids) e)
          (offset (slotCount B numTokens ids) e + slotCount B numTokens ids e) := by
      intro y hy
      obtain ⟨i, hi, rfl⟩ := Finset.mem_image.mp hy
      obtain ⟨hown, rfl⟩ := mem_slotsOf.mp hi
      exact Finset.mem_Ico.mpr (hregion i hown)
    have hcard : ((slotsOf B numTokens ids e).image s.pos).card = slotCount B numTokens ids e := by
      refine Finset.card_image_of_injOn fun i hi j hj heq => ?_
      exact hinv.pos_inj i j (hclaim i (mem_slotsOf.mp hi).1) (hclaim j (mem_slotsOf.mp hj).1) heq
    have himage := Finset.eq_of_subset_of_card_le hsub (by rw [hcard, Nat.card_Ico]; omega)
    obtain ⟨i, hi, hpos⟩ := Finset.mem_image.mp (himage ▸ Finset.mem_Ico.mpr hx)
    exact ⟨i, (mem_slotsOf.mp hi).1, (mem_slotsOf.mp hi).2, hpos⟩
  refine ⟨fun e x _ hx => ?_, fun i hi => ⟨s.pos i, hregion i hi, hput i hi⟩,
    fun x y hx hy heq => ?_⟩
  · obtain ⟨i, hown, he, rfl⟩ := hfill e x hx
    rw [hput i hown]
    exact ⟨hown, he⟩
  · obtain ⟨e, ⟨_, hxe⟩, _⟩ := exists_unique_region hx
    obtain ⟨e', ⟨_, hye⟩, _⟩ := exists_unique_region hy
    obtain ⟨i, hi, _, rfl⟩ := hfill e x hxe
    obtain ⟨j, hj, _, rfl⟩ := hfill e' y hye
    rw [hput i hi, hput j hj] at heq
    rw [heq]

end Scatter

end UnimonoMoe
