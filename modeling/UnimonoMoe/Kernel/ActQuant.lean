import UnimonoMoe.Kernel.Sort
import UnimonoMoe.Lib.Butterfly
import UnimonoMoe.Lib.Magnitudes
import UnimonoMoe.Lib.Threads

/-!
# Phase 0.5: the quantization of the activations

The activations are quantized once per token, in blocks of 128 columns: a block becomes 128 FP8
bytes and one scale.  The warps of the grid share the pairs of a token and a block; each warp takes
four of them at a time, loads all four before it works on the first, and takes those that are left
one at a time.

A warp is a thread on a shared store; its lanes run in step, as its shuffles demand.  A pair that is
visited is reported.
-/

namespace UnimonoMoe

open Threads Binary32 Loops

/-! ## Registers -/

section Registers

/-- `__bfloat162float` -/
def bfloat162float (b : UInt32) : Float32 := Float32.ofBits (b <<< 16)

/-- `lm` of a lane before the shuffles, from its four elements. -/
def laneMax (raw : Fin 4 → UInt32) : Float32 :=
  let r j := fabsf (bfloat162float (raw j))
  fmaxf (fmaxf (r 0) (r 1)) (fmaxf (r 2) (r 3))

/-- `lm` of a lane after the shuffles. -/
def warpMax (raw : Fin 32 → Fin 4 → UInt32) (lane : Fin 32) : Float32 :=
  Butterfly.butterfly fmaxf 5 (fun i => laneMax (raw (Fin.ofNat 32 i))) lane

/-- `lm` of a lane, where a maximum too small to divide by is replaced. -/
def blockLm (raw : Fin 32 → Fin 4 → UInt32) (lane : Fin 32) : Float32 :=
  if (warpMax raw lane).lt fltMin then 1 else warpMax raw lane

/-- `packed`: four bytes in one word, `e4m3` being the conversion to FP8. -/
def packed (e4m3 : Float32 → UInt8) (raw : Fin 4 → UInt32) (inv : Float32) : UInt32 :=
  (List.finRange 4).foldl (fun acc j =>
    acc ||| (e4m3 (bfloat162float (raw j) * inv)).toUInt32 <<< (8 * UInt32.ofNat j)) 0

/-- A byte of a word in memory. -/
def byteOf (word : UInt32) (j : Fin 4) : UInt8 := (word >>> (8 * UInt32.ofNat j)).toUInt8

/-- The bytes of a packed word. -/
lemma byteOf_packed (e4m3 : Float32 → UInt8) (raw : Fin 4 → UInt32) (inv : Float32) (j : Fin 4) :
    byteOf (packed e4m3 raw inv) j = e4m3 (bfloat162float (raw j) * inv) := by
  have hlist : List.finRange 4 = [0, 1, 2, 3] := rfl
  unfold packed byteOf
  rw [hlist]
  generalize hq : (fun j => e4m3 (bfloat162float (raw j) * inv)) = q
  have hq : ∀ j, e4m3 (bfloat162float (raw j) * inv) = q j := congrFun hq
  simp only [List.foldl_cons, List.foldl_nil, hq]
  rw [← UInt8.toBitVec_inj]
  refine BitVec.eq_of_getLsbD_eq fun i hi => ?_
  have hbyte : i < 32 := by omega
  fin_cases j
  · simp
  · have hword : 8 + i < 32 ∧ 8 + i < 16 ∧ 8 + i < 24 := by omega
    simp [hi, hbyte, hword]
  · have hword : 16 + i < 32 ∧ ¬16 + i < 16 ∧ 16 + i < 24 := by omega
    simp (disch := omega) [hword]
  · have hword : 24 + i < 32 ∧ ¬24 + i < 24 := by omega
    simp (disch := omega) [hword]

/-- The absolute value of an element. -/
def absOf (b : UInt32) : AbsValue := ⟨fabsf (bfloat162float b), _, rfl⟩

/-- The greatest absolute value among the elements of a lane. -/
def laneAbs (raw : Fin 4 → UInt32) : AbsValue :=
  let r j := absOf (raw j)
  ((r 0).fmax (r 1)).fmax ((r 2).fmax (r 3))

/-- The absolute value that a lane ends with. -/
def warpAbs (raw : Fin 32 → Fin 4 → UInt32) (lane : Fin 32) : AbsValue :=
  Butterfly.butterfly AbsValue.fmax 5 (fun i => laneAbs (raw (Fin.ofNat 32 i))) lane

/-- The reduced value of a lane is that of `warp_reduce_max_float`. -/
lemma warpAbs_val (raw : Fin 32 → Fin 4 → UInt32) (lane : Fin 32) :
    (warpAbs raw lane).1 = warpMax raw lane :=
  Butterfly.butterfly_map (fun _ _ => rfl) 5 _ _

/-- A lane starts from the greatest of its four values. -/
lemma isGreatest_laneAbs (raw : Fin 4 → UInt32) :
    IsGreatest {k | ∃ j, k = (absOf (raw j)).place} (laneAbs raw).place := by
  unfold laneAbs
  rw [AbsValue.place_fmax, AbsValue.place_fmax, AbsValue.place_fmax]
  constructor
  · rcases max_choice (max (absOf (raw 0)).place (absOf (raw 1)).place)
      (max (absOf (raw 2)).place (absOf (raw 3)).place) with h | h <;> rw [h]
    · rcases max_choice (absOf (raw 0)).place (absOf (raw 1)).place with h | h <;> rw [h]
      · exact ⟨0, rfl⟩
      · exact ⟨1, rfl⟩
    · rcases max_choice (absOf (raw 2)).place (absOf (raw 3)).place with h | h <;> rw [h]
      · exact ⟨2, rfl⟩
      · exact ⟨3, rfl⟩
  · rintro _ ⟨j, rfl⟩
    fin_cases j <;> simp

/-- Every lane ends with the greatest absolute value of the block. -/
theorem isGreatest_warpAbs (raw : Fin 32 → Fin 4 → UInt32) (lane : Fin 32) :
    IsGreatest {k | ∃ i j, k = (absOf (raw i j)).place} (warpAbs raw lane).place := by
  have hmax : (warpAbs raw lane).place = Butterfly.butterfly max 5
      (fun i => (laneAbs (raw (Fin.ofNat 32 i))).place) lane :=
    Butterfly.butterfly_map AbsValue.place_fmax 5 _ _
  have hlane : (lane : ℕ) < 2 ^ 5 := lane.isLt
  rw [hmax]
  constructor
  · obtain ⟨i, -, hi⟩ := Butterfly.butterfly_mem
      (x := fun i => (laneAbs (raw (Fin.ofNat 32 i))).place) max_choice hlane
    rw [hi]
    obtain ⟨j, hj⟩ := (isGreatest_laneAbs (raw (Fin.ofNat 32 i))).1
    exact ⟨_, j, hj⟩
  · rintro _ ⟨i, j, rfl⟩
    have hi : (i : ℕ) < 2 ^ 5 := i.isLt
    have hle := Butterfly.le_butterfly_of_le
      (x := fun i => (laneAbs (raw (Fin.ofNat 32 i))).place) le_max_left le_max_right hlane hi
    rw [Fin.ofNat_val_eq_self] at hle
    exact ((isGreatest_laneAbs (raw i)).2 ⟨j, rfl⟩).trans hle

/-- The lanes of a warp agree on the divisor. -/
lemma blockLm_eq (raw : Fin 32 → Fin 4 → UInt32) (lane lane' : Fin 32) :
    blockLm raw lane = blockLm raw lane' := by
  have hplace := (isGreatest_warpAbs raw lane).unique (isGreatest_warpAbs raw lane')
  have hmax := congrArg Subtype.val (AbsValue.place_injective hplace)
  rw [warpAbs_val, warpAbs_val] at hmax
  unfold blockLm
  rw [hmax]

end Registers

/-! ## The program of a warp -/

/-- An element of one of the arrays. -/
inductive QuantCell
  /-- an element of `act_bf16` -/
  | act (i : ℕ)
  /-- a byte of `act_fp8` -/
  | fp8 (i : ℕ)
  /-- an element of `act_scales` -/
  | scale (i : ℕ)
deriving DecidableEq

/-- Programs on the arrays, whose elements are given by their bits.  The events are the pairs of a
token and a block that are visited. -/
abbrev QuantProg (α : Type) : Type := Prog QuantCell UInt32 Empty (ℕ × ℕ) α

/-- `MLPQ` -/
def mlpq : ℕ := 4

namespace Build

variable (B : Build)

/-- `N_KBLK` -/
def nKblk : ℕ := B.kDim / 128

/-- `nwarps_grid` -/
def nwarpsGrid : ℕ := B.gridSize * B.warpsPerBlock

/-- `stride_q` -/
def strideQ : ℕ := B.nwarpsGrid * mlpq

/-- A warp of the grid: its block and its index in the block. -/
abbrev Warp : Type := Fin B.gridSize × Fin B.warpsPerBlock

/-- `gwarp` -/
def warpIndex (w : B.Warp) : ℕ := w.1 * B.warpsPerBlock + w.2

/-- `(tok, ksb)` -/
def pairOf (blk : ℕ) : ℕ × ℕ := (blk / B.nKblk, blk % B.nKblk)

/-- `tok * K_DIM + ksb * 128 + c` for a lane. -/
def actOffset (p : ℕ × ℕ) (lane : Fin 32) : ℕ := p.1 * B.kDim + p.2 * 128 + lane * 4

/-- `tok * N_KBLK + ksb` -/
def scaleOffset (p : ℕ × ℕ) : ℕ := p.1 * B.nKblk + p.2

/-- The grid has a warp. -/
lemma nwarpsGrid_pos : 0 < B.nwarpsGrid := Nat.mul_pos B.gridSize_pos warpsPerBlock_pos

/-- The stride of the loop is positive. -/
lemma strideQ_pos : 0 < B.strideQ := Nat.mul_pos B.nwarpsGrid_pos (by decide)

end Build

section Program

variable (B : Build) (e4m3 : Float32 → UInt8)

/-- `braw`: what the lanes load of a pair. -/
def loadPair (p : ℕ × ℕ) : QuantProg (Fin 32 → Fin 4 → UInt32) :=
  Prog.gather 32 fun lane => Prog.gather 4 fun j => Prog.get (.act (B.actOffset p lane + j))

/-- A word is stored to `act_fp8`. -/
def storeWord (i : ℕ) (word : UInt32) : QuantProg Unit :=
  Prog.each (fun j : Fin 4 => Prog.set (.fp8 (i + j)) (byteOf word j).toUInt32) (List.finRange 4)

/-- The stores of the lanes to `act_fp8`. -/
def storePacked (p : ℕ × ℕ) (braw : Fin 32 → Fin 4 → UInt32) : QuantProg Unit :=
  Prog.each (fun lane : Fin 32 =>
    let inv := 448 / blockLm braw lane
    storeWord (B.actOffset p lane) (packed e4m3 (braw lane) inv)) (List.finRange 32)

/-- What is done with the elements of a pair. -/
def quantizePair (p : ℕ × ℕ) (braw : Fin 32 → Fin 4 → UInt32) : QuantProg Unit := do
  Prog.report p
  storePacked B e4m3 p braw
  Prog.set (.scale (B.scaleOffset p)) (blockLm braw 0 / 448).toBits

/-- A turn of the main loop: the pairs of `blk[0]` to `blk[3]` are loaded, then worked on. -/
def quantTurn (blk0 : ℕ) : QuantProg Unit := do
  let blk (u : Fin mlpq) : ℕ := blk0 + B.nwarpsGrid * u
  let braw ← Prog.gather mlpq fun u => loadPair B (B.pairOf (blk u))
  Prog.each (fun u => quantizePair B e4m3 (B.pairOf (blk u)) (braw u)) (List.finRange mlpq)

/-- The loop that takes four pairs at a time, from `blk0` on.  It yields the `blk0` it ends with. -/
def mainLoop (nblk blk0 : ℕ) : QuantProg ℕ :=
  if blk0 + B.nwarpsGrid * (mlpq - 1) < nblk then do
    quantTurn B e4m3 blk0
    mainLoop nblk (blk0 + B.strideQ)
  else return blk0
termination_by nblk - blk0
decreasing_by
  have := B.strideQ_pos
  omega

/-- The pair that a turn of the plain loop is about. -/
def visitPair (p : ℕ × ℕ) : QuantProg Unit := do
  let braw ← loadPair B p
  quantizePair B e4m3 p braw

/-- The loop over the pairs that are left. -/
def remainderLoop (nblk blk : ℕ) : QuantProg Unit :=
  if blk < nblk then do
    visitPair B e4m3 (B.pairOf blk)
    remainderLoop nblk (blk + B.nwarpsGrid)
  else return ()
termination_by nblk - blk
decreasing_by
  have := B.nwarpsGrid_pos
  omega

/-- The phase in a warp. -/
def quantWarp (numTokens : ℕ) (w : B.Warp) : QuantProg Unit := do
  let nblk := numTokens * B.nKblk
  let blk0 ← mainLoop B e4m3 nblk (B.warpIndex w)
  remainderLoop B e4m3 nblk blk0

/-- The plain loop over some blocks: one after the other. -/
def plainLoop (blks : List ℕ) : QuantProg Unit :=
  Prog.each (fun blk => visitPair B e4m3 (B.pairOf blk)) blks

end Program

/-! ## The cells of a pair -/

section Cells

variable {B : Build} {e4m3 : Float32 → UInt8} {p p' : ℕ × ℕ} {k : QuantCell}

/-- A column of the 128 columns of a pair. -/
def Build.InPair (B : Build) (p : ℕ × ℕ) (i : ℕ) : Prop :=
  ∃ c < 128, i = p.1 * B.kDim + (p.2 * 128 + c)

/-- The values of a pair. -/
def Build.inputsOf (B : Build) (p : ℕ × ℕ) : Set QuantCell := {k | ∃ i, B.InPair p i ∧ k = .act i}

/-- The bytes of a pair and its scale slot. -/
def Build.outputsOf (B : Build) (p : ℕ × ℕ) : Set QuantCell :=
  {k | (∃ i, B.InPair p i ∧ k = .fp8 i) ∨ k = .scale (B.scaleOffset p)}

/-- The cells of a pair. -/
def Build.cellsOf (B : Build) (p : ℕ × ℕ) : Set QuantCell :=
  {k | k ∈ B.inputsOf p ∨ k ∈ B.outputsOf p}

/-- A lane reads values of the pair. -/
lemma inPair_actOffset (p : ℕ × ℕ) (lane : Fin 32) (j : Fin 4) :
    B.InPair p (B.actOffset p lane + j) :=
  ⟨lane * 4 + j, by omega, by unfold Build.actOffset; omega⟩

/-- A column belongs to one pair only. -/
lemma pair_eq_of_inPair (hp : p.2 < B.nKblk) (hp' : p'.2 < B.nKblk) {i : ℕ} (hi : B.InPair p i)
    (hi' : B.InPair p' i) : p = p' := by
  obtain ⟨c, hc, rfl⟩ := hi
  obtain ⟨c', hc', heq⟩ := hi'
  have hcol : ∀ q < B.nKblk, ∀ d < 128, q * 128 + d < B.kDim := fun q hq d hd =>
    (rowMajor_lt hq hd).trans_le (Nat.div_mul_le_self B.kDim 128)
  obtain ⟨htok, hrest⟩ := rowMajor_inj (hcol _ hp c hc) (hcol _ hp' c' hc') heq
  exact Prod.ext htok (rowMajor_inj hc hc' hrest).1

/-- A cell belongs to one pair only. -/
lemma pair_eq_of_mem (hp : p.2 < B.nKblk) (hp' : p'.2 < B.nKblk) (hk : k ∈ B.cellsOf p)
    (hk' : k ∈ B.cellsOf p') : p = p' := by
  rcases hk with ⟨i, hi, rfl⟩ | ⟨i, hi, rfl⟩ | rfl
  · rcases hk' with ⟨_, hi', h⟩ | ⟨_, _, h⟩ | h
    · cases h
      exact pair_eq_of_inPair hp hp' hi hi'
    · exact absurd h nofun
    · exact absurd h nofun
  · rcases hk' with ⟨_, _, h⟩ | ⟨_, hi', h⟩ | h
    · exact absurd h nofun
    · cases h
      exact pair_eq_of_inPair hp hp' hi hi'
    · exact absurd h nofun
  · rcases hk' with ⟨_, _, h⟩ | ⟨_, _, h⟩ | h
    · exact absurd h nofun
    · exact absurd h nofun
    · obtain ⟨htok, hksb⟩ := rowMajor_inj hp hp' (QuantCell.scale.inj h)
      exact Prod.ext htok hksb

/-- The loads of a pair read its values. -/
lemma loadPair_touches (p : ℕ × ℕ) : (loadPair B p).Touches (B.inputsOf p) ∅ :=
  Prog.touches_gather fun lane => Prog.touches_gather fun j =>
    Prog.touches_get ⟨_, inPair_actOffset p lane j, rfl⟩

/-- The stores of a pair write its bytes and its scale slot. -/
lemma quantizePair_touches (p : ℕ × ℕ) (braw : Fin 32 → Fin 4 → UInt32) :
    (quantizePair B e4m3 p braw).Touches ∅ (B.outputsOf p) := by
  have hbyte : ∀ (lane : Fin 32) (j : Fin 4),
      QuantCell.fp8 (B.actOffset p lane + j) ∈ B.outputsOf p :=
    fun lane j => Or.inl ⟨_, inPair_actOffset p lane j, rfl⟩
  have hscale : QuantCell.scale (B.scaleOffset p) ∈ B.outputsOf p := Or.inr rfl
  refine Prog.Touches.bind trivial fun _ => Prog.Touches.bind ?_ fun _ => ?_
  · exact Prog.touches_each (fun lane => Prog.touches_each (fun j =>
      Prog.touches_set (hbyte lane j) _) _) _
  · exact Prog.touches_set hscale _

/-- The loads of a pair stay within its cells. -/
lemma loadPair_within (p : ℕ × ℕ) : (loadPair B p).Within (B.cellsOf p) :=
  (loadPair_touches p).within (fun _ => Or.inl) nofun

/-- So do its stores. -/
lemma quantizePair_within (p : ℕ × ℕ) (braw : Fin 32 → Fin 4 → UInt32) :
    (quantizePair B e4m3 p braw).Within (B.cellsOf p) :=
  (quantizePair_touches p braw).within nofun fun _ => Or.inr

/-- A visit of a pair stays within its cells. -/
lemma visitPair_within (p : ℕ × ℕ) : (visitPair B e4m3 p).Within (B.cellsOf p) :=
  (loadPair_within p).bind (quantizePair_within p)

end Cells

/-! ## A visit -/

section Visit

variable {B : Build} {e4m3 : Float32 → UInt8} (p : ℕ × ℕ) (m : QuantCell → UInt32)

/-- What the lanes hold of a pair. -/
def loaded (B : Build) (p : ℕ × ℕ) (m : QuantCell → UInt32) : Fin 32 → Fin 4 → UInt32 :=
  fun lane j => m (.act (B.actOffset p lane + j))

/-- The loads of a pair leave the memory alone. -/
lemma exec_loadPair : exec (loadPair B p) m = ⟨.ok (loaded B p m), m, []⟩ :=
  exec_gather fun _ => exec_gather fun _ => rfl

/-- A store reports nothing. -/
lemma emits_storeWord (i : ℕ) (word : UInt32) : Emits (storeWord i word) [] :=
  Emits.each (fun _ => emits_set _ _) _

/-- The packed stores report nothing. -/
lemma emits_storePacked (braw : Fin 32 → Fin 4 → UInt32) :
    Emits (storePacked B e4m3 p braw) [] :=
  Emits.each (fun _ => emits_storeWord _ _) _

/-- A pair is reported when it is quantized. -/
lemma emits_quantizePair (braw : Fin 32 → Fin 4 → UInt32) :
    Emits (quantizePair B e4m3 p braw) [p] :=
  (emits_report p).bind ((emits_storePacked p braw).bind (emits_set _ _))

/-- A visit quantizes what it has loaded. -/
lemma exec_visitPair :
    exec (visitPair B e4m3 p) m = exec (quantizePair B e4m3 p (loaded B p m)) m := by
  rw [visitPair, exec_bind, exec_loadPair, Outcome.andThen_ok]
  rfl

/-- The bytes of a stored word. -/
lemma store_storeWord (i : ℕ) (word : UInt32) (j : Fin 4) :
    (exec (storeWord i word) m).store (.fp8 (i + j)) = (byteOf word j).toUInt32 := by
  have hinj : Function.Injective fun j : Fin 4 => QuantCell.fp8 (i + j) := fun j j' h =>
    Fin.ext (Nat.add_left_cancel (QuantCell.fp8.inj h))
  exact store_each_set hinj _ (List.nodup_finRange 4) (List.mem_finRange j) m

/-- The bytes that the lanes store. -/
lemma store_storePacked (braw : Fin 32 → Fin 4 → UInt32) (lane : Fin 32) (j : Fin 4) :
    (exec (storePacked B e4m3 p braw) m).store (.fp8 (B.actOffset p lane + j)) =
      (e4m3 (bfloat162float (braw lane j) * (448 / blockLm braw lane))).toUInt32 := by
  have hown : ∀ lane : Fin 32, (storeWord (B.actOffset p lane)
      (packed e4m3 (braw lane) (448 / blockLm braw lane))).Within
        (Set.range fun j : Fin 4 => QuantCell.fp8 (B.actOffset p lane + j)) := fun lane =>
    Prog.within_each fun j _ => Prog.within_set (Set.mem_range_self j) _
  have hdisj : ∀ i ∈ List.finRange 32, ∀ i' ∈ List.finRange 32, i ≠ i' →
      ∀ k ∈ Set.range (fun j : Fin 4 => QuantCell.fp8 (B.actOffset p i + j)),
        k ∉ Set.range fun j : Fin 4 => QuantCell.fp8 (B.actOffset p i' + j) := by
    rintro i - i' - hne _ ⟨j, rfl⟩ ⟨j', hj'⟩
    have heq := QuantCell.fp8.inj hj'
    unfold Build.actOffset at heq
    omega
  have halone := store_each_of_own (fun lane => emits_storeWord _ _) hown (List.nodup_finRange 32)
    hdisj (List.mem_finRange lane) (Set.mem_range_self j) m
  refine halone.trans ?_
  rw [store_storeWord, byteOf_packed]

/-- What a visit leaves in the cells of its pair. -/
lemma store_visitPair (lane : Fin 32) (j : Fin 4) :
    (exec (visitPair B e4m3 p) m).store (.fp8 (B.actOffset p lane + j)) =
        (e4m3 (bfloat162float (loaded B p m lane j) * (448 / blockLm (loaded B p m) 0))).toUInt32 ∧
      (exec (visitPair B e4m3 p) m).store (.scale (B.scaleOffset p)) =
        (blockLm (loaded B p m) 0 / 448).toBits := by
  rw [exec_visitPair, quantizePair, (emits_report p).exec_bind,
    (emits_storePacked p _).exec_bind]
  refine ⟨?_, Function.update_self _ _ _⟩
  have hother : QuantCell.fp8 (B.actOffset p lane + j) ≠ .scale (B.scaleOffset p) := nofun
  have hbyte : (exec (storePacked B e4m3 p (loaded B p m)) m).store _ = _ :=
    store_storePacked p m (loaded B p m) lane j
  rw [blockLm_eq _ 0 lane, ← hbyte]
  exact Function.update_of_ne hother (blockLm (loaded B p m) lane / 448).toBits _

/-- A visit reports its pair. -/
lemma emits_visitPair : Emits (visitPair B e4m3 p) [p] := by
  intro m
  rw [exec_visitPair]
  exact emits_quantizePair p _ m

end Visit

/-! ## The loops of a warp -/

section Warp

variable {B : Build} {e4m3 : Float32 → UInt8} {nblk : ℕ}

/-- The blocks of a turn of the main loop. -/
lemma strided_turn {blk0 : ℕ} (h : blk0 + B.nwarpsGrid * (mlpq - 1) < nblk) :
    strided blk0 nblk B.nwarpsGrid =
      (List.finRange mlpq).map (fun u : Fin mlpq => blk0 + B.nwarpsGrid * u) ++
        strided (blk0 + B.strideQ) nblk B.nwarpsGrid := by
  have hpos := B.nwarpsGrid_pos
  unfold mlpq at h
  rw [strided_of_lt hpos (by omega), strided_of_lt hpos (by omega), strided_of_lt hpos (by omega),
    strided_of_lt hpos (by omega)]
  have hnext : blk0 + B.nwarpsGrid + B.nwarpsGrid + B.nwarpsGrid + B.nwarpsGrid =
      blk0 + B.strideQ := by
    unfold Build.strideQ mlpq
    omega
  rw [hnext]
  simp only [mlpq, List.finRange_succ, List.finRange_zero]
  simp
  omega

/-- A block below the end is about a block of columns. -/
lemma nKblk_pos_of_lt {numTokens blk : ℕ} (h : blk < numTokens * B.nKblk) : 0 < B.nKblk := by
  rcases Nat.eq_zero_or_pos B.nKblk with hzero | hpos
  · rw [hzero, Nat.mul_zero] at h
    exact absurd h (Nat.not_lt_zero _)
  · exact hpos

/-- A pair names a block of a row. -/
lemma pairOf_snd_lt (hpos : 0 < B.nKblk) (blk : ℕ) : (B.pairOf blk).2 < B.nKblk :=
  Nat.mod_lt _ hpos

/-- Different indices are different pairs. -/
lemma pairOf_injective : Function.Injective B.pairOf := by
  intro blk blk' h
  obtain ⟨hdiv, hmod⟩ := Prod.mk.inj h
  rw [← Nat.div_add_mod blk B.nKblk, ← Nat.div_add_mod blk' B.nKblk, hdiv, hmod]

/-- The cells of different blocks are different. -/
lemma notMem_of_ne (hpos : 0 < B.nKblk) {blk blk' : ℕ} (hne : blk ≠ blk') {k : QuantCell}
    (hk : k ∈ B.cellsOf (B.pairOf blk)) : k ∉ B.cellsOf (B.pairOf blk') := fun hk' =>
  hne (pairOf_injective
    (pair_eq_of_mem (pairOf_snd_lt hpos blk) (pairOf_snd_lt hpos blk') hk hk'))

/-- A turn of the main loop does what four turns of the plain loop do. -/
lemma exec_quantTurn (hpos : 0 < B.nKblk) (blk0 : ℕ) (m : QuantCell → UInt32) :
    exec (quantTurn B e4m3 blk0) m =
      exec (Prog.each (fun u : Fin mlpq => visitPair B e4m3 (B.pairOf (blk0 + B.nwarpsGrid * u)))
        (List.finRange mlpq)) m := by
  refine exec_gather_each (fun _ m => exec_loadPair _ m) (fun u => loadPair_within _)
    (fun u => quantizePair_within _) (fun u v huv k hk => notMem_of_ne hpos ?_ hk) m
  intro heq
  have hmul : B.nwarpsGrid * (u : ℕ) = B.nwarpsGrid * v := Nat.add_left_cancel heq
  exact huv (Fin.ext (Nat.eq_of_mul_eq_mul_left B.nwarpsGrid_pos hmul))

/-- The loop over the pairs that are left is a strided loop. -/
lemma exec_remainderLoop (blk : ℕ) (m : QuantCell → UInt32) :
    exec (remainderLoop B e4m3 nblk blk) m =
      exec (plainLoop B e4m3 (strided blk nblk B.nwarpsGrid)) m := by
  unfold plainLoop
  induction blk using remainderLoop.induct B nblk generalizing m with
  | case1 blk hlt ih =>
    rw [remainderLoop, if_pos hlt, strided_of_lt B.nwarpsGrid_pos hlt, exec_bind, exec_each_cons]
    exact Outcome.andThen_congr fun _ => ih _
  | case2 blk hge =>
    rw [remainderLoop, if_neg hge, strided_of_le B.nwarpsGrid_pos (not_lt.mp hge)]
    rfl

/-- Both loops together are a strided loop. -/
lemma exec_loops {numTokens : ℕ} (hnblk : nblk = numTokens * B.nKblk) (blk0 : ℕ)
    (m : QuantCell → UInt32) :
    exec (do
      let blk0 ← mainLoop B e4m3 nblk blk0
      remainderLoop B e4m3 nblk blk0) m =
    exec (plainLoop B e4m3 (strided blk0 nblk B.nwarpsGrid)) m := by
  induction blk0 using mainLoop.induct B nblk generalizing m with
  | case1 blk0 hlt ih =>
    have hpos : 0 < B.nKblk := nKblk_pos_of_lt (hnblk ▸ hlt)
    rw [mainLoop, if_pos hlt, Prog.bind_bind, exec_bind, exec_quantTurn hpos, strided_turn hlt,
      plainLoop, exec_each_append, exec_bind, Prog.each_map]
    exact Outcome.andThen_congr fun _ => ih _
  | case2 blk0 hge =>
    rw [mainLoop, if_neg hge]
    exact exec_remainderLoop blk0 m

/-- The cells of the pairs that fall to a warp. -/
def Build.cellsOfWarp (B : Build) (nblk gwarp : ℕ) : Set QuantCell :=
  {k | ∃ blk < nblk, blk % B.nwarpsGrid = gwarp ∧ k ∈ B.cellsOf (B.pairOf blk)}

/-- Both loops stay with the pairs of the warp. -/
lemma loops_within {gwarp blk0 : ℕ} (hblk0 : blk0 % B.nwarpsGrid = gwarp) :
    (do
      let blk0 ← mainLoop B e4m3 nblk blk0
      remainderLoop B e4m3 nblk blk0 : QuantProg Unit).Within (B.cellsOfWarp nblk gwarp) := by
  have hcells : ∀ blk < nblk, blk % B.nwarpsGrid = gwarp →
      ∀ k ∈ B.cellsOf (B.pairOf blk), k ∈ B.cellsOfWarp nblk gwarp :=
    fun blk hlt hmod k hk => ⟨blk, hlt, hmod, hk⟩
  have hrest : ∀ blk, blk % B.nwarpsGrid = gwarp →
      (remainderLoop B e4m3 nblk blk).Within (B.cellsOfWarp nblk gwarp) := by
    intro blk
    induction blk using remainderLoop.induct B nblk with
    | case1 blk hlt ih =>
      intro hmod
      rw [remainderLoop, if_pos hlt]
      refine ((visitPair_within _).mono (hcells blk hlt hmod)).bind fun _ => ih ?_
      rw [Nat.add_mod_right, hmod]
    | case2 blk hge =>
      intro _
      rw [remainderLoop, if_neg hge]
      trivial
  induction blk0 using mainLoop.induct B nblk with
  | case1 blk0 hlt ih =>
    rw [mainLoop, if_pos hlt, Prog.bind_bind]
    have hturn : ∀ u : Fin mlpq, ∀ k ∈ B.cellsOf (B.pairOf (blk0 + B.nwarpsGrid * u)),
        k ∈ B.cellsOfWarp nblk gwarp := by
      intro u
      refine hcells _ (lt_of_le_of_lt ?_ hlt) ?_
      · exact Nat.add_le_add_left (Nat.mul_le_mul_left _ (Nat.le_sub_one_of_lt u.isLt)) _
      · rw [Nat.add_mul_mod_self_left, hblk0]
    have hquantTurn : (quantTurn B e4m3 blk0).Within (B.cellsOfWarp nblk gwarp) := by
      refine (Prog.within_gather fun u => ?_).bind fun braw => Prog.within_each fun u _ => ?_
      · exact (loadPair_within _).mono (hturn u)
      · exact (quantizePair_within _ _).mono (hturn u)
    refine hquantTurn.bind fun _ => ih ?_
    rw [Build.strideQ, Nat.add_mul_mod_self_left, hblk0]
  | case2 blk0 hge =>
    rw [mainLoop, if_neg hge]
    exact hrest blk0 hblk0

end Warp

/-! ## The grid -/

section Grid

variable {B : Build} {e4m3 : Float32 → UInt8} {numTokens : ℕ} {m : QuantCell → UInt32}

/-- The warps of the grid. -/
def Build.warps (B : Build) : List B.Warp :=
  List.finRange B.gridSize ×ˢ List.finRange B.warpsPerBlock

/-- The list of the warps has no repetition. -/
lemma nodup_warps : B.warps.Nodup := (List.nodup_finRange _).product (List.nodup_finRange _)

/-- And it has all of them. -/
lemma mem_warps (w : B.Warp) : w ∈ B.warps :=
  List.mem_product.mpr ⟨List.mem_finRange _, List.mem_finRange _⟩

/-- The warps are numbered within the grid. -/
lemma warpIndex_lt (w : B.Warp) : B.warpIndex w < B.nwarpsGrid := rowMajor_lt w.1.isLt w.2.isLt

/-- Different warps have different numbers. -/
lemma warpIndex_injective : Function.Injective B.warpIndex := by
  intro w w' h
  obtain ⟨hblock, hwarp⟩ := rowMajor_inj w.2.isLt w'.2.isLt h
  exact Prod.ext (Fin.ext hblock) (Fin.ext hwarp)

/-- Every number is that of a warp. -/
lemma exists_warp {i : ℕ} (hi : i < B.nwarpsGrid) : ∃ w, B.warpIndex w = i := by
  refine ⟨(⟨i / B.warpsPerBlock, ?_⟩, ⟨i % B.warpsPerBlock, Nat.mod_lt _ warpsPerBlock_pos⟩), ?_⟩
  · exact (Nat.div_lt_iff_lt_mul warpsPerBlock_pos).mpr hi
  · exact Nat.div_add_mod' i B.warpsPerBlock

/-- The blocks that fall to a warp. -/
def blocksOf (B : Build) (numTokens : ℕ) (w : B.Warp) : List ℕ :=
  strided (B.warpIndex w) (numTokens * B.nKblk) B.nwarpsGrid

/-- A warp takes the blocks with its number modulo that of the warps. -/
lemma mem_blocksOf {w : B.Warp} {blk : ℕ} : blk ∈ blocksOf B numTokens w ↔
    blk < numTokens * B.nKblk ∧ blk % B.nwarpsGrid = B.warpIndex w := by
  have hworker : blk ∈ strided (0 + B.warpIndex w) (numTokens * B.nKblk) B.nwarpsGrid ↔ _ :=
    mem_strided_worker (warpIndex_lt w)
  rw [Nat.zero_add, Nat.sub_zero] at hworker
  rw [blocksOf, hworker]
  exact and_iff_right (Nat.zero_le _)

/-- The warps share out the blocks. -/
lemma blocksOf_perm (B : Build) (numTokens : ℕ) :
    (B.warps.flatMap (blocksOf B numTokens)).Perm (List.range (numTokens * B.nKblk)) := by
  have hperm : (B.warps.flatMap (blocksOf B numTokens)).Perm
      (List.range' 0 (numTokens * B.nKblk - 0)) := by
    refine flatMap_perm_range nodup_warps (fun _ _ => nodup_strided B.nwarpsGrid_pos)
      (fun w _ blk hblk => ⟨Nat.zero_le _, (mem_blocksOf.mp hblk).1⟩) fun blk _ hlt => ?_
    obtain ⟨w, hw⟩ := exists_warp (Nat.mod_lt blk B.nwarpsGrid_pos)
    refine ⟨w, ⟨mem_warps w, mem_blocksOf.mpr ⟨hlt, hw.symm⟩⟩, fun w' hw' => ?_⟩
    exact warpIndex_injective ((mem_blocksOf.mp hw'.2).2.symm.trans hw.symm)
  rwa [Nat.sub_zero, ← List.range_eq_range'] at hperm

/-- The blocks of all tokens are the pairs of a token and a block of columns. -/
lemma pairOf_perm (B : Build) (numTokens : ℕ) :
    ((List.range (numTokens * B.nKblk)).map B.pairOf).Perm
      (List.range numTokens ×ˢ List.range B.nKblk) := by
  refine (List.perm_ext_iff_of_nodup (List.nodup_range.map pairOf_injective)
    (List.nodup_range.product List.nodup_range)).mpr fun p => ?_
  rw [List.mem_map, List.mem_product, List.mem_range, List.mem_range]
  constructor
  · rintro ⟨blk, hblk, rfl⟩
    have hlt := List.mem_range.mp hblk
    exact ⟨Nat.div_lt_of_lt_mul (Nat.mul_comm _ _ ▸ hlt), pairOf_snd_lt (nKblk_pos_of_lt hlt) blk⟩
  · rintro ⟨htok, hksb⟩
    refine ⟨p.1 * B.nKblk + p.2, List.mem_range.mpr (rowMajor_lt htok hksb), ?_⟩
    exact Prod.ext (rowMajor_div hksb) (rowMajor_mod hksb)

/-- The grid at the start of the phase: the arrays hold anything. -/
def quantStart (B : Build) (e4m3 : Float32 → UInt8) (numTokens : ℕ) (m : QuantCell → UInt32) :
    Config B.Warp QuantCell UInt32 Empty (ℕ × ℕ) Unit :=
  ⟨m, quantWarp B e4m3 numTokens, []⟩

/-- Every warp is through. -/
def QuantDone (c : Config B.Warp QuantCell UInt32 Empty (ℕ × ℕ) Unit) : Prop :=
  ∀ w, c.prog w = .ret ()

/-- The unrolled loops of a warp do what the plain loop over its blocks does. -/
lemma exec_quantWarp (w : B.Warp) (m : QuantCell → UInt32) :
    exec (quantWarp B e4m3 numTokens w) m = exec (plainLoop B e4m3 (blocksOf B numTokens w)) m :=
  exec_loops rfl _ m

/-- A plain loop visits its pairs in turn. -/
lemma emits_plainLoop (blks : List ℕ) :
    Emits (plainLoop B e4m3 blks) (blks.map B.pairOf) := by
  have hvisits : Emits (plainLoop B e4m3 blks) (blks.flatMap fun blk => [B.pairOf blk]) :=
    Emits.each (fun blk => emits_visitPair (B.pairOf blk)) blks
  rwa [← List.flatMap_pure_eq_map]

/-- The pairs that a warp visits are its own. -/
lemma quantConfined : Confined (fun w => B.cellsOfWarp (numTokens * B.nKblk) (B.warpIndex w))
    (quantStart B e4m3 numTokens m).prog := by
  refine ⟨fun w => loops_within (Nat.mod_eq_of_lt (warpIndex_lt w)), ?_⟩
  rintro w w' hne k ⟨blk, hlt, hmod, hk⟩ ⟨blk', _, hmod', hk'⟩
  refine notMem_of_ne (nKblk_pos_of_lt hlt) (fun heq => hne (warpIndex_injective ?_)) hk hk'
  rw [← hmod, ← hmod', heq]

/-- What a plain loop leaves in the cells of one of its pairs. -/
lemma store_plainLoop {l : List ℕ} (hl : l.Nodup) (hlt : ∀ blk ∈ l, blk < numTokens * B.nKblk)
    {blk : ℕ} (hblk : blk ∈ l) {k : QuantCell} (hk : k ∈ B.cellsOf (B.pairOf blk)) :
    (exec (plainLoop B e4m3 l) m).store k =
      (exec (visitPair B e4m3 (B.pairOf blk)) m).store k :=
  store_each_of_own (fun blk => emits_visitPair (B.pairOf blk))
    (fun blk => visitPair_within (B.pairOf blk)) hl
    (fun _ hi _ _ hne _ => notMem_of_ne (nKblk_pos_of_lt (hlt _ hi)) hne) hblk hk m

/-- What the grid leaves is what the plain loop leaves. -/
lemma store_of_done {c : Config B.Warp QuantCell UInt32 Empty (ℕ × ℕ) Unit}
    (h : Relation.ReflTransGen Step (quantStart B e4m3 numTokens m) c) (hdone : QuantDone c) :
    c.store = (exec (plainLoop B e4m3 (List.range (numTokens * B.nKblk))) m).store := by
  funext k
  by_cases hk : ∃ blk < numTokens * B.nKblk, k ∈ B.cellsOf (B.pairOf blk)
  · obtain ⟨blk, hlt, hk⟩ := hk
    obtain ⟨w, hw⟩ := exists_warp (Nat.mod_lt blk B.nwarpsGrid_pos)
    have hwarp := (exec_of_ret quantConfined rfl h (hdone w)).store k ⟨blk, hlt, hw.symm, hk⟩
    have halone : c.store k = (exec (quantWarp B e4m3 numTokens w) m).store k := hwarp
    rw [halone, exec_quantWarp]
    have hblk : blk ∈ blocksOf B numTokens w := mem_blocksOf.mpr ⟨hlt, hw.symm⟩
    have hnodup : (blocksOf B numTokens w).Nodup := nodup_strided B.nwarpsGrid_pos
    rw [store_plainLoop hnodup (fun _ hi => (mem_blocksOf.mp hi).1) hblk hk]
    exact (store_plainLoop List.nodup_range (fun _ => List.mem_range.mp) (List.mem_range.mpr hlt)
      hk).symm
  · have hunowned : c.store k = m k := by
      refine store_of_unowned quantConfined rfl h fun w => ?_
      rintro ⟨blk, hlt, _, hk'⟩
      exact hk ⟨blk, hlt, hk'⟩
    have hplain : (plainLoop B e4m3 (List.range (numTokens * B.nKblk))).Within
        {k' | ∃ blk < numTokens * B.nKblk, k' ∈ B.cellsOf (B.pairOf blk)} := by
      refine Prog.within_each fun blk hblk => (visitPair_within _).mono fun k' hk' => ?_
      exact ⟨blk, List.mem_range.mp hblk, hk'⟩
    rw [hunowned]
    exact (exec_store_of_notMem hplain hk m).symm

/-- What the grid reports is a permutation of what its warps report. -/
lemma trace_perm_warps (c : Config B.Warp QuantCell UInt32 Empty (ℕ × ℕ) Unit) :
    (c.trace.map Prod.snd).Perm (B.warps.flatMap c.traceOf) :=
  trace_perm c nodup_warps mem_warps

/-- The visits of the plain loops of all warps are the pairs of a token and a block of columns. -/
lemma visits_perm (B : Build) (numTokens : ℕ) :
    (B.warps.flatMap fun w => (blocksOf B numTokens w).map B.pairOf).Perm
      (List.range numTokens ×ˢ List.range B.nKblk) := by
  rw [← List.map_flatMap]
  exact ((blocksOf_perm B numTokens).map B.pairOf).trans (pairOf_perm B numTokens)

/-- Every run of the grid can be completed. -/
lemma exists_quantDone (c : Config B.Warp QuantCell UInt32 Empty (ℕ × ℕ) Unit) :
    ∃ c', Relation.ReflTransGen Step c c' ∧ QuantDone c' := by
  obtain ⟨c', hreach, hended⟩ := exists_ended c B.warps
  refine ⟨c', hreach, fun w => ?_⟩
  obtain ⟨r, hr⟩ := hended w (mem_warps w)
  rcases r with e | ⟨⟩
  · exact e.elim
  · exact hr

/-- Whatever the order in which the warps of the grid take their steps, on a workspace that holds
anything:

* a turn loads the values of its pair and writes the bytes and the scale slot of its pair, and
  nothing of it belongs to another pair;
* the unrolled loop of a warp and its remainder do what one loop over the blocks of the warp does;
* no pair is visited twice;
* the run can be completed, and then every pair of a token and a block has been visited, and the
  arrays hold what the plain loop over all blocks leaves, which is the quantization of each block
  by its greatest absolute value. -/
theorem act_quantization (e4m3 : Float32 → UInt8)
    {c : Config B.Warp QuantCell UInt32 Empty (ℕ × ℕ) Unit}
    (h : Relation.ReflTransGen Step (quantStart B e4m3 numTokens m) c) :
    ((∀ p braw, (loadPair B p).Touches (B.inputsOf p) ∅ ∧
        (quantizePair B e4m3 p braw).Touches ∅ (B.outputsOf p)) ∧
      ∀ p p', p.2 < B.nKblk → p'.2 < B.nKblk → p ≠ p' →
        Disjoint (B.cellsOf p) (B.cellsOf p')) ∧
    (∀ w m, exec (quantWarp B e4m3 numTokens w) m =
      exec (plainLoop B e4m3 (strided (B.warpIndex w) (numTokens * B.nKblk) B.nwarpsGrid)) m) ∧
    (c.trace.map Prod.snd).Nodup ∧
    (∃ c', Relation.ReflTransGen Step c c' ∧ QuantDone c') ∧
    (QuantDone c →
      (c.trace.map Prod.snd).Perm (List.range numTokens ×ˢ List.range B.nKblk) ∧
      c.store = (exec (plainLoop B e4m3 (List.range (numTokens * B.nKblk))) m).store ∧
      ∀ p, p.1 < numTokens → p.2 < B.nKblk →
        (∀ (lane : Fin 32) (j : Fin 4), c.store (.fp8 (B.actOffset p lane + j)) =
          (e4m3 (bfloat162float (m (.act (B.actOffset p lane + j))) *
            (448 / blockLm (loaded B p m) 0))).toUInt32) ∧
        c.store (.scale (B.scaleOffset p)) = (blockLm (loaded B p m) 0 / 448).toBits) := by
  have hvisits : ∀ w, (exec (quantWarp B e4m3 numTokens w) m).events =
      (blocksOf B numTokens w).map B.pairOf := fun w => by
    rw [exec_quantWarp]
    exact (emits_plainLoop _ m).2
  have hturn : ∀ p braw, (loadPair B p).Touches (B.inputsOf p) ∅ ∧
      (quantizePair B e4m3 p braw).Touches ∅ (B.outputsOf p) := fun p braw =>
    ⟨loadPair_touches p, quantizePair_touches p braw⟩
  refine ⟨⟨hturn, ?_⟩, fun w m => exec_quantWarp w m, ?_, exists_quantDone c, fun hdone =>
    ⟨?_, store_of_done h hdone, ?_⟩⟩
  · intro p p' hp hp' hne
    exact Set.disjoint_left.mpr fun k hk hk' => hne (pair_eq_of_mem hp hp' hk hk')
  · have hsub : (B.warps.flatMap c.traceOf).Sublist
        (B.warps.flatMap fun w => (blocksOf B numTokens w).map B.pairOf) := by
      refine List.Sublist.flatMap_right _ fun w _ => ?_
      rw [← hvisits]
      exact (trace_prefix_exec quantConfined rfl h w).sublist
    have hpairs : (List.range numTokens ×ˢ List.range B.nKblk).Nodup :=
      List.nodup_range.product List.nodup_range
    exact (trace_perm_warps c).nodup_iff.mpr
      (((visits_perm B numTokens).nodup_iff.mpr hpairs).sublist hsub)
  · have htraces : ∀ w, c.traceOf w = (blocksOf B numTokens w).map B.pairOf := fun w =>
      (exec_of_ret quantConfined rfl h (hdone w)).events.trans (hvisits w)
    refine (trace_perm_warps c).trans ?_
    rw [funext htraces]
    exact visits_perm B numTokens
  · rintro p htok hksb
    have hlt : p.1 * B.nKblk + p.2 < numTokens * B.nKblk := rowMajor_lt htok hksb
    have hp : B.pairOf (p.1 * B.nKblk + p.2) = p := Prod.ext (rowMajor_div hksb) (rowMajor_mod hksb)
    have hcell : ∀ k ∈ B.cellsOf p, c.store k = (exec (visitPair B e4m3 p) m).store k := by
      intro k hk
      rw [store_of_done h hdone, ← hp]
      exact store_plainLoop List.nodup_range (fun _ => List.mem_range.mp)
        (List.mem_range.mpr hlt) (hp.symm ▸ hk)
    refine ⟨fun lane j => ?_, ?_⟩
    · rw [hcell _ (Or.inr (Or.inl ⟨_, inPair_actOffset p lane j, rfl⟩))]
      exact (store_visitPair p m lane j).1
    · rw [hcell _ (Or.inr (Or.inr rfl))]
      exact (store_visitPair p m 0 0).2

/-- An input of ones, on a workspace with the data of an earlier launch: `300` tokens, so that the
main loop runs in every warp. -/
theorem act_quantization_ones : ∃ c,
    Relation.ReflTransGen Step (quantStart qwenTP (fun _ => 0x7E) 300
      fun | .act _ => 0x3F80 | _ => 0xFF) c ∧
    (c.trace.map Prod.snd).Perm (List.range 300 ×ˢ List.range 16) ∧ c.store (.fp8 0) = 0x7E := by
  obtain ⟨c, h, hdone⟩ := exists_quantDone
    (quantStart qwenTP (fun _ => 0x7E) 300 fun | .act _ => 0x3F80 | _ => 0xFF)
  obtain ⟨-, -, -, -, hfinal⟩ := act_quantization (fun _ => 0x7E) h
  obtain ⟨hperm, -, hvalues⟩ := hfinal hdone
  exact ⟨c, h, hperm, (hvalues (0, 0) (by decide) (by decide)).1 0 0⟩

end Grid

end UnimonoMoe
