import Mathlib.Algebra.Order.Field.Basic
import Mathlib.Algebra.Order.Ring.Rat
import Mathlib.Algebra.Order.Round
import Mathlib.Data.Fin.VecNotation
import Mathlib.Data.List.FinRange
import Mathlib.Data.Rat.Floor
import Mathlib.Tactic.Linarith
import Mathlib.Tactic.NormNum
import UnimonoMoe.Lib.Loops
import UnimonoMoe.Lib.RowBuffers

/-!
# The ragged grid of the Triton experts

`TritonExperts.apply` runs two grouped GEMMs over the slots of a batch, with an activation and a
quantization between them, and sums the slots of each token.  With the full grid the rows of
slots that another rank owns become zeros.  With the ragged grid nothing writes them, and they keep
what an earlier layer has left in the workspace; the final sum skips them.

`apply` is the code with its flat workspaces, on either grid, with the kernels outside the
repository as parameters.  `ragged_irrelevant_iff` says for which quantization schemes and ownership
patterns the two grids always agree.
-/

namespace UnimonoMoe

open RowBuffers

/-! ## The call -/

/-- The routing of a batch: the expert of every slot, and where the experts live. -/
structure SlotRouting where
  numTokens : ℕ
  topK : ℕ
  /-- `topk_ids`, flattened -/
  topkIds : ℕ → ℤ
  /-- `expert_map`, from global to local ids, negative for the experts of other ranks -/
  expertMap : ℕ → ℤ

/-- A token has `topK` slots. -/
def SlotRouting.numSlots (r : SlotRouting) : ℕ := r.numTokens * r.topK

/-- The ownership test of the pad-aware kernels. -/
def SlotRouting.owned (r : SlotRouting) (i : ℕ) : Bool :=
  0 ≤ r.topkIds i && 0 ≤ r.expertMap (r.topkIds i).toNat

/-- The slots in the blocks of the grid.  With `ignore_invalid_experts` the slots of other ranks are
dropped. -/
structure ExpertAssignment (r : SlotRouting) where
  slots : Bool → List ℕ
  mem_slots : ∀ ignoreInvalidExperts i,
    i ∈ slots ignoreInvalidExperts ↔ i < r.numSlots ∧ (ignoreInvalidExperts → r.owned i)

/-- The activation quantization of the supported schemes. -/
inductive QuantScheme
  | unquantized
  | blockFp8
  | perTensorStatic
  | perTensorDynamic
  | perTokenDynamic
deriving DecidableEq, Repr

/-- A quantized row with the scales of its groups. -/
structure QuantRow (K : Type) (C : ℕ) where
  values : Fin C → K
  scales : ℕ → K

/-- The cast to the quantized type: it keeps the largest value and loses small ones.  `rowQuant` is
the quantization of a row by itself, for the block-wise and the token-wise scheme. -/
structure QuantKernels (K : Type) [Field K] [LinearOrder K] where
  cast : K → K
  qmax : K
  qmax_pos : 0 < qmax
  cast_qmax : cast qmax = qmax
  /-- values below this one become zero -/
  tiny : K
  tiny_pos : 0 < tiny
  cast_tiny : ∀ x, 0 ≤ x → x < tiny → cast x = 0
  rowQuant : QuantScheme → (C : ℕ) → (Fin C → K) → QuantRow K C

/-- The corrections of a LoRA context.  They are aligned with the expert map, so that the second one
is zero for the slots of other ranks. -/
structure LoraContext (K : Type) [Zero K] (r : SlotRouting) (N C H : ℕ) where
  w13Delta : ℕ → Fin N → K
  w2Delta : ℕ → (Fin C → K) → Fin H → K
  w2Delta_of_not_owned : ∀ i row, r.owned i = false → w2Delta i row = 0

/-- A layer with its weights and a batch.  The rows of the first GEMM have width `N`, those behind
the activation `C`, those of the second GEMM `H`. -/
structure TritonCall (K : Type) [Zero K] (r : SlotRouting) (N C H : ℕ) where
  /-- the row that the first GEMM computes for a slot, from its token and its expert -/
  w13 : ℕ → Fin N → K
  activation : (Fin N → K) → Fin C → K
  /-- the row that the second GEMM computes for a slot from a quantized row, with the weights of its
  expert and its routing weight -/
  w2 : ℕ → QuantRow K C → Fin H → K
  /-- the addition of `moe_sum` and of the LoRA corrections -/
  add : K → K → K
  add_zero : ∀ x, add x 0 = x
  /-- `a2_scale` -/
  a2Scale : K
  lora : Option (LoraContext K r N C H)
  /-- the activation is `SILU` -/
  isSilu : Bool
  deepGemmE8m0Used : Bool
  /-- `silu_and_mul_per_block_quant`, on a row -/
  siluAndMulPerBlockQuant : (Fin N → K) → QuantRow K C
  /-- `_ep_fast_silu_mode` -/
  epFastSiluMode : ℕ
  /-- `_supported`, which the Triton kernel asks about the shapes and types of a call -/
  fastSiluSupported : Bool

/-- What the workspaces and newly allocated tensors hold before the call. -/
structure StaleMemory (K : Type) (C : ℕ) where
  workspace13 : ℕ → K
  workspace2 : ℕ → K
  empty : ℕ → QuantRow K C

/-! ## The steps of `apply` -/

section Apply

variable {K : Type} [Field K] [LinearOrder K] {r : SlotRouting} {N C H : ℕ}

/-- The largest absolute value of a row. -/
def absMax (row : Fin C → K) : K :=
  (List.finRange C).foldl (fun acc c => max acc |row c|) 0

/-- The scale of the per-tensor dynamic scheme: one for all rows. -/
def QuantKernels.tensorScale (q : QuantKernels K) (numRows : ℕ) (rows : ℕ → Fin C → K) : K :=
  (List.range numRows).foldl (fun acc i => max acc (absMax (rows i))) 0 / q.qmax

/-- Quantization of a row with a given scale. -/
def QuantKernels.scaled (q : QuantKernels K) (scale : K) (row : Fin C → K) : QuantRow K C where
  values c := q.cast (row c / scale)
  scales _ := scale

/-- `moe_kernel_quantize_input`. -/
def QuantKernels.quantizeInput (q : QuantKernels K) (scheme : QuantScheme) (a2Scale : K)
    (numRows : ℕ) (rows : ℕ → Fin C → K) : ℕ → QuantRow K C :=
  match scheme with
  | .unquantized => fun i => ⟨rows i, fun _ => 1⟩
  | .blockFp8 => fun i => q.rowQuant .blockFp8 C (rows i)
  | .perTokenDynamic => fun i => q.rowQuant .perTokenDynamic C (rows i)
  | .perTensorStatic => fun i => q.scaled a2Scale (rows i)
  | .perTensorDynamic => fun i => q.scaled (q.tensorScale numRows rows) (rows i)

namespace TritonCall

variable (call : TritonCall K r N C H)

/-- The grouped GEMM on a grid: the blocks of other ranks are filled with zeros. -/
def groupedGemm {w : ℕ} (slots : List ℕ) (row : ℕ → Fin w → K) (buf : ℕ → K) : ℕ → K :=
  fillRows buf slots fun i => if r.owned i then row i else 0

/-- A correction, added to all rows. -/
def addRows {w : ℕ} (delta : ℕ → Fin w → K) (buf : ℕ → K) : ℕ → K :=
  fillRows buf (List.range r.numSlots) fun i c =>
    call.add (readRow w buf i c) (delta i c)

/-- `intermediate_cache1`, in the second workspace. -/
def intermediateCache1 (slots : List ℕ) (workspace2 : ℕ → K) : ℕ → K :=
  let buf := groupedGemm (r := r) slots call.w13 workspace2
  match call.lora with
  | none => buf
  | some lora => call.addRows lora.w13Delta buf

/-- `intermediate_cache2`, in the first workspace. -/
def intermediateCache2 (cache1 workspace13 : ℕ → K) : ℕ → K :=
  fillRows workspace13 (List.range r.numSlots) fun i => call.activation (readRow N cache1 i)

/-- The activation and the quantization are one kernel. -/
def fusesSilu (scheme : QuantScheme) : Bool :=
  call.isSilu && decide (scheme = .blockFp8) && call.lora.isNone && !call.deepGemmE8m0Used

/-- The fused kernel leaves the rows of other ranks unwritten. -/
def skipsRow (i : ℕ) : Bool :=
  decide (2 ≤ call.epFastSiluMode) && call.fastSiluSupported && !r.owned i

/-- `qintermediate_cache2` with `a2q_scale`. -/
def qintermediateCache2 (q : QuantKernels K) (scheme : QuantScheme) (empty : ℕ → QuantRow K C)
    (cache1 cache2 : ℕ → K) : ℕ → QuantRow K C :=
  if call.fusesSilu scheme then fun i =>
    if call.skipsRow i then empty i else call.siluAndMulPerBlockQuant (readRow N cache1 i)
  else q.quantizeInput scheme call.a2Scale r.numSlots (readRow C cache2)

/-- `intermediate_cache3`, in the second workspace again. -/
def intermediateCache3 (slots : List ℕ) (quantized : ℕ → QuantRow K C) (cache2 : ℕ → K)
    (workspace2 : ℕ → K) : ℕ → K :=
  let buf := groupedGemm (r := r) slots (fun i => call.w2 i (quantized i)) workspace2
  match call.lora with
  | none => buf
  | some lora => call.addRows (fun i => lora.w2Delta i (readRow C cache2 i)) buf

/-- `moe_sum`, whose pad-aware overload skips the slots of other ranks. -/
def moeSum (padAware : Bool) (cache3 : ℕ → K) (t : ℕ) : Fin H → K :=
  (List.range r.topK).foldl (fun acc k =>
    if padAware && !r.owned (t * r.topK + k) then acc
    else fun j => call.add (acc j) (readRow H cache3 (t * r.topK + k) j)) 0

/-- `TritonExperts.apply`: the output rows of the tokens. -/
def apply (q : QuantKernels K) (scheme : QuantScheme) (assignment : ExpertAssignment r)
    (stale : StaleMemory K C) (epRagged : Bool) : Fin r.numTokens → Fin H → K :=
  let slots := assignment.slots epRagged
  let cache1 := call.intermediateCache1 slots stale.workspace2
  let cache2 := call.intermediateCache2 cache1 stale.workspace13
  let quantized := call.qintermediateCache2 q scheme stale.empty cache1 cache2
  let cache3 := call.intermediateCache3 slots quantized cache2 cache1
  fun t => call.moeSum epRagged cache3 t

end TritonCall

end Apply

/-! ## The rows of owned slots -/

section Rows

variable {K : Type} [Field K] {r : SlotRouting} {N C H : ℕ}
  (call : TritonCall K r N C H)

namespace TritonCall

/-- What the grouped GEMM leaves in a row. -/
lemma readRow_groupedGemm {w : ℕ} (slots : List ℕ) (row : ℕ → Fin w → K) (buf : ℕ → K) (i : ℕ) :
    readRow w (groupedGemm (r := r) slots row buf) i =
      if i ∈ slots then if r.owned i then row i else 0 else readRow w buf i :=
  readRow_fillRows buf slots _ i

/-- A row with its correction. -/
lemma readRow_addRows {w : ℕ} (delta : ℕ → Fin w → K) (buf : ℕ → K) {i : ℕ}
    (hi : i < r.numSlots) : readRow w (call.addRows delta buf) i =
      fun c => call.add (readRow w buf i c) (delta i c) := by
  unfold addRows
  rw [readRow_fillRows, if_pos (List.mem_range.mpr hi)]

/-- The first intermediate row of an owned slot. -/
def upRow (i : ℕ) : Fin N → K :=
  match call.lora with
  | none => call.w13 i
  | some lora => fun c => call.add (call.w13 i c) (lora.w13Delta i c)

/-- On either grid the first GEMM writes the rows of owned slots. -/
lemma readRow_intermediateCache1 (assignment : ExpertAssignment r) (epRagged : Bool)
    (workspace2 : ℕ → K) {i : ℕ} (hi : i < r.numSlots) (howned : r.owned i = true) :
    readRow N (call.intermediateCache1 (assignment.slots epRagged) workspace2) i =
      call.upRow i := by
  have hmem : i ∈ assignment.slots epRagged :=
    (assignment.mem_slots epRagged i).mpr ⟨hi, fun _ => howned⟩
  have hgemm : readRow N (groupedGemm (r := r) (assignment.slots epRagged) call.w13 workspace2) i =
      call.w13 i := by
    rw [readRow_groupedGemm, if_pos hmem, if_pos howned]
  unfold intermediateCache1 upRow
  cases call.lora with
  | none => exact hgemm
  | some lora => simp only [readRow_addRows call _ _ hi, hgemm]

/-- The activation runs over all rows. -/
lemma readRow_intermediateCache2 (cache1 workspace13 : ℕ → K) {i : ℕ} (hi : i < r.numSlots) :
    readRow C (call.intermediateCache2 cache1 workspace13) i =
      call.activation (readRow N cache1 i) := by
  unfold intermediateCache2
  rw [readRow_fillRows, if_pos (List.mem_range.mpr hi)]

/-- The second intermediate row of an owned slot. -/
def downRow (i : ℕ) (quantized : QuantRow K C) (activated : Fin C → K) : Fin H → K :=
  match call.lora with
  | none => call.w2 i quantized
  | some lora => fun j => call.add (call.w2 i quantized j) (lora.w2Delta i activated j)

/-- On either grid the second GEMM writes the rows of owned slots. -/
lemma readRow_intermediateCache3 (assignment : ExpertAssignment r) (epRagged : Bool)
    (quantized : ℕ → QuantRow K C) (cache2 workspace2 : ℕ → K) {i : ℕ} (hi : i < r.numSlots)
    (howned : r.owned i = true) :
    readRow H (call.intermediateCache3 (assignment.slots epRagged) quantized cache2 workspace2) i =
      call.downRow i (quantized i) (readRow C cache2 i) := by
  have hmem : i ∈ assignment.slots epRagged :=
    (assignment.mem_slots epRagged i).mpr ⟨hi, fun _ => howned⟩
  have hgemm : readRow H (groupedGemm (r := r) (assignment.slots epRagged)
      (fun i => call.w2 i (quantized i)) workspace2) i = call.w2 i (quantized i) := by
    rw [readRow_groupedGemm, if_pos hmem, if_pos howned]
  unfold intermediateCache3 downRow
  cases call.lora with
  | none => exact hgemm
  | some lora => simp only [readRow_addRows call _ _ hi, hgemm]

/-- On the full grid the other rows are zero. -/
lemma readRow_intermediateCache3_of_not_owned (assignment : ExpertAssignment r)
    (quantized : ℕ → QuantRow K C) (cache2 workspace2 : ℕ → K) {i : ℕ} (hi : i < r.numSlots)
    (howned : r.owned i = false) :
    readRow H (call.intermediateCache3 (assignment.slots false) quantized cache2 workspace2) i =
      0 := by
  have hmem : i ∈ assignment.slots false :=
    (assignment.mem_slots false i).mpr ⟨hi, fun h => nomatch h⟩
  have hgemm : readRow H (groupedGemm (r := r) (assignment.slots false)
      (fun i => call.w2 i (quantized i)) workspace2) i = 0 := by
    rw [readRow_groupedGemm, if_pos hmem, howned]
    rfl
  unfold intermediateCache3
  cases call.lora with
  | none => exact hgemm
  | some lora =>
    simp only [readRow_addRows call _ _ hi, hgemm, lora.w2Delta_of_not_owned i _ howned]
    funext j
    exact call.add_zero 0

/-- The slots of a token. -/
lemma slot_lt (t : Fin r.numTokens) {k : ℕ} (hk : k < r.topK) : t * r.topK + k < r.numSlots := by
  have hnext : (t.val + 1) * r.topK ≤ r.numTokens * r.topK :=
    Nat.mul_le_mul_right _ t.isLt
  unfold SlotRouting.numSlots
  rw [Nat.succ_mul] at hnext
  omega

/-- Summing zero rows or skipping them is the same. -/
lemma moeSum_congr {padAware padAware' : Bool} {cache3 cache3' : ℕ → K} (t : Fin r.numTokens)
    (hzero : padAware = false → ∀ i < r.numSlots, r.owned i = false → readRow H cache3 i = 0)
    (hzero' : padAware' = false → ∀ i < r.numSlots, r.owned i = false → readRow H cache3' i = 0)
    (hrows : ∀ i < r.numSlots, r.owned i = true → readRow H cache3 i = readRow H cache3' i) :
    call.moeSum padAware cache3 t = call.moeSum padAware' cache3' t := by
  have hskip : ∀ (padAware : Bool) (cache3 : ℕ → K),
      (padAware = false → ∀ i < r.numSlots, r.owned i = false → readRow H cache3 i = 0) →
      ∀ i < r.numSlots, r.owned i = false → ∀ acc : Fin H → K,
        (if padAware && !r.owned i then acc
          else fun j => call.add (acc j) (readRow H cache3 i j)) = acc := by
    intro padAware cache3 hzero i hi howned acc
    cases padAware with
    | true => simp [howned]
    | false =>
      simp only [Bool.false_and, Bool.false_eq_true, if_false, hzero rfl i hi howned]
      funext j
      exact call.add_zero (acc j)
  unfold moeSum
  refine List.foldl_ext _ _ 0 fun acc k hk => ?_
  have hi := slot_lt t (List.mem_range.mp hk)
  cases howned : r.owned (t * r.topK + k) with
  | true => simp [hrows _ hi howned]
  | false =>
    have hleft := hskip padAware cache3 hzero _ hi howned acc
    have hright := hskip padAware' cache3' hzero' _ hi howned acc
    rw [howned] at hleft hright
    exact hleft.trans hright.symm

end TritonCall

end Rows

/-! ## Two runs -/

section Runs

variable {K : Type} [Field K] [LinearOrder K] {r : SlotRouting} {N C H : ℕ}

/-- The layer output does not depend on the grid, whatever the layer, the batch and the stale
contents of the memory. -/
def RaggedIrrelevant (q : QuantKernels K) (r : SlotRouting) (scheme : QuantScheme) : Prop :=
  ∀ (N C H : ℕ) (call : TritonCall K r N C H) (assignment : ExpertAssignment r)
    (stale : StaleMemory K C),
    call.apply q scheme assignment stale true = call.apply q scheme assignment stale false

namespace TritonCall

variable (call : TritonCall K r N C H) (q : QuantKernels K) (scheme : QuantScheme)
  (assignment : ExpertAssignment r) (stale : StaleMemory K C)

/-- The activated rows of a run. -/
def activated (epRagged : Bool) (i : ℕ) : Fin C → K :=
  readRow C (call.intermediateCache2
    (call.intermediateCache1 (assignment.slots epRagged) stale.workspace2) stale.workspace13) i

/-- The quantized rows of a run. -/
def quantized (epRagged : Bool) : ℕ → QuantRow K C :=
  let cache1 := call.intermediateCache1 (assignment.slots epRagged) stale.workspace2
  call.qintermediateCache2 q scheme stale.empty cache1
    (call.intermediateCache2 cache1 stale.workspace13)

omit [LinearOrder K] in
/-- The activated row of an owned slot. -/
lemma activated_of_owned (epRagged : Bool) {i : ℕ} (hi : i < r.numSlots)
    (howned : r.owned i = true) :
    call.activated assignment stale epRagged i = call.activation (call.upRow i) := by
  unfold activated
  rw [call.readRow_intermediateCache2 _ _ hi,
    call.readRow_intermediateCache1 assignment epRagged _ hi howned]

/-- What becomes of the slots of other ranks does not matter as long as the quantized rows of the
owned slots agree. -/
lemma apply_eq_of_quantized (hquant : ∀ i < r.numSlots, r.owned i = true →
      call.quantized q scheme assignment stale true i =
        call.quantized q scheme assignment stale false i) :
    call.apply q scheme assignment stale true = call.apply q scheme assignment stale false := by
  funext t
  refine call.moeSum_congr t (fun h => nomatch h) (fun _ i hi howned => ?_) fun i hi howned => ?_
  · exact call.readRow_intermediateCache3_of_not_owned assignment _ _ _ hi howned
  · rw [call.readRow_intermediateCache3 assignment true _ _ _ hi howned,
      call.readRow_intermediateCache3 assignment false _ _ _ hi howned]
    have hactivated := (call.activated_of_owned assignment stale true hi howned).trans
      (call.activated_of_owned assignment stale false hi howned).symm
    exact congrArg₂ (call.downRow i) (hquant i hi howned) hactivated

/-- A scheme that quantizes every row by itself does not see the rows of other ranks. -/
lemma quantized_of_rowwise (hscheme : scheme ≠ .perTensorDynamic) {i : ℕ} (hi : i < r.numSlots)
    (howned : r.owned i = true) :
    call.quantized q scheme assignment stale true i =
      call.quantized q scheme assignment stale false i := by
  have hrow : ∀ epRagged, readRow N (call.intermediateCache1 (assignment.slots epRagged)
      stale.workspace2) i = call.upRow i := fun epRagged =>
    call.readRow_intermediateCache1 assignment epRagged _ hi howned
  have hactivated : call.activated assignment stale true i =
      call.activated assignment stale false i :=
    (call.activated_of_owned assignment stale true hi howned).trans
      (call.activated_of_owned assignment stale false hi howned).symm
  unfold quantized qintermediateCache2
  by_cases hfused : call.fusesSilu scheme = true
  · simp only [hfused, if_true, hrow]
  · simp only [hfused, Bool.false_eq_true, if_false]
    unfold activated at hactivated
    cases scheme with
    | perTensorDynamic => exact absurd rfl hscheme
    | unquantized => exact congrArg (fun row => QuantRow.mk row fun _ => 1) hactivated
    | blockFp8 => exact congrArg (q.rowQuant .blockFp8 C) hactivated
    | perTokenDynamic => exact congrArg (q.rowQuant .perTokenDynamic C) hactivated
    | perTensorStatic => exact congrArg (q.scaled call.a2Scale) hactivated

/-- The quantized rows of a run with the per-tensor dynamic scheme. -/
lemma quantized_perTensorDynamic (epRagged : Bool) (i : ℕ) :
    call.quantized q .perTensorDynamic assignment stale epRagged i =
      q.scaled (q.tensorScale r.numSlots (call.activated assignment stale epRagged))
        (call.activated assignment stale epRagged i) := by
  unfold quantized qintermediateCache2
  have hfused : call.fusesSilu .perTensorDynamic = false := by simp [fusesSilu]
  simp only [hfused, Bool.false_eq_true, if_false]
  rfl

/-- The scale of a tensor looks at its rows. -/
lemma tensorScale_congr {numRows : ℕ} {rows rows' : ℕ → Fin C → K}
    (h : ∀ i < numRows, rows i = rows' i) :
    q.tensorScale numRows rows = q.tensorScale numRows rows' := by
  unfold QuantKernels.tensorScale
  congr 1
  exact List.foldl_ext _ _ 0 fun acc i hi => by rw [h i (List.mem_range.mp hi)]

omit [LinearOrder K] in
/-- Without a LoRA context the rows of other ranks are zero on the full grid, and hold what was
in the workspace on the ragged one. -/
lemma readRow_intermediateCache1_of_not_owned (hlora : call.lora = none) (epRagged : Bool)
    (workspace2 : ℕ → K) {i : ℕ} (hi : i < r.numSlots) (howned : r.owned i = false) :
    readRow N (call.intermediateCache1 (assignment.slots epRagged) workspace2) i =
      if epRagged then readRow N workspace2 i else 0 := by
  have hmem := assignment.mem_slots epRagged i
  unfold intermediateCache1
  simp only [hlora, readRow_groupedGemm, hmem, hi, howned, true_and]
  cases epRagged with
  | true => simp
  | false => simp

end TritonCall

end Runs

/-! ## Rows of other ranks that leak -/

section Leak

variable {K : Type} [Field K] [LinearOrder K] [IsStrictOrderedRing K] {r : SlotRouting} {C : ℕ}

/-- A largest absolute value gives the scale. -/
lemma tensorScale_eq (q : QuantKernels K) {numRows : ℕ} {rows : ℕ → Fin C → K} {b : K}
    (hle : ∀ i < numRows, ∀ c, |rows i c| ≤ b) {i₀ : ℕ} (hi₀ : i₀ < numRows) (c₀ : Fin C)
    (heq : |rows i₀ c₀| = b) : q.tensorScale numRows rows = b / q.qmax := by
  have hb : 0 ≤ b := heq ▸ abs_nonneg _
  unfold QuantKernels.tensorScale
  congr 1
  refine le_antisymm ?_ ?_
  · refine (Loops.foldl_max_le_iff _ _ _ _).mpr ⟨hb, fun i hi => ?_⟩
    exact (Loops.foldl_max_le_iff _ _ _ _).mpr ⟨hb, fun c _ => hle i (List.mem_range.mp hi) c⟩
  · have hrow : b ≤ absMax (rows i₀) :=
      heq ▸ (Loops.le_foldl_max (fun c => |rows i₀ c|) _ _).2 c₀ (List.mem_finRange c₀)
    exact hrow.trans ((Loops.le_foldl_max (fun i => absMax (rows i)) _ _).2 i₀
      (List.mem_range.mpr hi₀))

/-- The slots in their order, or the owned ones among them. -/
def ExpertAssignment.ofRange (r : SlotRouting) : ExpertAssignment r where
  slots ignoreInvalidExperts :=
    (List.range r.numSlots).filter fun i => !ignoreInvalidExperts || r.owned i
  mem_slots ignoreInvalidExperts i := by
    cases ignoreInvalidExperts <;> simp

/-- A layer of width 1 whose owned slots all compute 1 in the first GEMM.  Slot `i₀` has routing
weight 1, the others have 0. -/
def leakCall (K : Type) [Field K] (r : SlotRouting) (i₀ : ℕ) : TritonCall K r 1 1 1 where
  w13 _ _ := 1
  activation row := row
  w2 i quantized _ := if i = i₀ then quantized.values 0 * quantized.scales 0 else 0
  add := (· + ·)
  add_zero := add_zero
  a2Scale := 1
  lora := none
  isSilu := false
  deepGemmE8m0Used := false
  siluAndMulPerBlockQuant row := ⟨row, fun _ => 1⟩
  epFastSiluMode := 0
  fastSiluSupported := false

/-- A workspace full of one value. -/
def leakStale (b : K) : StaleMemory K 1 where
  workspace13 _ := 0
  workspace2 _ := b
  empty _ := ⟨fun _ => 0, fun _ => 0⟩

omit [LinearOrder K] [IsStrictOrderedRing K] in
/-- The activated rows of the layer. -/
lemma activated_leakCall (i₀ : ℕ) (b : K) (epRagged : Bool) {i : ℕ} (hi : i < r.numSlots)
    (c : Fin 1) : (leakCall K r i₀).activated (.ofRange r) (leakStale b) epRagged i c =
      if r.owned i then 1 else if epRagged then b else 0 := by
  cases howned : r.owned i with
  | true =>
    rw [(leakCall K r i₀).activated_of_owned _ _ epRagged hi howned]
    rfl
  | false =>
    unfold TritonCall.activated
    rw [TritonCall.readRow_intermediateCache2 _ _ _ hi]
    have hrow := TritonCall.readRow_intermediateCache1_of_not_owned (leakCall K r i₀) (.ofRange r)
      rfl epRagged (leakStale b).workspace2 hi howned
    have hactivation : ∀ row, (leakCall K r i₀).activation row = row := fun _ => rfl
    rw [hactivation, hrow]
    cases epRagged <;> rfl

/-- Its scale: the largest value is 1 or that of the workspace. -/
lemma tensorScale_leakCall (q : QuantKernels K) {b : K} (hb : 1 ≤ b) (epRagged : Bool)
    {i₀ u₀ : ℕ} (hi₀ : i₀ < r.numSlots) (howned : r.owned i₀ = true) (hu₀ : u₀ < r.numSlots)
    (hother : r.owned u₀ = false) :
    q.tensorScale r.numSlots ((leakCall K r i₀).activated (.ofRange r) (leakStale b) epRagged) =
      (if epRagged then b else 1) / q.qmax := by
  have hnonneg : (0 : K) ≤ b := zero_le_one.trans hb
  cases epRagged with
  | true =>
    refine tensorScale_eq q (fun i hi c => ?_) hu₀ 0 ?_
    · rw [activated_leakCall i₀ b true hi c]
      cases r.owned i <;> simp [abs_of_nonneg hnonneg, hb]
    · rw [activated_leakCall i₀ b true hu₀ 0, hother]
      simp [abs_of_nonneg hnonneg]
  | false =>
    refine tensorScale_eq q (fun i hi c => ?_) hi₀ 0 ?_
    · rw [activated_leakCall i₀ b false hi c]
      cases r.owned i <;> simp
    · rw [activated_leakCall i₀ b false hi₀ 0, howned]
      simp

/-- A sum with one term. -/
lemma foldl_add_single {M : Type} [AddMonoid M] {l : List ℕ} (hl : l.Nodup) {k₀ : ℕ} (v a : M) :
    l.foldl (fun acc k => acc + if k = k₀ then v else 0) a = a + if k₀ ∈ l then v else 0 := by
  induction l generalizing a with
  | nil => simp
  | cons k l ih =>
    obtain ⟨hk, hl⟩ := List.nodup_cons.mp hl
    rw [List.foldl_cons, ih hl]
    by_cases heq : k = k₀
    · subst heq
      simp [hk]
    · simp [heq, Ne.symm heq]

/-- What is left of a 1 after quantization with the scale of a run. -/
def leakValue (q : QuantKernels K) (b : K) (epRagged : Bool) : K :=
  q.cast (1 / ((if epRagged then b else 1) / q.qmax)) * ((if epRagged then b else 1) / q.qmax)

/-- Slot `i₀` hands on what is left of its 1, the other slots nothing. -/
lemma w2_leakCall (q : QuantKernels K) {b : K} (hb : 1 ≤ b) (epRagged : Bool) {i₀ u₀ : ℕ}
    (hi₀ : i₀ < r.numSlots) (howned : r.owned i₀ = true) (hu₀ : u₀ < r.numSlots)
    (hother : r.owned u₀ = false) (i : ℕ) :
    (leakCall K r i₀).w2 i ((leakCall K r i₀).quantized q .perTensorDynamic (.ofRange r)
        (leakStale b) epRagged i) =
      if i = i₀ then fun _ => leakValue q b epRagged else (0 : Fin 1 → K) := by
  have hw2 : ∀ quantized, (leakCall K r i₀).w2 i quantized =
      fun _ => if i = i₀ then quantized.values 0 * quantized.scales 0 else 0 := fun _ => rfl
  rw [hw2, TritonCall.quantized_perTensorDynamic]
  by_cases hi : i = i₀
  · subst hi
    simp only [QuantKernels.scaled, tensorScale_leakCall q hb epRagged hi₀ howned hu₀ hother,
      activated_leakCall i b epRagged hi₀ 0, howned, if_true]
    rfl
  · simp only [if_neg hi]
    rfl

/-- The output row of the token of slot `i₀`. -/
lemma apply_leakCall (q : QuantKernels K) {b : K} (hb : 1 ≤ b) (epRagged : Bool) {i₀ u₀ : ℕ}
    (hi₀ : i₀ < r.numSlots) (howned : r.owned i₀ = true) (hu₀ : u₀ < r.numSlots)
    (hother : r.owned u₀ = false) (t : Fin r.numTokens) (ht : t = i₀ / r.topK) :
    (leakCall K r i₀).apply q .perTensorDynamic (.ofRange r) (leakStale b) epRagged t =
      fun _ => leakValue q b epRagged := by
  set v : Fin 1 → K := fun _ => leakValue q b epRagged with hv
  have hw2 := w2_leakCall q hb epRagged hi₀ howned hu₀ hother
  rw [← hv] at hw2
  have htopK : 0 < r.topK := Nat.pos_of_ne_zero fun h => by
    simp [SlotRouting.numSlots, h] at hi₀
  have hslot : ∀ k < r.topK, t * r.topK + k = i₀ ↔ k = i₀ % r.topK := by
    intro k hk
    rw [ht]
    have hdiv := Nat.div_add_mod' i₀ r.topK
    omega
  set cache3 := (leakCall K r i₀).intermediateCache3 ((ExpertAssignment.ofRange r).slots epRagged)
    ((leakCall K r i₀).quantized q .perTensorDynamic (.ofRange r) (leakStale b) epRagged)
    ((leakCall K r i₀).intermediateCache2 ((leakCall K r i₀).intermediateCache1
      ((ExpertAssignment.ofRange r).slots epRagged) (leakStale b).workspace2)
      (leakStale b).workspace13)
    ((leakCall K r i₀).intermediateCache1 ((ExpertAssignment.ofRange r).slots epRagged)
      (leakStale b).workspace2) with hcache3
  have hsum : (leakCall K r i₀).moeSum epRagged cache3 t =
      (List.range r.topK).foldl (fun acc k => acc + if k = i₀ % r.topK then v else 0) 0 := by
    unfold TritonCall.moeSum
    refine List.foldl_ext _ _ 0 fun acc k hk => ?_
    have hk := List.mem_range.mp hk
    have hi := TritonCall.slot_lt t hk
    have hadd : ∀ row : Fin 1 → K, (fun j => (leakCall K r i₀).add (acc j) (row j)) = acc + row :=
      fun _ => rfl
    rw [hadd]
    cases hk' : r.owned (t * r.topK + k) with
    | true =>
      have hrow : readRow 1 cache3 (t * r.topK + k) = if t * r.topK + k = i₀ then v else 0 :=
        (TritonCall.readRow_intermediateCache3 _ _ _ _ _ _ hi hk').trans (hw2 _)
      rw [hrow]
      simp [hslot k hk]
    | false =>
      have hne : k ≠ i₀ % r.topK := fun heq => by
        rw [(hslot k hk).mpr heq, howned] at hk'
        cases hk'
      cases epRagged with
      | true => simp [hne]
      | false =>
        rw [TritonCall.readRow_intermediateCache3_of_not_owned _ _ _ _ _ hi hk']
        simp [hne]
  calc (leakCall K r i₀).apply q .perTensorDynamic (.ofRange r) (leakStale b) epRagged t
      = (leakCall K r i₀).moeSum epRagged cache3 t := rfl
    _ = v := by
      rw [hsum, foldl_add_single List.nodup_range,
        if_pos (List.mem_range.mpr (Nat.mod_lt i₀ htopK)), zero_add]

omit [IsStrictOrderedRing K] in
/-- With zero rows the 1 survives. -/
lemma leakValue_false (q : QuantKernels K) (b : K) : leakValue q b false = 1 := by
  have hqmax : q.qmax ≠ 0 := q.qmax_pos.ne'
  simp [leakValue, q.cast_qmax, hqmax]

/-- Next to a value that is large enough it is lost. -/
lemma leakValue_true (q : QuantKernels K) : leakValue q (1 + q.qmax / q.tiny) true = 0 := by
  have hratio : 0 < q.qmax / q.tiny := div_pos q.qmax_pos q.tiny_pos
  have hb : 0 < 1 + q.qmax / q.tiny := add_pos zero_lt_one hratio
  have hsmall : 1 / ((1 + q.qmax / q.tiny) / q.qmax) < q.tiny := by
    rw [one_div_div, div_lt_iff₀ hb, mul_add, mul_one, mul_div_cancel₀ _ q.tiny_pos.ne']
    exact lt_add_of_pos_left _ q.tiny_pos
  have hcast : q.cast (1 / ((1 + q.qmax / q.tiny) / q.qmax)) = 0 :=
    q.cast_tiny _ (one_div_pos.mpr (div_pos hb q.qmax_pos)).le hsmall
  simp only [leakValue, if_true, hcast, zero_mul]

end Leak

/-- The grids agree on every layer, batch and stale memory if and only if the scheme gives every
row its own scale or a fixed one, or the rank owns all of the slots or none of them.  Otherwise the
one scale of the per-tensor dynamic scheme sees rows that nothing has written. -/
theorem ragged_irrelevant_iff {K : Type} [Field K] [LinearOrder K] [IsStrictOrderedRing K]
    (q : QuantKernels K) (r : SlotRouting) (scheme : QuantScheme) :
    RaggedIrrelevant q r scheme ↔ scheme ≠ .perTensorDynamic ∨
      (∀ i < r.numSlots, r.owned i = true) ∨ ∀ i < r.numSlots, r.owned i = false := by
  constructor
  · intro h
    by_contra hnot
    push Not at hnot
    obtain ⟨rfl, ⟨u₀, hu₀, hother⟩, i₀, hi₀, howned⟩ := hnot
    have hother : r.owned u₀ = false := Bool.eq_false_iff.mpr hother
    have howned : r.owned i₀ = true := Bool.of_not_eq_false howned
    have ht : i₀ / r.topK < r.numTokens := Nat.div_lt_of_lt_mul (Nat.mul_comm _ _ ▸ hi₀)
    have hb : 1 ≤ 1 + q.qmax / q.tiny :=
      le_add_of_nonneg_right (div_pos q.qmax_pos q.tiny_pos).le
    have hrows := congrFun (h 1 1 1 (leakCall K r i₀) (.ofRange r)
      (leakStale (1 + q.qmax / q.tiny))) ⟨i₀ / r.topK, ht⟩
    rw [apply_leakCall q hb true hi₀ howned hu₀ hother _ rfl,
      apply_leakCall q hb false hi₀ howned hu₀ hother _ rfl] at hrows
    have hvalues := congrFun hrows 0
    rw [leakValue_true, leakValue_false] at hvalues
    exact zero_ne_one hvalues
  · intro h N C H call assignment stale
    refine TritonCall.apply_eq_of_quantized call q scheme assignment stale fun i hi howned => ?_
    by_cases hscheme : scheme = .perTensorDynamic
    · subst hscheme
      rcases h with hne | hall | hnone
      · exact absurd rfl hne
      · have hrows : ∀ i < r.numSlots, call.activated assignment stale true i =
            call.activated assignment stale false i := fun i hi =>
          (call.activated_of_owned assignment stale true hi (hall i hi)).trans
            (call.activated_of_owned assignment stale false hi (hall i hi)).symm
        rw [TritonCall.quantized_perTensorDynamic, TritonCall.quantized_perTensorDynamic,
          TritonCall.tensorScale_congr q hrows, hrows i hi]
      · exact absurd howned (by rw [hnone i hi]; exact Bool.false_ne_true)
    · exact TritonCall.quantized_of_rowwise call q scheme assignment stale hscheme hi howned

/-- Rounding to the integers up to 127. -/
def sampleKernels : QuantKernels ℚ where
  cast x := round x
  qmax := 127
  qmax_pos := by norm_num
  cast_qmax := by
    have hround : round (127 : ℚ) = 127 := round_natCast 127
    rw [hround]
    norm_num
  tiny := 1 / 2
  tiny_pos := by norm_num
  cast_tiny x hx hlt := by
    have hround : round x = 0 := round_eq_zero_iff.mpr ⟨by linarith, hlt⟩
    rw [hround, Int.cast_zero]
  rowQuant _ _ row := ⟨row, fun _ => 1⟩

/-- One token with two slots, of which the rank owns the first. -/
def sampleSlotRouting : SlotRouting where
  numTokens := 1
  topK := 2
  topkIds i := i
  expertMap e := if e = 0 then 0 else -1

/-- Both sides of the equivalence occur. -/
theorem ragged_irrelevant_iff_sample :
    RaggedIrrelevant sampleKernels sampleSlotRouting .perTokenDynamic ∧
      ¬RaggedIrrelevant sampleKernels sampleSlotRouting .perTensorDynamic := by
  refine ⟨(ragged_irrelevant_iff _ _ _).mpr (Or.inl (by decide)), fun h => ?_⟩
  rcases (ragged_irrelevant_iff _ _ _).mp h with hne | hall | hnone
  · exact absurd rfl hne
  · exact absurd (hall 1 (by decide)) (by decide)
  · exact absurd (hnone 0 (by decide)) (by decide)

/-- The value 300 in the workspace of an earlier layer turns the output from 1 to 0. -/
theorem ragged_leaks :
    (leakCall ℚ sampleSlotRouting 0).apply sampleKernels .perTensorDynamic
        (.ofRange sampleSlotRouting) (leakStale 300) true ⟨0, Nat.one_pos⟩ 0 = 0 ∧
      (leakCall ℚ sampleSlotRouting 0).apply sampleKernels .perTensorDynamic
        (.ofRange sampleSlotRouting) (leakStale 300) false ⟨0, Nat.one_pos⟩ 0 = 1 := by
  have hb : (1 : ℚ) ≤ 300 := by norm_num
  have hrow := fun epRagged => apply_leakCall sampleKernels hb epRagged
    (by decide : 0 < sampleSlotRouting.numSlots) (by decide)
    (by decide : 1 < sampleSlotRouting.numSlots) (by decide) ⟨0, Nat.one_pos⟩ rfl
  refine ⟨(congrFun (hrow true) 0).trans ?_, (congrFun (hrow false) 0).trans ?_⟩
  · have hround : round (1 / ((300 : ℚ) / 127)) = 0 := round_eq_zero_iff.mpr (by norm_num)
    simp only [leakValue, if_true, sampleKernels, hround, Int.cast_zero, zero_mul]
  · exact leakValue_false sampleKernels 300

end UnimonoMoe
