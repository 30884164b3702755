import Mathlib.Algebra.Order.Field.Basic
import UnimonoMoe.Host.Marshalling
import UnimonoMoe.Kernel.ExpertParallel
import UnimonoMoe.Kernel.RouterReference

/-!
# Who divides by the weight sum

The router weights are renormalized by the kernel, when the binary is a fused one, or by
`_moe_monokernel_prefill_impl` after the launch, which then divides the whole output by the weight
sum of the token.  In between, the epilogue scales the routed sum, adds the residual and adds up
the ranks.

In exact arithmetic both the output of a call and what it should be are a multiple of the routed
sums plus a multiple of the residuals.  `prefillOutput_eq` and `foldedOutput_eq` compute the
factors, `eq_for_all_rows_iff` says that the factors are what has to agree, and
`renormalized_iff` when they do.
-/

namespace UnimonoMoe

section Field

variable {K : Type*} [Field K]

/-! ## Rows -/

/-- The rows of a token summed over its slots, with weights `w`. -/
def slotSum (B : Build) (ids : ℕ → ℤ) (w : ℕ → K) (y : ℕ → ℕ → ℕ → K) (tok h : ℕ) : K :=
  ∑ k ∈ Finset.range B.topK, if !B.skips (ids (tok * B.topK + k)) then
    y (expertOf ids (tok * B.topK + k)) tok h * w (tok * B.topK + k) else 0

/-- `topk_weights.sum(1)`. -/
def tokenSum (B : Build) (w : ℕ → K) (tok : ℕ) : K :=
  ∑ k ∈ Finset.range B.topK, w (tok * B.topK + k)

/-- Exact arithmetic of a row: the final store scales the sum and adds the residual. -/
def foldedRow (y : ℕ → ℕ → ℕ → K) (outScale : K) (residual : ℕ → K) : RowOps K K K K K :=
  { exactRow y outScale with finish := fun x s => s * outScale + residual x }

variable {B : Build} {ids : ℕ → ℤ} {w : ℕ → K} {y : ℕ → ℕ → ℕ → K} {tok h : ℕ}

/-- The residual is added once, behind the scaled sum. -/
lemma moeOut_foldedRow (outScale : K) (residual : ℕ → K) :
    moeOut B ids (foldedRow y outScale residual) w tok h =
      outScale * slotSum B ids w y tok h + residual (tok * B.hDim + h) := by
  have hexact := moeOut_exact (B := B) ids y outScale w tok h
  rw [mul_comm outScale, slotSum, ← hexact]
  rfl

/-- Weights with a common factor for each token. -/
lemma slotSum_mul (factor : ℕ → K) :
    slotSum B ids (fun i => w i * factor (i / B.topK)) y tok h =
      factor tok * slotSum B ids w y tok h := by
  unfold slotSum
  rw [Finset.mul_sum]
  refine Finset.sum_congr rfl fun k hk => ?_
  have htok : (tok * B.topK + k) / B.topK = tok := Loops.rowMajor_div (Finset.mem_range.mp hk)
  simp only [htok]
  split_ifs
  · ring
  · ring

/-- Rows of ones under experts that all are local. -/
lemma slotSum_one : slotSum B (fun _ => 0) w (fun _ _ _ => 1) tok h = tokenSum B w tok := by
  have hskip : B.skips 0 = false := by simp [Build.skips]
  simp [slotSum, tokenSum, hskip]

/-- Experts that output nothing add up to nothing. -/
lemma slotSum_zero : slotSum B ids w (fun _ _ _ => 0) tok h = 0 := by
  simp [slotSum]

/-! ## Sums over ranks -/

/-- The outputs of `n` ranks when the routed sums count `a` times and the residuals `b` times. -/
def rankSum (B : Build) (n : ℕ) (a b : K) (ids : ℕ → ℤ) (w : ℕ → K) (y : ℕ → ℕ → ℕ → ℕ → K)
    (residual : ℕ → ℕ → K) (tok h : ℕ) : K :=
  ∑ r ∈ Finset.range n, (a * slotSum B ids w (y r) tok h + b * residual r (tok * B.hDim + h))

/-- An output times a factor. -/
lemma rankSum_mul (n : ℕ) (a b d : K) (y : ℕ → ℕ → ℕ → ℕ → K) (residual : ℕ → ℕ → K) :
    rankSum B n a b ids w y residual tok h * d =
      rankSum B n (a * d) (b * d) ids w y residual tok h := by
  unfold rankSum
  rw [Finset.sum_mul]
  refine Finset.sum_congr rfl fun r _ => ?_
  ring

/-- Only the first rank contributes. -/
lemma rankSum_first {n : ℕ} (hn : 0 < n) (ids : ℕ → ℤ) (w : ℕ → K) (y : ℕ → ℕ → ℕ → ℕ → K)
    (residual : ℕ → ℕ → K) (tok h : ℕ) (hy : ∀ r ≠ 0, y r = fun _ _ _ => 0)
    (hres : ∀ r ≠ 0, residual r = fun _ => 0) (a b : K) :
    rankSum B n a b ids w y residual tok h =
      a * slotSum B ids w (y 0) tok h + b * residual 0 (tok * B.hDim + h) := by
  unfold rankSum
  refine Finset.sum_eq_single_of_mem 0 (Finset.mem_range.mpr hn) fun r _ hr => ?_
  rw [hy r hr, hres r hr, slotSum_zero, mul_zero, mul_zero, add_zero]

/-- Two such outputs are the same for all rows and residuals when they count the same. -/
lemma eq_for_all_rows_iff {n : ℕ} (hn : 0 < n) (hw : tokenSum B w tok ≠ 0) {a b a' b' : K} :
    (∀ ids y residual h, rankSum B n a b ids w y residual tok h =
      rankSum B n a' b' ids w y residual tok h) ↔ a = a' ∧ b = b' := by
  constructor
  · intro hall
    constructor
    · -- rows of ones on the first rank, no residual
      have hrow := hall (fun _ => 0) (fun r _ _ _ => if r = 0 then 1 else 0) (fun _ _ => 0) 0
      have hsum := rankSum_first (B := B) hn (fun _ => 0) w (fun r _ _ _ => if r = 0 then 1 else 0)
        (fun _ _ => 0) tok 0 (fun r hr => by simp [hr]) (fun _ _ => rfl)
      rw [hsum, hsum] at hrow
      simp only [if_true, slotSum_one, mul_zero, add_zero] at hrow
      exact mul_right_cancel₀ hw hrow
    · -- no rows, a residual of ones on the first rank
      have hres := hall (fun _ => 0) (fun _ _ _ _ => 0) (fun r _ => if r = 0 then 1 else 0) 0
      have hsum := rankSum_first (B := B) hn (fun _ => 0) w (fun _ _ _ _ => 0)
        (fun r _ => if r = 0 then 1 else 0) tok 0 (fun _ _ => rfl) (fun r hr => by simp [hr])
      rw [hsum, hsum] at hres
      simpa only [if_true, slotSum_zero, mul_zero, zero_add, mul_one] using hres
  · rintro ⟨rfl, rfl⟩ _ _ _ _
    rfl

end Field

section Ordered

variable {K : Type*} [Field K] [LinearOrder K]

/-! ## The call -/

/-- `1e-30` -/
def tiny : K := ((10 ^ 30 : ℕ) : K)⁻¹

/-- The weights that the kernel multiplies with: a fused binary divides them by their sum. -/
def kernelWeights (B : Build) (fused : Bool) (w : ℕ → K) (i : ℕ) : K :=
  if fused then w i * (1 / max (tokenSum B w (i / B.topK)) tiny) else w i

/-- A pointer that is not null. -/
def nonNull (p : ℤ) : Bool := p % 2 ^ 64 != 0

/-- What the argument checks of the launcher see of a call. -/
def ImplCall.launcherView (c : ImplCall) : LaunchCall where
  workspace := nonNull c.buffers.workspace
  workspaceBytes := true
  numTokens := toInt32 c.numTokens
  operands :=
    [c.buffers.logits, c.buffers.act, c.buffers.actFp8, c.buffers.actScales, c.buffers.wUp,
      c.buffers.sUp, c.buffers.wDown, c.buffers.sDown, c.buffers.outputAccum, c.buffers.topkIds,
      c.buffers.topkWeights, c.buffers.sortedIds, c.buffers.out].all nonNull
  tpMc := nonNull (c.tpField TpTuple.mc)
  tpPads := nonNull (c.tpField TpTuple.pads)
  tpRank := toInt32 (c.tpField TpTuple.rank)
  tpWorld := if c.tp.isSome then toInt32 (c.tpField TpTuple.world) else 1
  tpNchunk := if c.tp.isSome then toInt32 (c.tpField TpTuple.nchunk) else 1
  tpNcomm := toInt32 (c.tpField TpTuple.ncomm)
  expertMap := c.expertMap.isSome && nonNull c.buffers.emap

/-- How many ranks the output of the entry point is summed over. -/
def ImplCall.participants (c : ImplCall) : ℕ :=
  if c.launcherView.tpMc = true ∧ 0 < c.launcherView.tpNcomm then c.launcherView.tpWorld.toNat
  else 1

/-- The collective of an accepted launch has at least one rank. -/
lemma participants_pos {B : Build} {c : ImplCall} (h : launcherCheck B c.launcherView = 0) :
    0 < c.participants := by
  have hrank := (launcherCheck_eq_zero_iff.mp h).rank
  unfold ImplCall.participants
  split_ifs with hfused
  · exact Int.pos_iff_toNat_pos.mp (hrank hfused).1
  · exact Nat.one_pos

section Call

variable (B : Build) (lib : Binary) (c : ImplCall) (entry : EntryPoint) (scale : K) (ids : ℕ → ℤ)
  (w : ℕ → K) (y : ℕ → ℕ → ℕ → ℕ → K) (residual : ℕ → ℕ → K) (tok h : ℕ)

/-- The scale in the entry point.  Those without the parameter forward `1.0f`. -/
def entryScale : K := if Param.outScale ∈ lib.signature entry then scale else 1

/-- The residual in the entry point.  Those without the parameter forward a null pointer. -/
def entryResidual (r x : ℕ) : K :=
  if Param.tpResidual ∈ lib.signature entry ∧ c.residPtr ≠ 0 then residual r x else 0

/-- What the entry point leaves in the output: the outputs of the ranks, added up by the
collective.  Every rank makes this call, with rows and a residual of its own. -/
def entryOutput : K :=
  ∑ r ∈ Finset.range c.participants,
    moeOut B ids
      (foldedRow (y r) (entryScale lib entry scale) (entryResidual lib c entry residual r))
      (kernelWeights B (truthy lib.geo.fusedRenorm) w) tok h

/-- The output of `_moe_monokernel_prefill_impl`, for a call of the entry point with the arguments
`args` that returns `rc`.  There is none when the call raises, or when the entry point reads its
parameters from the wrong places. -/
def prefillOutput (args : List CArg) (rc : ℤ) : Option K :=
  if args = (lib.signature entry).map (c.meaning lib) then
    match afterLaunch lib c rc with
    | .returned divided =>
      let out := entryOutput B lib c entry scale ids w y residual tok h
      some (if divided then out / max (tokenSum B w tok) tiny else out)
    | _ => none
  else none

/-- What the output should be. -/
def foldedOutput : K :=
  ∑ r ∈ Finset.range c.participants,
    (scale * slotSum B ids
        (fun i => if c.renormalize then w i / tokenSum B w (i / B.topK) else w i) (y r) tok h +
      if c.residPtr ≠ 0 then residual r (tok * B.hDim + h) else 0)

/-- The call renormalizes: whatever the routing, the rows and the residuals are, its output is what
it should be. -/
def Renormalized (args : List CArg) (rc : ℤ) : Prop :=
  ∀ ids y residual h, prefillOutput B lib c entry scale ids w y residual tok h args rc =
    some (foldedOutput B c scale ids w y residual tok h)

/-- The argument list is right; without a fused configuration there is no scale; the weight sum
does not fall below `1e-30`; and the host does not divide a residual. -/
structure Renormalizes : Prop where
  counter : ∀ tp ∈ c.tp, c.fold = false → (tp.seqctr ≠ 0 ↔ lib.devseq = true)
  plain : c.tp = none →
    if c.renormalize then scale * max (tokenSum B w tok) tiny = tokenSum B w tok else scale = 1
  fused : c.tp.isSome → c.renormalize = true → scale = 0 ∨ tiny ≤ tokenSum B w tok
  residual : c.residPtr ≠ 0 → c.renormalize = true → truthy lib.geo.fusedRenorm = false →
    tokenSum B w tok = 1

end Call

/-- The weights that the router of a fused binary stores are these. -/
theorem kernelWeights_router {B : Build} {exp : K → K} {lowest : K} {bias : Option (ℕ → K)}
    {expertMap : Option (ℕ → ℤ)} {logits : ℕ → ℕ → K} :
    (router B (.exact exp lowest tiny) bias expertMap logits).weights =
      kernelWeights B true fun i =>
        rawWeight B (.exact exp lowest tiny) bias (logits (i / B.topK)) (i % B.topK) := by
  funext i
  have hsum : tokenSum B (fun i =>
      rawWeight B (.exact exp lowest tiny) bias (logits (i / B.topK)) (i % B.topK)) (i / B.topK) =
        weightSum B (.exact exp lowest tiny) bias (logits (i / B.topK)) := by
    rw [weightSum_exact]
    refine Finset.sum_congr rfl fun k hk => ?_
    have hk' : k < B.topK := Finset.mem_range.mp hk
    simp only [Loops.rowMajor_div hk', Loops.rowMajor_mod hk']
  rw [kernelWeights, if_pos rfl, hsum]
  rfl

/-! ## The factors -/

section Factors

variable {B : Build} {lib : Binary} {c : ImplCall} {entry : EntryPoint} {args : List CArg} {rc : ℤ}
  {divided : Bool} {scale : K} {ids : ℕ → ℤ} {w : ℕ → K} {y : ℕ → ℕ → ℕ → ℕ → K}
  {residual : ℕ → ℕ → K} {tok h : ℕ}

/-- The division of the host. -/
def hostFactor (divided : Bool) (weightSum : K) : K :=
  if divided then 1 / max weightSum tiny else 1

/-- A kernel that renormalizes divides the sum of the slots. -/
lemma slotSum_kernelWeights (fused : Bool) (y : ℕ → ℕ → ℕ → K) :
    slotSum B ids (kernelWeights B fused w) y tok h =
      hostFactor fused (tokenSum B w tok) * slotSum B ids w y tok h := by
  cases fused with
  | true => exact slotSum_mul fun t => 1 / max (tokenSum B w t) tiny
  | false => exact (one_mul _).symm

/-- The output of the entry point. -/
lemma entryOutput_eq : entryOutput B lib c entry scale ids w y residual tok h =
    rankSum B c.participants
      (entryScale lib entry scale * hostFactor (truthy lib.geo.fusedRenorm) (tokenSum B w tok))
      (if Param.tpResidual ∈ lib.signature entry ∧ c.residPtr ≠ 0 then 1 else 0) ids w y residual
      tok h := by
  refine Finset.sum_congr rfl fun r _ => ?_
  rw [moeOut_foldedRow, slotSum_kernelWeights, mul_assoc, entryResidual, ite_mul, one_mul,
    zero_mul]

/-- A call that returns has left the division to one side. -/
lemma afterLaunch_eq_returned (h : afterLaunch lib c rc = .returned divided) :
    divided = (c.renormalize && !truthy lib.geo.fusedRenorm) ∧
      (truthy lib.geo.fusedRenorm = true → c.renormalize = true) := by
  unfold afterLaunch afterEntry at h
  split_ifs at h with hrc hhost hfused
  · obtain rfl := CallOutcome.returned.inj h
    exact ⟨hhost.symm, fun hf => by simp [hf] at hhost⟩
  · obtain rfl := CallOutcome.returned.inj h
    refine ⟨(Bool.eq_false_iff.mpr hhost).symm, fun hf => ?_⟩
    simpa [hf] using hfused

/-- The output of a call that returns. -/
lemma prefillOutput_eq (hargs : args = (lib.signature entry).map (c.meaning lib))
    (hret : afterLaunch lib c rc = .returned divided) :
    prefillOutput B lib c entry scale ids w y residual tok h args rc =
      some (rankSum B c.participants
        (entryScale lib entry scale * hostFactor c.renormalize (tokenSum B w tok))
        ((if Param.tpResidual ∈ lib.signature entry ∧ c.residPtr ≠ 0 then 1 else 0) *
          hostFactor divided (tokenSum B w tok)) ids w y residual tok h) := by
  obtain ⟨hdivided, hfused⟩ := afterLaunch_eq_returned hret
  unfold prefillOutput
  rw [if_pos hargs, hret, entryOutput_eq]
  have hout : ∀ out : K, (if divided then out / max (tokenSum B w tok) tiny else out) =
      out * hostFactor divided (tokenSum B w tok) := fun out => by
    cases divided with
    | true => exact (mul_one_div out _).symm
    | false => exact (mul_one out).symm
  have hfactor : hostFactor (truthy lib.geo.fusedRenorm) (tokenSum B w tok) *
      hostFactor divided (tokenSum B w tok) = hostFactor c.renormalize (tokenSum B w tok) := by
    rw [hdivided]
    cases hf : truthy lib.geo.fusedRenorm with
    | true => simp [hostFactor, hfused hf]
    | false => simp [hostFactor]
  simp only [hout]
  rw [rankSum_mul, mul_assoc, hfactor]

omit [LinearOrder K] in
/-- What the output should be. -/
lemma foldedOutput_eq : foldedOutput B c scale ids w y residual tok h =
    rankSum B c.participants
      (scale * if c.renormalize then 1 / tokenSum B w tok else 1)
      (if c.residPtr ≠ 0 then 1 else 0) ids w y residual tok h := by
  have hweights : ∀ r, slotSum B ids
      (fun i => if c.renormalize then w i / tokenSum B w (i / B.topK) else w i) (y r) tok h =
        (if c.renormalize then 1 / tokenSum B w tok else 1) * slotSum B ids w (y r) tok h := by
    intro r
    cases c.renormalize with
    | true =>
      have hmul : slotSum B ids (fun i => w i * (1 / tokenSum B w (i / B.topK))) (y r) tok h =
          1 / tokenSum B w tok * slotSum B ids w (y r) tok h :=
        slotSum_mul fun t => 1 / tokenSum B w t
      simpa only [mul_one_div, if_true] using hmul
    | false => exact (one_mul _).symm
  refine Finset.sum_congr rfl fun r _ => ?_
  rw [hweights, mul_assoc]
  simp only [ite_mul, one_mul, zero_mul]

/-! ## When they agree -/

omit [LinearOrder K] in
/-- With a fused configuration the entry point gets the scale, without one it has none. -/
lemma ReachesEntry.entryScale_eq (h : ReachesEntry lib c entry args)
    (hscale : scale = 1 ↔ c.scaled = false) :
    entryScale lib entry scale = if c.tp.isSome then scale else 1 := by
  cases htp : c.tp with
  | none =>
    rw [entryPoint_eq_of_none h.entry htp]
    unfold entryScale
    cases c.expertMap <;> cases c.bias <;> simp [Binary.signature, leadingParams]
  | some tp =>
    rw [entryPoint_eq_of_some h.entry htp]
    cases hfold : c.fold with
    | true => simp [entryScale, Binary.signature]
    | false =>
      have hscaled : c.scaled = false := by
        rw [PrefillInputs.fold, Bool.or_eq_false_iff] at hfold
        exact hfold.2
      simp [entryScale, hscale.mpr hscaled]

/-- A residual reaches the entry point. -/
lemma ReachesEntry.tpResidual_mem (h : ReachesEntry lib c entry args) (hptr : c.residPtr ≠ 0) :
    Param.tpResidual ∈ lib.signature entry := by
  cases htp : c.tp with
  | none => exact absurd (h.residual htp) hptr
  | some tp =>
    have hfold : c.fold = true := by simp [PrefillInputs.fold, hptr]
    rw [entryPoint_eq_of_some h.entry htp, hfold]
    simp [Binary.signature]

variable [IsStrictOrderedRing K]

/-- The floor of the denominator is positive. -/
lemma tiny_pos : (0 : K) < tiny := by
  unfold tiny
  positivity

/-- And below one. -/
lemma tiny_lt_one : (tiny : K) < 1 := by
  unfold tiny
  exact inv_lt_one_of_one_lt₀ (by norm_num)

omit [IsStrictOrderedRing K] in
/-- The division of the kernel or the host is the one by the weight sum, unless the sum falls below
`1e-30`. -/
lemma mul_hostFactor_eq_iff {W : K} (hW : 0 < W) (renormalize : Bool) (s t : K) :
    s * hostFactor renormalize W = t * (if renormalize then 1 / W else 1) ↔
      if renormalize then t * max W tiny = s * W else s = t := by
  have hmax : 0 < max W tiny := lt_max_of_lt_left hW
  cases renormalize with
  | true =>
    simp only [hostFactor, if_true, mul_one_div]
    rw [div_eq_div_iff hmax.ne' hW.ne']
    exact eq_comm
  | false => simp [hostFactor]

/-- The host leaves a residual alone when the weights already add up to one. -/
lemma hostFactor_eq_one_iff {W : K} (hW : 0 < W) :
    hostFactor divided W = 1 ↔ (divided = true → W = 1) := by
  cases divided with
  | true =>
    have hmax : 0 < max W tiny := lt_max_of_lt_left hW
    simp only [hostFactor, if_true, forall_const, div_eq_one_iff_eq hmax.ne']
    constructor
    · intro h
      rcases max_choice W tiny with hmax' | hmax'
      · exact (h.trans hmax').symm
      · exact absurd (h.trans hmax') tiny_lt_one.ne'
    · rintro rfl
      exact (max_eq_left tiny_lt_one.le).symm
  | false => simp [hostFactor]

end Factors

section Main

variable [IsStrictOrderedRing K]

omit [IsStrictOrderedRing K] in
/-- The routed sums count as they should. -/
lemma routedFactor_eq_iff {lib : Binary} {c : ImplCall} {entry : EntryPoint} {args : List CArg}
    {scale W : K} (h : ReachesEntry lib c entry args) (hscale : scale = 1 ↔ c.scaled = false)
    (hW : 0 < W) :
    entryScale lib entry scale * hostFactor c.renormalize W =
        scale * (if c.renormalize then 1 / W else 1) ↔
      (c.tp = none → if c.renormalize then scale * max W tiny = W else scale = 1) ∧
        (c.tp.isSome → c.renormalize = true → scale = 0 ∨ tiny ≤ W) := by
  rw [h.entryScale_eq hscale, mul_hostFactor_eq_iff hW]
  cases htp : c.tp with
  | none =>
    simp only [Option.isSome_none, Bool.false_eq_true, if_false, one_mul, forall_const,
      IsEmpty.forall_iff, and_true]
    cases c.renormalize with
    | true => rfl
    | false => exact eq_comm
  | some tp =>
    simp only [Option.isSome_some, if_true, reduceCtorEq, IsEmpty.forall_iff, true_and,
      forall_const]
    cases c.renormalize with
    | true => simp only [if_true, forall_const, mul_eq_mul_left_iff, max_eq_left_iff, or_comm]
    | false => simp

/-- A residual counts once. -/
lemma residualFactor_eq_iff {lib : Binary} {c : ImplCall} {entry : EntryPoint} {args : List CArg}
    {rc : ℤ} {divided : Bool} {W : K} (h : ReachesEntry lib c entry args)
    (hret : afterLaunch lib c rc = .returned divided) (hW : 0 < W) :
    (if Param.tpResidual ∈ lib.signature entry ∧ c.residPtr ≠ 0 then 1 else 0) *
        hostFactor divided W = (if c.residPtr ≠ 0 then 1 else 0) ↔
      (c.residPtr ≠ 0 → c.renormalize = true → truthy lib.geo.fusedRenorm = false → W = 1) := by
  obtain ⟨rfl, -⟩ := afterLaunch_eq_returned hret
  by_cases hptr : c.residPtr = 0
  · simp [hptr]
  · have hmem := h.tpResidual_mem hptr
    simp only [hmem, ne_eq, hptr, not_false_eq_true, and_self, if_true, one_mul, forall_const]
    rw [hostFactor_eq_one_iff hW, Bool.and_eq_true, Bool.not_eq_true', and_imp]

/-- A call that returns renormalizes exactly when these conditions hold. -/
theorem renormalized_iff {B : Build} {lib : Binary} {c : ImplCall} {entry : EntryPoint}
    {args : List CArg} {rc : ℤ} {divided : Bool} {scale : K} {w : ℕ → K} {tok : ℕ}
    (hlaunch : prefillLaunch lib c = .ok (entry, args))
    (hrc : rc = 0 → launcherCheck B c.launcherView = 0)
    (hret : afterLaunch lib c rc = .returned divided) (hscale : scale = 1 ↔ c.scaled = false)
    (hw : 0 < tokenSum B w tok) :
    Renormalized B lib c entry scale w tok args rc ↔ Renormalizes B lib c scale w tok := by
  have hentry := prefillLaunch_eq_ok hlaunch
  have hranks : 0 < c.participants := by
    refine participants_pos (hrc ?_)
    by_contra hne
    simp [afterLaunch, afterEntry, hne] at hret
  by_cases hargs : args = (lib.signature entry).map (c.meaning lib)
  · unfold Renormalized
    simp only [prefillOutput_eq hargs hret, foldedOutput_eq, Option.some.injEq]
    rw [eq_for_all_rows_iff hranks hw.ne', routedFactor_eq_iff hentry hscale hw,
      residualFactor_eq_iff hentry hret hw]
    exact ⟨fun h => ⟨hentry.args_eq_iff.mp hargs, h.1.1, h.1.2, h.2⟩,
      fun h => ⟨⟨h.plain, h.fused⟩, h.residual⟩⟩
  · refine iff_of_false (fun h => ?_) fun h => hargs (hentry.args_eq_iff.mpr h.counter)
    have hnone := h (fun _ => 0) (fun _ _ _ _ => 0) (fun _ _ => 0) 0
    rw [prefillOutput, if_neg hargs] at hnone
    cases hnone

end Main

end Ordered

/-! ### Two binaries -/

section Examples

/-- The output scale of a call that does not scale. -/
lemma one_iff_not_scaled (seqctr : ℤ) :
    (1 : ℚ) = 1 ↔ (outCall 4 seqctr 1.0).implCall.scaled = false :=
  iff_of_true rfl one_not_scaled

/-- Eight equal weights. -/
lemma tokenSum_eighth : tokenSum deepseekTP (fun _ => (1 / 8 : ℚ)) 0 = 1 := by
  norm_num [tokenSum, deepseekTP]

/-- A fused call of the binary under `src`, which renormalizes in the kernel. -/
theorem renormalized_iff_withCounter :
    Renormalized deepseekTP deepseekBinary (outCall 4 0x4000 1.0).implCall .tp (1 : ℚ)
      (fun _ => 1 / 8) 0 (launchArgs deepseekBinary (outCall 4 0x4000 1.0).implCall 16) 0 := by
  have hret : afterLaunch deepseekBinary (outCall 4 0x4000 1.0).implCall 0 = .returned false := rfl
  refine (renormalized_iff (moeMonokernelPrefillOut_eq_ok (moeMonokernelPrefillOut_fused 0x4000))
    (fun _ => by decide) hret (one_iff_not_scaled _) (by rw [tokenSum_eighth]; norm_num)).mpr
      ⟨fun tp htp _ => ?_, nofun, fun _ _ => Or.inr ?_, fun _ _ _ => tokenSum_eighth⟩
  · obtain rfl := Option.some.inj htp
    exact iff_of_true (by decide) rfl
  · rw [tokenSum_eighth]
    exact tiny_lt_one.le

/-- A binary that folds and leaves the division to the host. -/
def hostRenormBinary : Binary :=
  { deepseekBinary with geo := { deepseekLibrary.geo with fusedRenorm := none } }

/-- A fused call with a residual. -/
def foldCall : ImplCall :=
  { (outCall 4 0x4000 1.0).implCall with
    residual := some ⟨⟨.bfloat16, [16, 7168]⟩, true, 0x5000⟩ }

/-- The host divides the residual of such a call along with the routed sum: with weights that add
up to two and eight residuals of one, half of them is left.  And a scale without a fused
configuration is lost. -/
theorem host_divides_residual :
    (prefillLaunch hostRenormBinary foldCall =
        .ok (.tp2, launchArgs hostRenormBinary foldCall 16) ∧
      prefillOutput deepseekTP hostRenormBinary foldCall .tp2 (1 : ℚ) (fun _ => 0)
        (fun _ => 1 / 4) (fun _ _ _ _ => 0) (fun _ _ => 1) 0 0
        (launchArgs hostRenormBinary foldCall 16) 0 = some 4 ∧
      foldedOutput deepseekTP foldCall (1 : ℚ) (fun _ => 0) (fun _ => 1 / 4) (fun _ _ _ _ => 0)
        (fun _ _ => 1) 0 0 = 8) ∧
    (prefillLaunch deepseekBinary (outCall 0 0 2.0).implCall =
        .ok (.router, launchArgs deepseekBinary (outCall 0 0 2.0).implCall 16) ∧
      prefillOutput deepseekTP deepseekBinary (outCall 0 0 2.0).implCall .router (2 : ℚ)
        (fun _ => 0) (fun _ => 1 / 8) (fun _ _ _ _ => 1) (fun _ _ => 0) 0 0
        (launchArgs deepseekBinary (outCall 0 0 2.0).implCall 16) 0 = some 1 ∧
      foldedOutput deepseekTP (outCall 0 0 2.0).implCall (2 : ℚ) (fun _ => 0) (fun _ => 1 / 8)
        (fun _ _ _ _ => 1) (fun _ _ => 0) 0 0 = 2) := by
  have hranks : foldCall.participants = 8 := by decide
  have hrank : (outCall 0 0 2.0).implCall.participants = 1 := by decide
  have hmem : Param.tpResidual ∈ hostRenormBinary.signature .tp2 := by decide
  have hscale : Param.outScale ∉ deepseekBinary.signature .router := by decide
  have htwo : tokenSum deepseekTP (fun _ => (1 / 4 : ℚ)) 0 = 2 := by norm_num [tokenSum, deepseekTP]
  have htiny : max (2 : ℚ) tiny = 2 := max_eq_left (tiny_lt_one.le.trans one_le_two)
  have htiny' : max (1 : ℚ) tiny = 1 := max_eq_left tiny_lt_one.le
  refine ⟨⟨rfl, ?_, ?_⟩, moeMonokernelPrefillOut_eq_ok moeMonokernelPrefillOut_plain, ?_, ?_⟩
  · have hret : afterLaunch hostRenormBinary foldCall 0 = .returned true := rfl
    have hptr : foldCall.residPtr ≠ 0 := by decide
    have hargs : launchArgs hostRenormBinary foldCall 16 =
        (hostRenormBinary.signature .tp2).map (foldCall.meaning hostRenormBinary) := rfl
    rw [prefillOutput_eq hargs hret, hranks, htwo, if_pos ⟨hmem, hptr⟩]
    norm_num [rankSum, slotSum_zero, hostFactor, htiny]
  · have hptr : foldCall.residPtr ≠ 0 := by decide
    rw [foldedOutput_eq, hranks, if_pos hptr]
    norm_num [rankSum, slotSum_zero]
  · have hret : afterLaunch deepseekBinary (outCall 0 0 2.0).implCall 0 = .returned false := rfl
    have hargs : launchArgs deepseekBinary (outCall 0 0 2.0).implCall 16 =
        (deepseekBinary.signature .router).map
          ((outCall 0 0 2.0).implCall.meaning deepseekBinary) := rfl
    rw [prefillOutput_eq hargs hret, hrank, tokenSum_eighth, entryScale, if_neg hscale]
    norm_num [rankSum, slotSum_one, tokenSum_eighth, hostFactor, htiny']
  · rw [foldedOutput_eq, hrank, tokenSum_eighth]
    norm_num [rankSum, slotSum_one, tokenSum_eighth]

end Examples

end UnimonoMoe
