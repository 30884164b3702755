import Mathlib.Algebra.BigOperators.Pi
import Mathlib.Algebra.Field.Basic
import Mathlib.Algebra.Module.BigOperators
import Mathlib.Algebra.Module.LinearMap.Defs
import Mathlib.Algebra.Module.Pi
import Mathlib.Data.Finset.Prod
import UnimonoMoe.Host.Gate
import UnimonoMoe.Lib.Collectives

/-!
# The MoE runner

`MoERunner.forward` runs the routed and the shared experts of a layer and returns their sum, reduced
over the ranks.  The routed half comes from the fused epilogue, from the ordinary monokernel, or
from the modular kernel with one of its prepare/finalize implementations.  Where it is reduced and
scaled, and whether it already contains the shared half, differs between these.  A router with zero
experts adds a term of its own at the end, which `select_experts` has left for it.

The kernels are taken as exact: each returns the contribution of the rank's experts to the rows it
is given, and the fused epilogue the sum of these over the tensor-parallel group, with the scale and
the residual it is handed.
-/

namespace UnimonoMoe

open Collectives

/-! ## Ranks -/

/-- Data-parallel, prefill-context-parallel and tensor-parallel sizes. -/
structure Grid where
  dp : ℕ
  pcp : ℕ
  tp : ℕ
deriving DecidableEq, Repr

/-- A rank of the grid. -/
abbrev Grid.Rank (g : Grid) := Fin g.dp × Fin g.pcp × Fin g.tp

/-- Where tokens come from.  Tensor-parallel ranks hold the same tokens, unless sequence parallelism
scatters these over them. -/
abbrev Grid.Home (g : Grid) := Fin g.dp × Fin g.pcp × Option (Fin g.tp)

/-- `get_tp_group`, `get_dp_group`, `get_pcp_group`, `get_ep_group`. -/
inductive ProcessGroup
  | tp
  | dp
  | pcp
  | ep
deriving DecidableEq, Repr

/-- The ranks in a group of a rank. -/
def Grid.members (g : Grid) : ProcessGroup → g.Rank → Finset g.Rank
  | .tp, r => Finset.univ.image fun t => (r.1, r.2.1, t)
  | .dp, r => Finset.univ.image fun d => (d, r.2)
  | .pcp, r => Finset.univ.image fun p => (r.1, p, r.2.2)
  | .ep, _ => Finset.univ

section Members

variable {g : Grid} {k : ProcessGroup} {r i : g.Rank}

/-- The tensor-parallel group of a rank. -/
@[simp] lemma Grid.mem_tp : i ∈ g.members .tp r ↔ i.1 = r.1 ∧ i.2.1 = r.2.1 := by
  obtain ⟨d, p, t⟩ := i
  simp [Grid.members, eq_comm]

/-- Its data-parallel group. -/
@[simp] lemma Grid.mem_dp : i ∈ g.members .dp r ↔ i.2 = r.2 := by
  obtain ⟨d, q⟩ := i
  simp [Grid.members, eq_comm]

/-- Its prefill context group. -/
@[simp] lemma Grid.mem_pcp : i ∈ g.members .pcp r ↔ i.1 = r.1 ∧ i.2.2 = r.2.2 := by
  obtain ⟨d, p, t⟩ := i
  simp [Grid.members, eq_comm]

/-- All ranks share the experts. -/
@[simp] lemma Grid.mem_ep : i ∈ g.members .ep r := Finset.mem_univ i

/-- A rank is in its groups. -/
lemma Grid.mem_self : r ∈ g.members k r := by cases k <;> simp

/-- Two ranks are in each other's groups. -/
lemma Grid.mem_symm (h : i ∈ g.members k r) : r ∈ g.members k i := by
  cases k <;> simp_all

end Members

/-! ## Tensors -/

/-- The entries of some rows, zero outside. -/
abbrev Rows (K : Type) := ℕ → ℕ → K

/-- `[..., :n]` -/
def narrow {K : Type} [Field K] (n : ℕ) : Rows K →ₗ[K] Rows K where
  toFun v := fun i j => if j < n then v i j else 0
  map_add' v w := by
    funext i j
    by_cases h : j < n <;> simp [h]
  map_smul' c v := by
    funext i j
    by_cases h : j < n <;> simp [h]

/-- A tensor whose rows are those of the tokens of some homes. -/
structure Tensor (g : Grid) (K : Type) where
  batch : Finset g.Home
  value : g.Home → Rows K
  dtype : Dtype
  dataPtr : ℕ

/-- The rows of a batch out of those of all tokens. -/
def restrict {g : Grid} {K : Type} [Field K] (batch : Finset g.Home) (v : g.Home → Rows K) :
    g.Home → Rows K :=
  fun h => if h ∈ batch then v h else 0

/-- The same tensor with other entries. -/
def Tensor.map {g : Grid} {K : Type} (f : Rows K → Rows K) (x : Tensor g K) : Tensor g K :=
  { x with value := fun h => f (x.value h) }

/-! ## Collectives -/

/-- What the runner and its kernels enter.  The fused epilogue is a collective of the group that
launches it, with the same parameters on every rank. -/
inductive RunnerOp
  /-- `tensor_model_parallel_all_reduce` -/
  | allReduce
  /-- `moe_monokernel_prefill_out` -/
  | fused (p : FusedLaunch)
  /-- `all_gather` over a group -/
  | gather (k : ProcessGroup)
  /-- `reduce_scatter` over a group -/
  | reduceScatter (k : ProcessGroup)
  /-- dispatch and combine of DeepEP -/
  | exchange
deriving DecidableEq, Repr

/-- The arguments of the fused epilogue. -/
structure FusedArgs (g : Grid) (K : Type) where
  outScale : K
  routed : g.Home → Rows K
  residual : Option (g.Home → Rows K)

/-- What a rank contributes to the sum of the fused epilogue. -/
def FusedArgs.partialSum {g : Grid} {K : Type} [Field K] (x : FusedArgs g K) : g.Home → Rows K :=
  x.outScale • x.routed + x.residual.getD 0

/-- The network of a grid. -/
def network (g : Grid) (K : Type) [Field K] : Network g.Rank where
  Op := RunnerOp
  In
    | .allReduce => g.Home → Rows K
    | .fused _ => FusedArgs g K
    | .gather _ => Finset g.Home
    | .reduceScatter _ => Finset g.Home × (g.Home → Rows K)
    | .exchange => Finset g.Home × (g.Home → Rows K)
  Out
    | .gather _ => Finset g.Home
    | _ => g.Home → Rows K
  group
    | .allReduce, r => g.members .tp r
    | .fused _, r => g.members .tp r
    | .gather k, r => g.members k r
    | .reduceScatter k, r => g.members k r
    | .exchange, r => g.members .ep r
  result
    | .allReduce, x, r => ∑ i ∈ g.members .tp r, x i
    | .fused _, x, r => ∑ i ∈ g.members .tp r, (x i).partialSum
    | .gather k, x, r => (g.members k r).biUnion x
    | .reduceScatter k, x, r => restrict (x r).1 (∑ i ∈ g.members k r, (x i).2)
    | .exchange, x, r => restrict (x r).1 (∑ i ∈ g.members .ep r, (x i).2)
  group_symm {op r i} h := by cases op <;> exact Grid.mem_symm h
  result_congr {op r x y} h := by
    have hself : ∀ k, r ∈ g.members k r := fun _ => Grid.mem_self
    cases op with
    | allReduce => exact Finset.sum_congr rfl h
    | fused p => exact Finset.sum_congr rfl fun i hi => congrArg FusedArgs.partialSum (h i hi)
    | gather k => exact Finset.biUnion_congr rfl h
    | reduceScatter k =>
      have hsum := Finset.sum_congr rfl fun i hi => congrArg Prod.snd (h i hi)
      exact congrArg₂ restrict (congrArg Prod.fst (h r (hself k))) hsum
    | exchange =>
      have hsum := Finset.sum_congr rfl fun i hi => congrArg Prod.snd (h i hi)
      exact congrArg₂ restrict (congrArg Prod.fst (h r (hself .ep))) hsum

/-! ## The configuration of a runner -/

/-- The prepare/finalize implementation of the modular kernel. -/
inductive PrepareFinalize
  /-- `MoEPrepareAndFinalizeNoDPEPModular`, no communication -/
  | noDPEP
  /-- `MoEPrepareAndFinalizeNaiveDPEPModular`, all-gather and reduce-scatter -/
  | naiveDPEP
  /-- DeepEP high throughput -/
  | deepEPHT
deriving DecidableEq, Repr

/-- `supports_async`. -/
def PrepareFinalize.supportsAsync : PrepareFinalize → Bool
  | .noDPEP => false
  | .naiveDPEP => false
  | .deepEPHT => true

/-- `output_is_reduced`. -/
def PrepareFinalize.outputIsReduced : PrepareFinalize → Bool
  | .noDPEP => false
  | .naiveDPEP => false
  | .deepEPHT => true

/-- `SharedExpertsOrder`; `NONE` is never asked for. -/
inductive SharedExpertsOrder
  | noOverlap
  | mkInternalOverlapped
  | multiStreamOverlapped
deriving DecidableEq, Repr

/-- `SharedExperts`, as far as it decides when it runs. -/
structure SharedExperts where
  /-- `_disable_shared_experts_overlap` -/
  disableOverlap : Bool
  /-- `is_cuda()` and a stream of its own -/
  hasStream : Bool
  /-- `VLLM_SHARED_EXPERTS_STREAM_TOKEN_THRESHOLD` -/
  streamTokenThreshold : ℕ
  /-- the output is contiguous -/
  contiguous : Bool
deriving DecidableEq, Repr

/-- `_determine_shared_experts_order` for an input of `rows` rows. -/
def SharedExperts.determineOrder (shared : SharedExperts) (mkCanOverlap : Bool) (rows : ℕ) :
    SharedExpertsOrder :=
  if shared.disableOverlap then .noOverlap
  else if mkCanOverlap then .mkInternalOverlapped
  else if shared.hasStream && decide (rows ≤ shared.streamTokenThreshold) then
    .multiStreamOverlapped
  else .noOverlap

/-- A runner with its quantization method, the same on every rank.  The method is that of
`process_weights_after_loading`: it has a modular kernel, which is not monolithic. -/
structure MoERunner (K : Type) where
  grid : Grid
  layer : MoELayer
  epSize : ℕ
  isSequenceParallel : Bool
  useAll2AllKernels : Bool
  prepareFinalize : PrepareFinalize
  inDtype : Dtype
  /-- `moe_config.hidden_dim` -/
  hiddenDim : ℕ
  skipForwardPadding : Bool
  /-- `hidden_states.shape[-1]` -/
  hiddenSize : ℕ
  /-- `shared_experts_input.shape[-1]`, when the caller passes it -/
  sharedExpertsInput : Option ℕ
  /-- the width that `routed_input_transform` produces -/
  routedInputTransform : Option ℕ
  routedOutputTransform : Option (Rows K → Rows K)
  sharedExperts : Option SharedExperts
  /-- `isinstance(self.router, ZeroExpertRouter)` -/
  zeroExpertRouter : Bool
  routedScalingFactor : K
  /-- the plan that the tensor-parallel group has agreed on -/
  plan : FusedTPPlan
  /-- `dbo_current_ubatch_id()` -/
  ubatch : ℤ
  /-- `base_ptr` of the pool slot of this microbatch -/
  poolBase : ℕ
  overlap_eq : layer.mkCanOverlapSharedExperts = prepareFinalize.supportsAsync
  slot_lt : 0 ≤ ubatch ∧ ubatch < plan.nslots

/-- What one rank brings to a forward. -/
structure RankCall (g : Grid) (K : Type) where
  /-- what the rank's experts contribute to the tokens of a home -/
  routed : g.Home → Rows K
  /-- the rank's part of the shared experts' output -/
  shared : Rows K
  /-- the ordinary monokernel does not raise -/
  ordinaryReturns : Bool
  /-- the fused launch raises -/
  fusedRaises : Bool
  ordinaryPtr : ℕ
  modularPtr : ℕ
  sharedPtr : ℕ
  /-- `zero_expert_output` before the forward: its number of rows and its entries -/
  zeroHeld : Option (ℕ × Rows K)
  /-- what `select_experts` makes of it, for the rows that it is given -/
  zeroSelected : Rows K

/-- A forward on all ranks.  Prefill-context-parallel ranks have equally many tokens. -/
structure MoECall (g : Grid) (K : Type) where
  tokens : Fin g.dp → Option (Fin g.tp) → ℕ
  rank : g.Rank → RankCall g K

/-- The number of rows of a batch. -/
def MoECall.rows {g : Grid} {K : Type} (call : MoECall g K) (batch : Finset g.Home) : ℕ :=
  ∑ h ∈ batch, call.tokens h.1 h.2.2

/-- Where a forward raises. -/
inductive RunnerError
  | launch (e : LaunchError)
  /-- the launch of the fused epilogue -/
  | fusedLaunch
  /-- `assert self._output[self._output_idx] is None` -/
  | outputPending
  /-- `assert self._output[self._output_idx] is not None` -/
  | outputMissing
  /-- a sum of tensors whose row counts differ -/
  | rowMismatch
  /-- the fused MoE epilogue ran without the shared half folded in -/
  | notFolded
  /-- the shared-expert fold cannot be combined with a padded routed hidden dim -/
  | foldWithPadding
  /-- skip_final_all_reduce requires an un-reduced fused output -/
  | skipOfReduced
  /-- `assert zero_expert_output is not None` -/
  | zeroExpertMissing
deriving DecidableEq, Repr

namespace MoERunner

section Model

variable {K : Type} [Field K] [DecidableEq K]

/-- The program of a rank of a runner. -/
abbrev Run (rn : MoERunner K) (α : Type) := Prog (network rn.grid K) RunnerError α

/-- The home of the tokens of a rank. -/
def home (rn : MoERunner K) (r : rn.grid.Rank) : rn.grid.Home :=
  (r.1, r.2.1, if rn.isSequenceParallel then some r.2.2 else none)

/-- `_get_comm_group`. -/
def commGroup (rn : MoERunner K) : ProcessGroup :=
  if rn.isSequenceParallel then .ep else if 1 < rn.grid.dp then .dp else .pcp

/-! ### Widths -/

/-- The width of the routed input and of the input of the shared experts. -/
def inputWidths (rn : MoERunner K) : ℕ × Option ℕ :=
  match rn.sharedExpertsInput with
  | some w => (rn.hiddenSize, some w)
  | none =>
    match rn.routedInputTransform with
    | some w => (w, some rn.hiddenSize)
    | none => (rn.hiddenSize, if rn.sharedExperts.isSome then some rn.hiddenSize else none)

/-- `_maybe_pad_hidden_states`, as far as it yields the two truncation sizes. -/
def truncSizes (rn : MoERunner K) : Option ℕ × Option ℕ :=
  let sharedExpertsHiddenDim := rn.inputWidths.2.getD 0
  let transformedHiddenDim := rn.inputWidths.1
  let width := if !rn.skipForwardPadding && rn.hiddenDim != transformedHiddenDim then rn.hiddenDim
    else transformedHiddenDim
  let trunc := if transformedHiddenDim = width then none else some transformedHiddenDim
  (if rn.routedOutputTransform.isSome || 0 < sharedExpertsHiddenDim then trunc else none,
    if rn.routedOutputTransform.isSome && 0 < sharedExpertsHiddenDim then
      some sharedExpertsHiddenDim
    else trunc)

/-- `[..., :n]` for an optional `n`. -/
def narrowTo (n : Option ℕ) : Rows K →ₗ[K] Rows K :=
  match n with
  | none => LinearMap.id
  | some n => narrow n

/-- `apply_routed_output_transform`. -/
def applyRoutedOutputTransform (rn : MoERunner K) (v : Rows K) : Rows K :=
  match rn.routedOutputTransform with
  | none => v
  | some f => f v

/-! ### Predicates -/

/-- `_monokernel_reduce_folded`; `mono` is `_use_moe_monokernel`. -/
def monokernelReduceFolded (rn : MoERunner K) (mono : Bool) : Bool :=
  fusedTpEligible mono rn.layer && rn.plan.usable

/-- `monokernel_folds_shared_output`. -/
def monokernelFoldsSharedOutput (rn : MoERunner K) (mono : Bool) : Bool :=
  fusedTpEligible mono rn.layer && (rn.plan.usable && rn.plan.foldShared)

/-- `_monokernel_folds_shared`. -/
def monokernelFoldsShared (rn : MoERunner K) (mono : Bool) : Bool :=
  if rn.sharedExperts.isNone then false
  else if !rn.monokernelReduceFolded mono then false
  else if !rn.monokernelFoldsSharedOutput mono then false
  else rn.routedOutputTransform.isNone && !rn.isSequenceParallel && decide (rn.inDtype ≠ .float16)

/-- `_fused_output_is_reduced`. -/
def fusedOutputIsReduced (rn : MoERunner K) : Bool := rn.prepareFinalize.outputIsReduced

/-- `output_is_fused`. -/
def outputIsFused (rn : MoERunner K) (out : Tensor rn.grid K) : Bool :=
  rn.plan.usable && decide (out.dataPtr = rn.poolBase)

/-- The condition under which the late and the latent all-reduce have something to do. -/
def reduces (rn : MoERunner K) : Bool := decide (1 < rn.layer.tpSize) || decide (1 < rn.epSize)

/-! ### Shared experts -/

/-- The order of the shared experts of the layer. -/
def sharedExpertsOrder (rn : MoERunner K) (shared : SharedExperts) (rows : ℕ) :
    SharedExpertsOrder :=
  shared.determineOrder rn.layer.mkCanOverlapSharedExperts rows

/-- What the shared experts of a rank compute. -/
def sharedTensor (rn : MoERunner K) (call : MoECall rn.grid K) (r : rn.grid.Rank) :
    Tensor rn.grid K :=
  ⟨{rn.home r}, restrict {rn.home r} fun _ => (call.rank r).shared, rn.inDtype,
    (call.rank r).sharedPtr⟩

/-- `_maybe_apply_shared_experts`, with the pending output before and after. -/
def applySharedExperts (rn : MoERunner K) (call : MoECall rn.grid K) (r : rn.grid.Rank)
    (order : SharedExpertsOrder) (pending : Option (Tensor rn.grid K)) :
    rn.Run (Option (Tensor rn.grid K)) :=
  match rn.sharedExperts with
  | none => .ret pending
  | some shared =>
    if order ≠ rn.sharedExpertsOrder shared (call.rows {rn.home r}) then .ret pending
    else if pending.isSome then .raise .outputPending
    else .ret (some (rn.sharedTensor call r))

/-- `SharedExperts.output`, absent without shared experts. -/
def popOutput (rn : MoERunner K) (pending : Option (Tensor rn.grid K)) :
    rn.Run (Option (Tensor rn.grid K)) :=
  match rn.sharedExperts, pending with
  | none, _ => .ret none
  | some _, none => .raise .outputMissing
  | some _, some out => .ret (some out)

/-! ### The routed half -/

/-- The contribution of a rank's experts to a batch, as a kernel returns it. -/
def kernelOut (rn : MoERunner K) (call : MoECall rn.grid K) (r : rn.grid.Rank)
    (batch : Finset rn.grid.Home) (dtype : Dtype) (dataPtr : ℕ) : Tensor rn.grid K :=
  ⟨batch, restrict batch (call.rank r).routed, dtype, dataPtr⟩

/-- The pending output as the launch looks at it. -/
def asResidual (rn : MoERunner K) (call : MoECall rn.grid K) (out : Tensor rn.grid K) : Residual :=
  ⟨call.rows out.batch, rn.inputWidths.2.getD 0, out.dtype = .bfloat16,
    rn.sharedExperts.any (·.contiguous)⟩

/-- `fused_tp_launch`, with the launch. -/
def launchFused (rn : MoERunner K) (call : MoECall rn.grid K) (r : rn.grid.Rank)
    (batch : Finset rn.grid.Home) (residual : Option (Tensor rn.grid K)) (outScale : K) :
    rn.Run (Option (Tensor rn.grid K)) :=
  match fusedTpLaunch rn.plan rn.layer.hDim (call.rows batch) (residual.map (rn.asResidual call))
    rn.ubatch with
  | .error e => .raise (.launch e)
  | .ok none => .ret none
  | .ok (some p) =>
    if (call.rank r).fusedRaises then .raise .fusedLaunch
    else
      .enter (.fused p) ⟨if p.fold then outScale else 1, restrict batch (call.rank r).routed,
        if p.fold then residual.map (·.value) else none⟩ fun out =>
          .ret (some ⟨batch, out, .bfloat16, rn.poolBase⟩)

/-- `try_moe_monokernel`. -/
def tryMoeMonokernel (rn : MoERunner K) (mono : Bool) (call : MoECall rn.grid K)
    (r : rn.grid.Rank) (batch : Finset rn.grid.Home) (residual : Option (Tensor rn.grid K))
    (outScale : K) : rn.Run (Option (Tensor rn.grid K)) :=
  if !mono then .ret none
  else if prefillMaxTokens < call.rows batch then .ret none
  else do
    let fused ← if fusedTpEligible mono rn.layer then
        rn.launchFused call r batch residual outScale
      else .ret none
    match fused with
    | some out => .ret (some out)
    | none =>
      if (call.rank r).ordinaryReturns then
        .ret (some (rn.kernelOut call r batch .bfloat16 (call.rank r).ordinaryPtr))
      else .ret none

/-- `_maybe_moe_monokernel`. -/
def maybeMoeMonokernel (rn : MoERunner K) (mono : Bool) (call : MoECall rn.grid K)
    (r : rn.grid.Rank) (batch : Finset rn.grid.Home) (residual : Option (Tensor rn.grid K))
    (outScale : K) : rn.Run (Option (Tensor rn.grid K)) :=
  if rn.layer.mkCanOverlapSharedExperts then .ret none
  else if residual.isNone then rn.tryMoeMonokernel mono call r batch none 1
  else rn.tryMoeMonokernel mono call r batch residual outScale

/-- `forward_modular`: prepare, experts and finalize.  An asynchronous finalize runs the shared
experts. -/
def forwardModular (rn : MoERunner K) (call : MoECall rn.grid K) (r : rn.grid.Rank)
    (batch : Finset rn.grid.Home) (pending : Option (Tensor rn.grid K)) :
    rn.Run (Tensor rn.grid K × Option (Tensor rn.grid K)) :=
  match rn.prepareFinalize with
  | .noDPEP => .ret (rn.kernelOut call r batch rn.inDtype (call.rank r).modularPtr, pending)
  | .naiveDPEP =>
    .enter (.gather rn.commGroup) batch fun gathered =>
      .enter (.reduceScatter rn.commGroup) (batch, restrict gathered (call.rank r).routed)
        fun out => .ret (⟨batch, out, rn.inDtype, (call.rank r).modularPtr⟩, pending)
  | .deepEPHT =>
    .enter .exchange (batch, (call.rank r).routed) fun out => do
      let pending ← rn.applySharedExperts call r .mkInternalOverlapped pending
      .ret (⟨batch, out, rn.inDtype, (call.rank r).modularPtr⟩, pending)

/-- `select_experts` and `forward_modular`: the routed half, the pending output and
`zero_expert_output`. -/
def selectAndForward (rn : MoERunner K) (call : MoECall rn.grid K) (r : rn.grid.Rank)
    (batch : Finset rn.grid.Home) (pending : Option (Tensor rn.grid K)) :
    rn.Run (Tensor rn.grid K × Option (Tensor rn.grid K) × Option (ℕ × Rows K)) := do
  let (out, pending) ← rn.forwardModular call r batch pending
  .ret (out, pending, some (call.rows batch, (call.rank r).zeroSelected))

/-! ### Inside the op -/

/-- The sum of the two halves, where a single row is added to all. -/
def addHalves (rn : MoERunner K) (call : MoECall rn.grid K)
    (fusedOut sharedOut : Tensor rn.grid K) :
    rn.Run (Tensor rn.grid K) :=
  if call.rows fusedOut.batch = call.rows sharedOut.batch then
    .ret { fusedOut with value := fusedOut.value + sharedOut.value }
  else if call.rows sharedOut.batch = 1 then
    .ret { fusedOut with value := fun h i => fusedOut.value h i +
      ∑ h' ∈ sharedOut.batch, ∑ i' ∈ Finset.range (call.tokens h'.1 h'.2.2), sharedOut.value h' i' }
  else .raise .rowMismatch

/-- The part of `_apply_quant_method` that reduces inside the op. -/
def reduceInside (rn : MoERunner K) (mono : Bool) (call : MoECall rn.grid K)
    (residual sharedOut : Option (Tensor rn.grid K)) (fusedOut : Tensor rn.grid K) :
    rn.Run (Tensor rn.grid K) :=
  if rn.monokernelReduceFolded mono && !rn.fusedOutputIsReduced then do
    let wasFused := rn.outputIsFused fusedOut
    let foldShared := rn.monokernelFoldsShared mono
    let fusedOut ←
      match sharedOut with
      | some out =>
        if foldShared && !wasFused then
          rn.addHalves call (if rn.routedScalingFactor ≠ 1 then
            fusedOut.map (rn.routedScalingFactor • ·) else fusedOut) out
        else if foldShared && wasFused && residual.isNone then .raise .notFolded
        else .ret fusedOut
      | none =>
        if foldShared && wasFused && residual.isNone then .raise .notFolded else .ret fusedOut
    if wasFused then .ret fusedOut
    else .enter .allReduce fusedOut.value fun out => .ret { fusedOut with value := out }
  else .ret fusedOut

/-- `_apply_quant_method`: the shared and the routed output, and the `zero_expert_output` that the
router is left with. -/
def applyQuantMethod (rn : MoERunner K) (mono : Bool) (call : MoECall rn.grid K)
    (r : rn.grid.Rank) (batch : Finset rn.grid.Home) :
    rn.Run (Option (Tensor rn.grid K) × Tensor rn.grid K × Option (ℕ × Rows K)) := do
  let pending ← rn.applySharedExperts call r .noOverlap none
  let residual := if rn.monokernelFoldsShared mono then pending else none
  let outScale := if residual.isSome then rn.routedScalingFactor else 1
  let offered ← rn.maybeMoeMonokernel mono call r batch residual outScale
  let (fusedOut, pending, zeroOut) ←
    match offered with
    | some out => .ret (out, pending, (call.rank r).zeroHeld)
    | none => rn.selectAndForward call r batch pending
  let pending ← rn.applySharedExperts call r .multiStreamOverlapped pending
  let sharedOut ← rn.popOutput pending
  let fusedOut ← rn.reduceInside mono call residual sharedOut fusedOut
  .ret (sharedOut, fusedOut, zeroOut)

/-- Whether the runner itself gathers over the prefill-context-parallel ranks. -/
def gathersPcp (rn : MoERunner K) : Bool := decide (1 < rn.grid.pcp) && !rn.useAll2AllKernels

/-- `_maybe_dispatch`. -/
def maybeDispatch (rn : MoERunner K) (batch : Finset rn.grid.Home) : rn.Run (Finset rn.grid.Home) :=
  if rn.gathersPcp then .enter (.gather .pcp) batch .ret else .ret batch

/-- `_maybe_combine`, back to the rows of `batch`. -/
def maybeCombine (rn : MoERunner K) (batch : Finset rn.grid.Home)
    (sharedOut : Option (Tensor rn.grid K)) (fusedOut : Tensor rn.grid K) :
    rn.Run (Option (Tensor rn.grid K) × Tensor rn.grid K) := do
  let fusedOut ← if rn.gathersPcp then
      .enter (.reduceScatter .pcp) (batch, fusedOut.value) fun out =>
        .ret { fusedOut with batch := batch, value := out }
    else .ret fusedOut
  if rn.sharedExperts.isSome && sharedOut.isNone then .raise .outputMissing
  else .ret (if rn.sharedExperts.isSome then sharedOut else none, fusedOut)

/-- `_forward_impl`. -/
def forwardImpl (rn : MoERunner K) (mono : Bool) (call : MoECall rn.grid K) (r : rn.grid.Rank) :
    rn.Run (Option (Tensor rn.grid K) × Tensor rn.grid K × Option (ℕ × Rows K)) := do
  let batch ← rn.maybeDispatch {rn.home r}
  let (sharedOut, fusedOut, zeroOut) ← rn.applyQuantMethod mono call r batch
  let (sharedOut, fusedOut) ← rn.maybeCombine {rn.home r} sharedOut fusedOut
  .ret (sharedOut, fusedOut, zeroOut)

/-! ### Outside the op -/

/-- `_maybe_reduce_routed_output_before_transform`. -/
def reduceRoutedBeforeTransform (rn : MoERunner K) (fusedOut : Tensor rn.grid K)
    (isReduced : Bool) : rn.Run (Tensor rn.grid K × Bool) :=
  if rn.routedOutputTransform.isSome && !rn.isSequenceParallel && rn.reduces && !isReduced then
    .enter .allReduce fusedOut.value fun out => .ret ({ fusedOut with value := out }, true)
  else .ret (fusedOut, isReduced)

/-- `_maybe_reduce_shared_expert_output`. -/
def reduceSharedExpertOutput (rn : MoERunner K) (sharedOut : Option (Tensor rn.grid K))
    (isReduced : Bool) : rn.Run (Option (Tensor rn.grid K)) :=
  match sharedOut with
  | none => .ret none
  | some out =>
    if !rn.isSequenceParallel && isReduced then
      .enter .allReduce out.value fun v => .ret (some { out with value := v })
    else .ret (some out)

/-- `_maybe_apply_routed_scale_to_output`. -/
def applyRoutedScale (rn : MoERunner K) (sharedOut : Option (Tensor rn.grid K))
    (fusedOut : Tensor rn.grid K) : Option (Tensor rn.grid K) × Tensor rn.grid K :=
  if rn.routedScalingFactor ≠ 1 then
    if fusedOut.dtype ≠ .float16 ∨ sharedOut.isNone then
      (sharedOut, fusedOut.map (rn.routedScalingFactor • ·))
    else (sharedOut.map (Tensor.map (rn.routedScalingFactor⁻¹ • ·)), fusedOut)
  else (sharedOut, fusedOut)

/-- The sum of the halves, each of them for the tokens of this rank. -/
def sumHalves {g : Grid} (sharedOut : Option (Tensor g K)) (fusedOut : Tensor g K) :
    g.Home → Rows K :=
  match sharedOut with
  | some out => out.value + fusedOut.value
  | none => fusedOut.value

/-- `_maybe_reduce_final_output`. -/
def reduceFinalOutput (rn : MoERunner K) (states : rn.grid.Home → Rows K) (truncSize : Option ℕ)
    (isReduced : Bool) : rn.Run (rn.grid.Home → Rows K) :=
  if rn.layer.skipFinalAllReduce && rn.fusedOutputIsReduced then .raise .skipOfReduced
  else if !rn.isSequenceParallel && !rn.layer.skipFinalAllReduce && rn.reduces && !isReduced then
    .enter .allReduce states fun out => .ret fun h => narrowTo truncSize (out h)
  else .ret fun h => narrowTo truncSize (states h)

/-- What follows the op in `forward`. -/
def finishForward (rn : MoERunner K) (mono : Bool) (sharedOut : Option (Tensor rn.grid K))
    (fusedOut : Tensor rn.grid K) : rn.Run (rn.grid.Home → Rows K) := do
  let foldShared := rn.monokernelFoldsShared mono
  let fusedOut := fusedOut.map (narrowTo rn.truncSizes.1)
  let sharedOut ←
    if foldShared then
      if rn.truncSizes.1.isSome then .raise .foldWithPadding else .ret none
    else .ret sharedOut
  let isReduced := rn.fusedOutputIsReduced || rn.monokernelReduceFolded mono
  let (fusedOut, isReduced) ← rn.reduceRoutedBeforeTransform fusedOut isReduced
  let sharedOut ← rn.reduceSharedExpertOutput sharedOut isReduced
  let scaled := if foldShared then (sharedOut, fusedOut) else rn.applyRoutedScale sharedOut fusedOut
  let fusedOut := scaled.2.map rn.applyRoutedOutputTransform
  rn.reduceFinalOutput (sumHalves scaled.1 fusedOut) rn.truncSizes.2 isReduced

/-- The sum of a tensor of `n` rows and one of `m` rows, where a single row is added to all. -/
def addRows (n : ℕ) (v : Rows K) (m : ℕ) (w : Rows K) : Option (Rows K) :=
  if n = m then some (v + w)
  else if m = 1 then some fun i => v i + w 0
  else if n = 1 then some fun i => v 0 + w i
  else none

/-- `_maybe_add_zero_expert_output`. -/
def addZeroExpertOutput (rn : MoERunner K) (call : MoECall rn.grid K) (r : rn.grid.Rank)
    (zeroOut : Option (ℕ × Rows K)) (result : Rows K) : rn.Run (Rows K) :=
  if rn.zeroExpertRouter then
    match zeroOut with
    | none => .raise .zeroExpertMissing
    | some (m, w) =>
      match addRows (call.rows {rn.home r}) result m w with
      | none => .raise .rowMismatch
      | some sum => .ret sum
  else .ret result

/-- `MoERunner.forward`: the rows that a rank gets back for its tokens. -/
def forward (rn : MoERunner K) (mono : Bool) (call : MoECall rn.grid K) (r : rn.grid.Rank) :
    rn.Run (Rows K) := do
  let (sharedOut, fusedOut, zeroOut) ← rn.forwardImpl mono call r
  let out ← rn.finishForward mono sharedOut fusedOut
  rn.addZeroExpertOutput call r zeroOut (out (rn.home r))

end Model

end MoERunner

end UnimonoMoe
