import UnimonoMoe.Host.Runner
import UnimonoMoe.Lib.Threads

/-!
# The slots of the shared experts

`SharedExperts` keeps an output in a slot from the place that computes it to the place that returns
it.  Three places may compute: the runner in front of the routed kernel, the modular kernel inside
its asynchronous finalize, and the runner behind the routed kernel.  The order that
`_determine_shared_experts_order` selects is the same at all three of them, so one of them computes.
With dual-batch overlap two microbatches run interleaved, each with a slot of its own.

`microbatch` is the sequence of forwards of one microbatch, over the slots of all layers.
`slot_protocol` is about every interleaving of two of them: what a microbatch does is what its
forwards are meant to do, one after the other, and no assertion about a slot fires.
-/

namespace UnimonoMoe

open Threads

/-! ## Runners and calls -/

/-- The kernel of a quantization method. -/
inductive MoEKernel
  | monolithic
  /-- with the `supports_async` of its prepare/finalize implementation -/
  | modular (supportsAsync : Bool)
deriving DecidableEq, Repr

/-- `can_overlap_shared_experts`. -/
def MoEKernel.canOverlapSharedExperts : MoEKernel → Bool
  | .monolithic => false
  | .modular supportsAsync => supportsAsync

/-- A runner, as far as the protocol goes. -/
structure SlotRunner where
  sharedExperts : Option SharedExperts
  kernel : MoEKernel
  /-- `quant_method.mk_can_overlap_shared_experts` -/
  mkCanOverlap : Bool
  /-- the quantization method has a `try_moe_monokernel` -/
  hasMonokernel : Bool
  /-- what `_monokernel_folds_shared` says when there are shared experts -/
  foldShared : Bool
  overlap_eq : mkCanOverlap = kernel.canOverlapSharedExperts

/-- What becomes of the work that is offered to the monokernel. -/
inductive Offer
  | declined
  | taken
  | raised
deriving DecidableEq, Repr

/-- A forward of a layer on an input. -/
structure SlotCall (L X O : Type) where
  layer : L
  input : X
  /-- the answer of the monokernel, given the residual -/
  offer : Option O → Offer
  /-- the routed kernel raises -/
  kernelRaises : Bool

/-- What happens in a forward. -/
inductive SlotEvent (L X O : Type)
  /-- the shared experts run, called from the place of an order -/
  | computed (order : SharedExpertsOrder) (layer : L) (input : X)
  /-- `pending_output` is read -/
  | peeked (layer : L) (pending : Option O)
  /-- the routed kernel is entered -/
  | experts (layer : L)
  /-- the routed kernel is left -/
  | finalized (layer : L)
  /-- the forward has returned this shared output, and has left this in its slot -/
  | returned (out left : Option O)
deriving DecidableEq, Repr

/-- Where a forward raises. -/
inductive SlotError
  /-- `assert self._output[self._output_idx] is None` -/
  | outputPending
  /-- `assert self._output[self._output_idx] is not None` -/
  | outputMissing
  /-- an exception of a routed kernel -/
  | kernel
deriving DecidableEq, Repr

/-- The slots: for every layer those of the two microbatches. -/
abbrev Slot (L : Type) := L × Fin 2

/-- A program over the slots. -/
abbrev SlotProg (L X O α : Type) := Prog (Slot L) (Option O) SlotError (SlotEvent L X O) α

/-! ## The forward -/

/-- The runners of the layers, with what their shared experts compute. -/
structure Deployment (L X O : Type) where
  runner : L → SlotRunner
  /-- what the shared experts of a layer compute -/
  shared : L → X → O
  /-- `hidden_states.shape[0]` -/
  rows : X → ℕ
  enableDbo : Bool

section Forward

variable {L X O : Type} (d : Deployment L X O) (ubatch : Fin 2)

/-- `_output_idx`, with the layer whose slot it is. -/
def Deployment.slot (l : L) : Slot L := (l, if d.enableDbo then ubatch else ⟨0, Nat.two_pos⟩)

/-- The order that a call selects, absent without shared experts. -/
def Deployment.order (c : SlotCall L X O) : Option SharedExpertsOrder :=
  (d.runner c.layer).sharedExperts.map fun shared =>
    shared.determineOrder (d.runner c.layer).mkCanOverlap (d.rows c.input)

/-- `_maybe_apply_shared_experts`, of the runner and of the modular kernel, at the place of
`order`. -/
def Deployment.maybeApplySharedExperts (c : SlotCall L X O) (order : SharedExpertsOrder) :
    SlotProg L X O Unit :=
  match d.order c with
  | none => pure ()
  | some selected =>
    if order ≠ selected then pure ()
    else do
      let before ← Prog.get (d.slot ubatch c.layer)
      if before.isSome then .raise .outputPending
      else do
        Prog.report (.computed order c.layer c.input)
        Prog.set (d.slot ubatch c.layer) (some (d.shared c.layer c.input))
        let after ← Prog.get (d.slot ubatch c.layer)
        if after.isNone then .raise .outputMissing else pure ()

/-- `pending_output`. -/
def Deployment.pendingOutput (l : L) : SlotProg L X O (Option O) := do
  let pending ← Prog.get (d.slot ubatch l)
  Prog.report (.peeked l pending)
  pure pending

/-- `output`. -/
def Deployment.output (l : L) : SlotProg L X O O := do
  let out ← Prog.get (d.slot ubatch l)
  match out with
  | none => .raise .outputMissing
  | some out => do
    Prog.set (d.slot ubatch l) none
    pure out

/-- `_maybe_moe_monokernel`: whether it hands back an output. -/
def Deployment.maybeMoeMonokernel (c : SlotCall L X O) (residual : Option O) :
    SlotProg L X O Bool :=
  if !(d.runner c.layer).hasMonokernel || (d.runner c.layer).mkCanOverlap then pure false
  else
    match c.offer residual with
    | .declined => pure false
    | .raised => .raise .kernel
    | .taken => do
      Prog.report (.experts c.layer)
      Prog.report (.finalized c.layer)
      pure true

/-- `forward_monolithic` and `forward_modular`, the latter with `_finalize`. -/
def Deployment.routedExperts (c : SlotCall L X O) : SlotProg L X O Unit := do
  Prog.report (.experts c.layer)
  if c.kernelRaises then .raise .kernel
  else do
    match (d.runner c.layer).kernel with
    | .modular true => d.maybeApplySharedExperts ubatch c .mkInternalOverlapped
    | _ => pure ()
    Prog.report (.finalized c.layer)

/-- `_monokernel_folds_shared`. -/
def Deployment.monokernelFoldsShared (c : SlotCall L X O) : Bool :=
  (d.runner c.layer).sharedExperts.isSome && (d.runner c.layer).foldShared

/-- The residual that a forward offers. -/
def Deployment.residual (c : SlotCall L X O) : SlotProg L X O (Option O) :=
  if d.monokernelFoldsShared c then d.pendingOutput ubatch c.layer else pure none

/-- The routed output: from the monokernel, or from the branches behind it. -/
def Deployment.fusedOut (c : SlotCall L X O) (residual : Option O) : SlotProg L X O Unit := do
  let offered ← d.maybeMoeMonokernel c residual
  if offered then pure () else d.routedExperts ubatch c

/-- `shared_out`. -/
def Deployment.sharedOut (c : SlotCall L X O) : SlotProg L X O (Option O) :=
  if (d.runner c.layer).sharedExperts.isSome then do
    let out ← d.output ubatch c.layer
    pure (some out)
  else pure none

/-- `_apply_quant_method`, as far as it yields the shared output. -/
def Deployment.applyQuantMethod (c : SlotCall L X O) : SlotProg L X O (Option O) := do
  d.maybeApplySharedExperts ubatch c .noOverlap
  let residual ← d.residual ubatch c
  d.fusedOut ubatch c residual
  d.maybeApplySharedExperts ubatch c .multiStreamOverlapped
  d.sharedOut ubatch c

/-- The forwards of a microbatch.  After each of them it reports what the forward has returned and
what is left in the slot. -/
def Deployment.microbatch : List (SlotCall L X O) → SlotProg L X O Unit
  | [] => pure ()
  | c :: cs => do
    let out ← d.applyQuantMethod ubatch c
    let left ← Prog.get (d.slot ubatch c.layer)
    Prog.report (.returned out left)
    microbatch cs

/-- The peek of a forward that folds, when it finds `pending`. -/
def Deployment.peek (c : SlotCall L X O) (pending : Option O) : List (SlotEvent L X O) :=
  if d.monokernelFoldsShared c then [.peeked c.layer pending] else []

/-- What a forward is meant to do: the shared experts run once, at the place their order selects,
and the forward returns what they have made of its own input and leaves nothing behind. -/
def Deployment.intended (c : SlotCall L X O) : List (SlotEvent L X O) :=
  let y := d.shared c.layer c.input
  match d.order c with
  | none => [.experts c.layer, .finalized c.layer, .returned none none]
  | some .noOverlap =>
    .computed .noOverlap c.layer c.input :: d.peek c (some y) ++
      [.experts c.layer, .finalized c.layer, .returned (some y) none]
  | some .mkInternalOverlapped =>
    d.peek c none ++ [.experts c.layer, .computed .mkInternalOverlapped c.layer c.input,
      .finalized c.layer, .returned (some y) none]
  | some .multiStreamOverlapped =>
    d.peek c none ++ [.experts c.layer, .finalized c.layer,
      .computed .multiStreamOverlapped c.layer c.input, .returned (some y) none]

end Forward

/-! ## One microbatch alone -/

section Alone

variable {L X O : Type} [DecidableEq L] {d : Deployment L X O} {ubatch : Fin 2}
  {c : SlotCall L X O} {m : Slot L → Option O}

/-- A place that is not selected does nothing. -/
lemma exec_apply_of_ne {order : SharedExpertsOrder} (h : d.order c ≠ some order) :
    exec (d.maybeApplySharedExperts ubatch c order) m = ⟨.ok (), m, []⟩ := by
  unfold Deployment.maybeApplySharedExperts
  cases hsel : d.order c with
  | none => rfl
  | some selected =>
    have hne : order ≠ selected := fun heq => h (by rw [hsel, heq])
    simp only [if_pos hne]
    rfl

/-- The selected place computes the output, into an empty slot. -/
lemma exec_apply_of_eq {order : SharedExpertsOrder} (h : d.order c = some order)
    (hm : m (d.slot ubatch c.layer) = none) :
    exec (d.maybeApplySharedExperts ubatch c order) m =
      ⟨.ok (), Function.update m (d.slot ubatch c.layer) (some (d.shared c.layer c.input)),
        [.computed order c.layer c.input]⟩ := by
  unfold Deployment.maybeApplySharedExperts
  rw [h]
  simp [exec_bind, hm]
  rfl

/-- A full slot is handed out and emptied. -/
lemma exec_output {y : O} (h : m (d.slot ubatch c.layer) = some y) :
    exec (d.output ubatch c.layer) m =
      ⟨.ok y, Function.update m (d.slot ubatch c.layer) none, []⟩ := by
  unfold Deployment.output
  simp [exec_bind, h]
  rfl

/-- Reading the pending output does not consume it. -/
lemma exec_residual (d : Deployment L X O) (ubatch : Fin 2) (c : SlotCall L X O)
    (m : Slot L → Option O) : ∃ residual,
    exec (d.residual ubatch c) m =
      ⟨.ok residual, m, d.peek c (m (d.slot ubatch c.layer))⟩ := by
  unfold Deployment.residual Deployment.peek
  cases d.monokernelFoldsShared c with
  | false => exact ⟨none, rfl⟩
  | true => exact ⟨m (d.slot ubatch c.layer), rfl⟩

/-- The monokernel leaves the slots alone, and it is not offered the work of a kernel that runs
the shared experts itself. -/
lemma exec_offer (d : Deployment L X O) (c : SlotCall L X O) (m : Slot L → Option O)
    (residual : Option O) :
    exec (d.maybeMoeMonokernel c residual) m = ⟨.ok false, m, []⟩ ∨
      (exec (d.maybeMoeMonokernel c residual) m =
        ⟨.ok true, m, [.experts c.layer, .finalized c.layer]⟩ ∧
          (d.runner c.layer).mkCanOverlap = false) ∨
      exec (d.maybeMoeMonokernel c residual) m = ⟨.error .kernel, m, []⟩ := by
  unfold Deployment.maybeMoeMonokernel
  by_cases hskip : (!(d.runner c.layer).hasMonokernel || (d.runner c.layer).mkCanOverlap) = true
  · rw [if_pos hskip]
    exact Or.inl rfl
  · rw [if_neg hskip]
    have hoverlap : (d.runner c.layer).mkCanOverlap = false := by
      rw [Bool.or_eq_true, not_or] at hskip
      simpa using hskip.2
    cases c.offer residual with
    | declined => exact Or.inl rfl
    | taken => exact Or.inr (Or.inl ⟨rfl, hoverlap⟩)
    | raised => exact Or.inr (Or.inr rfl)

omit [DecidableEq L] in
/-- The order says where the shared experts run: inside the kernel exactly when it can overlap
them and nothing disables that. -/
lemma kernel_of_order (h : d.order c = some .mkInternalOverlapped) :
    (d.runner c.layer).kernel = .modular true := by
  have hoverlap : (d.runner c.layer).mkCanOverlap = true := by
    unfold Deployment.order at h
    obtain ⟨shared, -, hsel⟩ := Option.map_eq_some_iff.mp h
    unfold SharedExperts.determineOrder at hsel
    split_ifs at hsel with _ hcan
    exact hcan
  rw [(d.runner c.layer).overlap_eq] at hoverlap
  cases hkernel : (d.runner c.layer).kernel with
  | monolithic => rw [hkernel] at hoverlap; cases hoverlap
  | modular supportsAsync =>
    rw [hkernel] at hoverlap
    exact congrArg MoEKernel.modular hoverlap

/-- The routed experts, when the shared experts do not run inside them. -/
lemma exec_routed_of_ne (h : d.order c ≠ some .mkInternalOverlapped) :
    exec (d.routedExperts ubatch c) m =
      if c.kernelRaises then ⟨.error .kernel, m, [.experts c.layer]⟩
      else ⟨.ok (), m, [.experts c.layer, .finalized c.layer]⟩ := by
  unfold Deployment.routedExperts
  cases c.kernelRaises with
  | true => rfl
  | false =>
    rcases hkernel : (d.runner c.layer).kernel with _ | supportsAsync
    · rfl
    · cases supportsAsync with
      | false => rfl
      | true => simp [exec_bind, exec_apply_of_ne h]

/-- The routed experts, when the shared experts run inside them. -/
lemma exec_routed_of_eq (h : d.order c = some .mkInternalOverlapped)
    (hm : m (d.slot ubatch c.layer) = none) :
    exec (d.routedExperts ubatch c) m =
      if c.kernelRaises then ⟨.error .kernel, m, [.experts c.layer]⟩
      else ⟨.ok (), Function.update m (d.slot ubatch c.layer) (some (d.shared c.layer c.input)),
        [.experts c.layer, .computed .mkInternalOverlapped c.layer c.input,
          .finalized c.layer]⟩ := by
  unfold Deployment.routedExperts
  rw [kernel_of_order h]
  cases c.kernelRaises with
  | true => rfl
  | false => simp [exec_bind, exec_apply_of_eq h hm]

/-- The routed output, when the shared experts do not run inside the kernel. -/
lemma exec_fusedOut_of_ne (h : d.order c ≠ some .mkInternalOverlapped) (ubatch : Fin 2)
    (m : Slot L → Option O) (residual : Option O) :
    exec (d.fusedOut ubatch c residual) m =
        ⟨.ok (), m, [.experts c.layer, .finalized c.layer]⟩ ∨
      ∃ es, exec (d.fusedOut ubatch c residual) m = ⟨.error .kernel, m, es⟩ ∧
        es <+: [.experts c.layer] := by
  unfold Deployment.fusedOut
  rw [exec_bind]
  rcases exec_offer d c m residual with heq | ⟨heq, -⟩ | heq
  · rw [heq, Outcome.andThen_ok, if_neg Bool.false_ne_true, exec_routed_of_ne h]
    split_ifs
    · exact Or.inr ⟨_, rfl, List.prefix_refl _⟩
    · exact Or.inl rfl
  · exact Or.inl (by rw [heq]; rfl)
  · exact Or.inr ⟨[], by rw [heq]; rfl, List.nil_prefix⟩

/-- The routed output, when the shared experts run inside the kernel. -/
lemma exec_fusedOut_of_eq (h : d.order c = some .mkInternalOverlapped)
    (hm : m (d.slot ubatch c.layer) = none) (residual : Option O) :
    exec (d.fusedOut ubatch c residual) m =
        ⟨.ok (), Function.update m (d.slot ubatch c.layer) (some (d.shared c.layer c.input)),
          [.experts c.layer, .computed .mkInternalOverlapped c.layer c.input,
            .finalized c.layer]⟩ ∨
      ∃ es, exec (d.fusedOut ubatch c residual) m = ⟨.error .kernel, m, es⟩ ∧
        es <+: [.experts c.layer] := by
  unfold Deployment.fusedOut
  rw [exec_bind]
  rcases exec_offer d c m residual with heq | ⟨-, hoverlap⟩ | heq
  · rw [heq, Outcome.andThen_ok, if_neg Bool.false_ne_true, exec_routed_of_eq h hm]
    split_ifs
    · exact Or.inr ⟨_, rfl, List.prefix_refl _⟩
    · exact Or.inl rfl
  · rw [(d.runner c.layer).overlap_eq, kernel_of_order h] at hoverlap
    cases hoverlap
  · exact Or.inr ⟨[], by rw [heq]; rfl, List.nil_prefix⟩

/-- Without shared experts there is no shared output. -/
lemma exec_sharedOut_of_none (h : d.order c = none) :
    exec (d.sharedOut ubatch c) m = ⟨.ok none, m, []⟩ := by
  unfold Deployment.order at h
  unfold Deployment.sharedOut
  rw [Option.map_eq_none_iff.mp h]
  rfl

/-- With shared experts a full slot is handed out and emptied. -/
lemma exec_sharedOut_of_some {order : SharedExpertsOrder} (h : d.order c = some order) {y : O} :
    exec (d.sharedOut ubatch c) (Function.update m (d.slot ubatch c.layer) (some y)) =
      ⟨.ok (some y), Function.update m (d.slot ubatch c.layer) none, []⟩ := by
  unfold Deployment.order at h
  obtain ⟨shared, hshared, -⟩ := Option.map_eq_some_iff.mp h
  unfold Deployment.sharedOut
  rw [hshared, Option.isSome_some, if_pos rfl, exec_bind, exec_output (Function.update_self _ _ _),
    Function.update_idem]
  rfl

/-- Computing into an empty slot and handing out again leaves the slots as they were. -/
lemma update_none {k : Slot L} (hm : m k = none) : Function.update m k none = m := by
  rw [← hm, Function.update_eq_self]

/-- What a forward does, alone, from an empty slot: what it is meant to, or it gives up in a
kernel before it is through. -/
def Intended (d : Deployment L X O) (ubatch : Fin 2) (c : SlotCall L X O)
    (m : Slot L → Option O) : Prop :=
  (∃ out es, exec (d.applyQuantMethod ubatch c) m = ⟨.ok out, m, es⟩ ∧
      es ++ [.returned out none] = d.intended c) ∨
    ∃ m' es, exec (d.applyQuantMethod ubatch c) m = ⟨.error .kernel, m', es⟩ ∧
      es <+: d.intended c

/-- Without shared experts a forward runs the routed experts. -/
lemma intended_of_none (h : d.order c = none) : Intended d ubatch c m := by
  have hne : ∀ order, d.order c ≠ some order := fun order => by simp [h]
  have hfold : d.monokernelFoldsShared c = false := by
    unfold Deployment.order at h
    unfold Deployment.monokernelFoldsShared
    rw [Option.map_eq_none_iff.mp h]
    rfl
  have hpeek : ∀ pending, d.peek c pending = [] := fun pending => by
    unfold Deployment.peek
    rw [hfold]
    rfl
  obtain ⟨residual, hresidual⟩ := exec_residual d ubatch c m
  rw [hpeek] at hresidual
  rcases exec_fusedOut_of_ne (hne _) ubatch m residual with heq | ⟨es, heq, hes⟩
  · refine Or.inl ⟨none, [.experts c.layer, .finalized c.layer], ?_, ?_⟩
    · simp [Deployment.applyQuantMethod, exec_bind, exec_apply_of_ne (hne _), hresidual, heq,
        exec_sharedOut_of_none h]
    · simp [Deployment.intended, h]
  · refine Or.inr ⟨m, es, ?_, ?_⟩
    · simp [Deployment.applyQuantMethod, exec_bind, exec_apply_of_ne (hne _), hresidual, heq]
    · simp only [Deployment.intended, h]
      exact hes.trans (List.prefix_append _ _)

omit [DecidableEq L] in
/-- A call has one order. -/
lemma ne_of_order {selected : SharedExpertsOrder} (h : d.order c = some selected)
    {order : SharedExpertsOrder} (hne : selected ≠ order) : d.order c ≠ some order :=
  fun heq => hne (Option.some.inj (h.symm.trans heq))

/-- Shared experts that run first. -/
lemma intended_of_noOverlap (h : d.order c = some .noOverlap)
    (hm : m (d.slot ubatch c.layer) = none) : Intended d ubatch c m := by
  have hinside : d.order c ≠ some .mkInternalOverlapped := ne_of_order h (by decide)
  have hbehind : d.order c ≠ some .multiStreamOverlapped := ne_of_order h (by decide)
  set m' := Function.update m (d.slot ubatch c.layer) (some (d.shared c.layer c.input)) with hm'
  obtain ⟨residual, hresidual⟩ := exec_residual d ubatch c m'
  rw [hm', Function.update_self, ← hm'] at hresidual
  rcases exec_fusedOut_of_ne hinside ubatch m' residual with heq | ⟨es, heq, hes⟩
  · refine Or.inl ⟨some (d.shared c.layer c.input), .computed .noOverlap c.layer c.input ::
      d.peek c (some (d.shared c.layer c.input)) ++ [.experts c.layer, .finalized c.layer], ?_, ?_⟩
    · simp [Deployment.applyQuantMethod, exec_bind, exec_apply_of_eq h hm, hresidual, heq, ← hm',
        exec_apply_of_ne hbehind]
      rw [hm', exec_sharedOut_of_some h, update_none hm]
      simp
    · simp [Deployment.intended, h]
  · refine Or.inr ⟨m', .computed .noOverlap c.layer c.input ::
      d.peek c (some (d.shared c.layer c.input)) ++ es, ?_, ?_⟩
    · simp [Deployment.applyQuantMethod, exec_bind, exec_apply_of_eq h hm, hresidual, heq, ← hm']
    · simp only [Deployment.intended, h]
      rw [List.prefix_append_right_inj]
      exact hes.trans (List.prefix_append _ _)

/-- Shared experts that run inside the kernel. -/
lemma intended_of_mkInternalOverlapped (h : d.order c = some .mkInternalOverlapped)
    (hm : m (d.slot ubatch c.layer) = none) : Intended d ubatch c m := by
  have hfront : d.order c ≠ some .noOverlap := ne_of_order h (by decide)
  have hbehind : d.order c ≠ some .multiStreamOverlapped := ne_of_order h (by decide)
  obtain ⟨residual, hresidual⟩ := exec_residual d ubatch c m
  rw [hm] at hresidual
  rcases exec_fusedOut_of_eq h hm residual with heq | ⟨es, heq, hes⟩
  · refine Or.inl ⟨some (d.shared c.layer c.input), d.peek c none ++ [.experts c.layer,
      .computed .mkInternalOverlapped c.layer c.input, .finalized c.layer], ?_, ?_⟩
    · simp [Deployment.applyQuantMethod, exec_bind, exec_apply_of_ne hfront, hresidual, heq,
        exec_apply_of_ne hbehind, exec_sharedOut_of_some h, update_none hm]
    · simp [Deployment.intended, h]
  · refine Or.inr ⟨m, d.peek c none ++ es, ?_, ?_⟩
    · simp [Deployment.applyQuantMethod, exec_bind, exec_apply_of_ne hfront, hresidual, heq]
    · simp only [Deployment.intended, h]
      rw [List.prefix_append_right_inj]
      exact hes.trans (List.prefix_append _ _)

/-- Shared experts that run last. -/
lemma intended_of_multiStreamOverlapped (h : d.order c = some .multiStreamOverlapped)
    (hm : m (d.slot ubatch c.layer) = none) : Intended d ubatch c m := by
  have hfront : d.order c ≠ some .noOverlap := ne_of_order h (by decide)
  have hinside : d.order c ≠ some .mkInternalOverlapped := ne_of_order h (by decide)
  obtain ⟨residual, hresidual⟩ := exec_residual d ubatch c m
  rw [hm] at hresidual
  rcases exec_fusedOut_of_ne hinside ubatch m residual with heq | ⟨es, heq, hes⟩
  · refine Or.inl ⟨some (d.shared c.layer c.input), d.peek c none ++ [.experts c.layer,
      .finalized c.layer, .computed .multiStreamOverlapped c.layer c.input], ?_, ?_⟩
    · simp [Deployment.applyQuantMethod, exec_bind, exec_apply_of_ne hfront, hresidual, heq,
        exec_apply_of_eq h hm, exec_sharedOut_of_some h, update_none hm]
    · simp [Deployment.intended, h]
  · refine Or.inr ⟨m, d.peek c none ++ es, ?_, ?_⟩
    · simp [Deployment.applyQuantMethod, exec_bind, exec_apply_of_ne hfront, hresidual, heq]
    · simp only [Deployment.intended, h]
      rw [List.prefix_append_right_inj]
      exact hes.trans (List.prefix_append _ _)

/-- Whatever its order, a forward from an empty slot does what it is meant to. -/
theorem intended_of_empty (hm : m (d.slot ubatch c.layer) = none) : Intended d ubatch c m := by
  cases h : d.order c with
  | none => exact intended_of_none h
  | some order =>
    cases order with
    | noOverlap => exact intended_of_noOverlap h hm
    | mkInternalOverlapped => exact intended_of_mkInternalOverlapped h hm
    | multiStreamOverlapped => exact intended_of_multiStreamOverlapped h hm

/-- What the forwards of a microbatch do, alone, from empty slots. -/
theorem exec_microbatch (ubatch : Fin 2) (hm : ∀ l, m (d.slot ubatch l) = none)
    (calls : List (SlotCall L X O)) :
    exec (d.microbatch ubatch calls) m = ⟨.ok (), m, calls.flatMap d.intended⟩ ∨
      ∃ m' es, exec (d.microbatch ubatch calls) m = ⟨.error .kernel, m', es⟩ ∧
        es <+: calls.flatMap d.intended := by
  induction calls with
  | nil => exact Or.inl rfl
  | cons c cs ih =>
    unfold Deployment.microbatch
    rcases intended_of_empty (hm c.layer) with ⟨out, es, heq, hes⟩ | ⟨m', es, heq, hes⟩
    · rcases ih with hrest | ⟨m', es', hrest, hes'⟩
      · refine Or.inl ?_
        simp [exec_bind, heq, hrest, hm, ← hes]
      · refine Or.inr ⟨m', d.intended c ++ es', ?_, ?_⟩
        · simp [exec_bind, heq, hrest, hm, ← hes]
        · rw [List.flatMap_cons, List.prefix_append_right_inj]
          exact hes'
    · refine Or.inr ⟨m', es, ?_, ?_⟩
      · simp [exec_bind, heq]
      · exact hes.trans (List.prefix_append _ _)

end Alone

/-! ## Two microbatches -/

section Interleaved

variable {L X O : Type} {d : Deployment L X O} {ubatch : Fin 2} {c : SlotCall L X O}
  {S : Set (Slot L)}

/-- A place that may compute touches the slot of its microbatch and layer only. -/
lemma within_apply (h : d.slot ubatch c.layer ∈ S) (order : SharedExpertsOrder) :
    (d.maybeApplySharedExperts ubatch c order).Within S := by
  unfold Deployment.maybeApplySharedExperts
  cases d.order c with
  | none => trivial
  | some selected =>
    refine Prog.within_ite trivial ?_
    refine (Prog.within_get h).bind fun before => Prog.within_ite trivial ?_
    refine (Prog.within_report _).bind fun _ => (Prog.within_set h _).bind fun _ => ?_
    exact (Prog.within_get h).bind fun after => Prog.within_ite trivial trivial

/-- So does the residual of a launch. -/
lemma within_residual (h : d.slot ubatch c.layer ∈ S) : (d.residual ubatch c).Within S := by
  refine Prog.within_ite ?_ trivial
  exact (Prog.within_get h).bind fun _ => (Prog.within_report _).bind fun _ => trivial

/-- So does the routed kernel. -/
lemma within_fusedOut (h : d.slot ubatch c.layer ∈ S) (residual : Option O) :
    (d.fusedOut ubatch c residual).Within S := by
  refine Prog.Within.bind ?_ fun offered => Prog.within_ite trivial ?_
  · refine Prog.within_ite trivial ?_
    cases c.offer residual <;> trivial
  · refine (Prog.within_report _).bind fun _ => Prog.within_ite trivial ?_
    cases (d.runner c.layer).kernel with
    | monolithic => trivial
    | modular supportsAsync =>
      cases supportsAsync with
      | false => trivial
      | true => exact (within_apply h _).bind fun _ => trivial

/-- And what takes the output out of the slot. -/
lemma within_sharedOut (h : d.slot ubatch c.layer ∈ S) : (d.sharedOut ubatch c).Within S := by
  refine Prog.within_ite (Prog.Within.bind ?_ fun _ => trivial) trivial
  refine (Prog.within_get h).bind fun out => ?_
  cases out with
  | none => trivial
  | some y => exact (Prog.within_set h _).bind fun _ => trivial

/-- The forwards of a microbatch touch the slots of their own index. -/
lemma within_microbatch (h : ∀ l, d.slot ubatch l ∈ S) (calls : List (SlotCall L X O)) :
    (d.microbatch ubatch calls).Within S := by
  induction calls with
  | nil => trivial
  | cons c cs ih =>
    have hforward : (d.applyQuantMethod ubatch c).Within S := by
      refine (within_apply (h _) _).bind fun _ => (within_residual (h _)).bind fun residual => ?_
      refine (within_fusedOut (h _) residual).bind fun _ => ?_
      exact (within_apply (h _) _).bind fun _ => within_sharedOut (h _)
    refine hforward.bind fun out => (Prog.within_get (h _)).bind fun left => ?_
    exact (Prog.within_report _).bind fun _ => ih

/-- The slots of a microbatch; without dual-batch overlap all of them are those of the first. -/
def Deployment.slots (d : Deployment L X O) (ubatch : Fin 2) : Set (Slot L) :=
  {k | if d.enableDbo then k.2 = ubatch else ubatch.val = 0}

/-- Two microbatches have no slot in common. -/
lemma confined_microbatch (calls : Fin 2 → List (SlotCall L X O))
    (hdbo : d.enableDbo = false → calls 1 = []) :
    Confined d.slots fun ubatch => d.microbatch ubatch (calls ubatch) := by
  refine ⟨fun u => ?_, fun u u' hne k hk hk' => ?_⟩
  · cases henable : d.enableDbo with
    | true =>
      refine within_microbatch (fun l => ?_) _
      simp [Deployment.slots, Deployment.slot, henable]
    | false =>
      by_cases hu : u = 0
      · refine within_microbatch (fun l => ?_) _
        simp [Deployment.slots, henable, hu]
      · have hone : u = 1 := by omega
        rw [hone, hdbo henable]
        trivial
  · refine hne ?_
    unfold Deployment.slots at hk hk'
    rw [Set.mem_ofPred_eq] at hk hk'
    split_ifs at hk hk'
    · exact hk.symm.trans hk'
    · exact Fin.ext (hk.trans hk'.symm)

end Interleaved

/-- Two microbatches run interleaved, step by step, from empty slots; without dual-batch overlap
there is only the first.  At any moment what a microbatch has done is the beginning of what its
forwards are meant to do, one after the other: every one of them computes its shared output once,
at the place of its order, returns that output and leaves its slot empty.  Neither assertion about
a slot has fired, and a microbatch that is through has done everything, with its slots empty. -/
theorem slot_protocol {L X O : Type} [DecidableEq L] (d : Deployment L X O)
    (calls : Fin 2 → List (SlotCall L X O)) (hdbo : d.enableDbo = false → calls 1 = [])
    (c : Config (Fin 2) (Slot L) (Option O) SlotError (SlotEvent L X O) Unit)
    (hrun : Relation.ReflTransGen Step
      ⟨fun _ => none, fun ubatch => d.microbatch ubatch (calls ubatch), []⟩ c) (ubatch : Fin 2) :
    c.prog ubatch ≠ .raise .outputPending ∧ c.prog ubatch ≠ .raise .outputMissing ∧
      c.traceOf ubatch <+: (calls ubatch).flatMap d.intended ∧
      (c.prog ubatch = .ret () →
        c.traceOf ubatch = (calls ubatch).flatMap d.intended ∧
          ∀ k ∈ d.slots ubatch, c.store k = none) := by
  have hconfined := confined_microbatch (d := d) calls hdbo
  have halone := exec_microbatch (d := d) (m := fun _ => none) ubatch (fun _ => rfl) (calls ubatch)
  have hkernel : ∀ e, c.prog ubatch = .raise e → e = .kernel := by
    intro e hraise
    have hresult := exec_of_raise hconfined rfl hrun hraise
    rcases halone with heq | ⟨m', es, heq, -⟩
    · simp only [heq] at hresult
      cases hresult
    · simp only [heq] at hresult
      cases hresult
      rfl
  refine ⟨fun hraise => ?_, fun hraise => ?_, ?_, fun hret => ?_⟩
  · cases hkernel _ hraise
  · cases hkernel _ hraise
  · refine (trace_prefix_exec hconfined rfl hrun ubatch).trans ?_
    rcases halone with heq | ⟨m', es, heq, hes⟩
    · simp only [heq]
      exact List.prefix_refl _
    · simp only [heq]
      exact hes
  · have hagrees := exec_of_ret hconfined rfl hrun hret
    rcases halone with heq | ⟨m', es, heq, hes⟩
    · simp only [heq] at hagrees
      exact ⟨hagrees.events, hagrees.store⟩
    · simp only [heq] at hagrees
      cases hagrees.result

/-- One layer whose shared experts run on the side stream up to 256 rows, and dual-batch overlap. -/
def sampleDeployment : Deployment Unit ℕ ℕ where
  runner _ := {
    sharedExperts := some {
      disableOverlap := false
      hasStream := true
      streamTokenThreshold := 256
      contiguous := true }
    kernel := .modular false
    mkCanOverlap := false
    hasMonokernel := true
    foldShared := true
    overlap_eq := rfl }
  shared _ x := x + 1
  rows x := x
  enableDbo := true

/-- A forward whose routed experts are left to the modular kernel. -/
def sampleSlotCall (x : ℕ) : SlotCall Unit ℕ ℕ := ⟨(), x, fun _ => .declined, false⟩

/-- Two microbatches at their start, one below the threshold and one above it. -/
def sampleStart : Config (Fin 2) (Slot Unit) (Option ℕ) SlotError (SlotEvent Unit ℕ ℕ) Unit where
  store _ := none
  prog ubatch := sampleDeployment.microbatch ubatch [sampleSlotCall (3 + 300 * ubatch.val)]
  trace := []

/-- Both microbatches may run to their ends. -/
theorem slot_protocol_sample : ∃ c, Relation.ReflTransGen Step sampleStart c ∧
    c.traceOf 0 = [.peeked () none, .experts (), .finalized (),
      .computed .multiStreamOverlapped () 3, .returned (some 4) none] ∧
    c.traceOf 1 = [.computed .noOverlap () 303, .peeked () (some 304), .experts (), .finalized (),
      .returned (some 304) none] := by
  have hrun := (reach_exec sampleStart 0).trans (reach_exec _ 1)
  have hprotocol := slot_protocol sampleDeployment
    (fun ubatch => [sampleSlotCall (3 + 300 * ubatch.val)]) (fun h => Bool.noConfusion h) _ hrun
  refine ⟨_, hrun, ?_, ?_⟩
  · exact ((hprotocol 0).2.2.2 rfl).1
  · exact ((hprotocol 1).2.2.2 rfl).1

end UnimonoMoe
