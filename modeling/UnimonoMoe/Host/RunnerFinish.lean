import UnimonoMoe.Host.Runner

/-!
# Behind the op

The part of `MoERunner.forward` behind the op reduces, scales and adds the two halves, in one of
several orders.  `answer` is the value it returns.  Each step has a lemma that says what all ranks
together return from it (`returns_*`); `finish_unfolded` and `finish_folded` put them together.
-/

namespace UnimonoMoe

open Collectives

namespace MoERunner

section Answer

variable {K : Type} [Field K]

/-- The output for given halves and a factor for each: scaled, transformed, added, and without the
padding. -/
def addScaled (rn : MoERunner K) (c : K × K) (routed shared : Rows K) : Rows K :=
  narrowTo rn.truncSizes.2 ((if rn.sharedExperts.isSome then c.1 • shared else 0) +
    rn.applyRoutedOutputTransform (c.2 • narrowTo rn.truncSizes.1 routed))

/-- The output when the scale is on the routed half. -/
def addReduced (rn : MoERunner K) (routed shared : Rows K) : Rows K :=
  rn.addScaled (1, rn.routedScalingFactor) routed shared

/-- What a rank gets back when its two halves are summed over `group`. -/
def answer (rn : MoERunner K) (group : Finset rn.grid.Rank)
    (routed shared : rn.grid.Rank → Rows K) : Rows K :=
  rn.addReduced (∑ i ∈ group, routed i) (∑ i ∈ group, shared i)

/-- The ranks over which a forward sums: none but the rank itself under sequence parallelism and
when the final reduction is left to the model. -/
def finalGroup (rn : MoERunner K) (r : rn.grid.Rank) : Finset rn.grid.Rank :=
  if rn.isSequenceParallel || (rn.layer.skipFinalAllReduce && rn.routedOutputTransform.isNone) then
    {r}
  else rn.grid.members .tp r

/-- The output of the shared experts, when there are any. -/
def sharedOut (rn : MoERunner K) (call : MoECall rn.grid K) (r : rn.grid.Rank) :
    Option (Tensor rn.grid K) :=
  if rn.sharedExperts.isSome then some (rn.sharedTensor call r) else none

/-- The routed half comes out of the op already reduced, or is reduced by the modular kernel. -/
def isReduced (rn : MoERunner K) (mono : Bool) : Bool :=
  rn.fusedOutputIsReduced || rn.monokernelReduceFolded mono

/-- The factors of the shared and of the routed half, for a routed half of a given type. -/
def scales (rn : MoERunner K) (dtype : Dtype) : K × K :=
  if dtype = .float16 ∧ rn.sharedExperts.isSome then (rn.routedScalingFactor⁻¹, 1)
  else (1, rn.routedScalingFactor)

/-- What the zero experts add to the tokens of a rank when its experts are selected. -/
def zeroTerm (rn : MoERunner K) (call : MoECall rn.grid K) (r : rn.grid.Rank) : Rows K :=
  if rn.zeroExpertRouter then (call.rank r).zeroSelected else 0

/-- The scale goes to the routed half. -/
def ScalesRouted (rn : MoERunner K) : Prop :=
  rn.inDtype ≠ .float16 ∨ rn.sharedExperts = none ∨ rn.routedScalingFactor = 1

/-- Then its factors are those of any other type. -/
lemma ScalesRouted.scales_eq {rn : MoERunner K} (h : rn.ScalesRouted) :
    rn.scales rn.inDtype = (1, rn.routedScalingFactor) := by
  unfold scales
  rcases h with h | h | h <;> simp [h]

end Answer

section Finish

variable {K : Type} [Field K] {rn : MoERunner K} {call : MoECall rn.grid K} {r : rn.grid.Rank}

/-- The ranks over which a step sums: the tensor-parallel group, or the rank alone. -/
def stepGroup (rn : MoERunner K) (b : Bool) (r : rn.grid.Rank) : Finset rn.grid.Rank :=
  if b then rn.grid.members .tp r else {r}

omit [Field K] in
/-- The ranks of a tensor-parallel group hold the same tokens. -/
lemma home_eq_of_mem {b : Bool} (hsp : b = true → rn.isSequenceParallel = false)
    {i : rn.grid.Rank} (hi : i ∈ rn.stepGroup b r) : rn.home i = rn.home r := by
  cases b with
  | false => rw [Finset.mem_singleton.mp hi]
  | true =>
    obtain ⟨hd, hp⟩ := Grid.mem_tp.mp hi
    simp [home, hsp rfl, hd, hp]

/-- A sum of a step, read at the tokens of the rank. -/
lemma sum_at_home {b : Bool} (hsp : b = true → rn.isSequenceParallel = false)
    (f : rn.grid.Rank → rn.grid.Home → Rows K) :
    (∑ i ∈ rn.stepGroup b r, f i) (rn.home r) = ∑ i ∈ rn.stepGroup b r, f i (rn.home i) := by
  rw [Finset.sum_apply]
  exact Finset.sum_congr rfl fun i hi => by rw [home_eq_of_mem hsp hi]

omit [Field K] in
/-- A rank without tensor-parallel peers. -/
lemma members_tp_eq_singleton (h : rn.grid.tp ≤ 1) (r : rn.grid.Rank) :
    rn.grid.members .tp r = {r} := by
  have : Subsingleton (Fin rn.grid.tp) := Fin.subsingleton_iff_le_one.mpr h
  ext i
  rw [Grid.mem_tp, Finset.mem_singleton]
  constructor
  · rintro ⟨hd, hp⟩
    exact Prod.ext hd (Prod.ext hp (Subsingleton.elim _ _))
  · rintro rfl
    exact ⟨rfl, rfl⟩

/-- The shared experts' output for the rank's own tokens. -/
lemma sharedTensor_value (r : rn.grid.Rank) :
    (rn.sharedTensor call r).value (rn.home r) = (call.rank r).shared := by
  simp [sharedTensor, restrict]

/-! ### The steps behind the op -/

/-- `_maybe_reduce_routed_output_before_transform` has something to do. -/
def reducesEarly (rn : MoERunner K) (isReduced : Bool) : Bool :=
  rn.routedOutputTransform.isSome && !rn.isSequenceParallel && rn.reduces && !isReduced

/-- `_maybe_reduce_shared_expert_output` has something to do, given shared experts. -/
def reducesShared (rn : MoERunner K) (isReduced : Bool) : Bool :=
  !rn.isSequenceParallel && isReduced

/-- `_maybe_reduce_final_output` has something to do. -/
def reducesLate (rn : MoERunner K) (isReduced : Bool) : Bool :=
  !rn.isSequenceParallel && !rn.layer.skipFinalAllReduce && rn.reduces && !isReduced

/-- All ranks enter an all-reduce. -/
lemma returns_allReduce {α : Type} {p : rn.grid.Rank → rn.Run α}
    (x : rn.grid.Rank → rn.grid.Home → Rows K) (f : rn.grid.Rank → (rn.grid.Home → Rows K) → α)
    (h : ∀ r, p r = .enter .allReduce (x r) fun out => .ret (f r out)) :
    Returns p fun r => f r (∑ i ∈ rn.stepGroup true r, x i) :=
  Returns.enter .allReduce x _ h (Returns.ret fun _ => rfl)

/-- The early all-reduce of the routed half. -/
lemma returns_reduceRouted (fused : rn.grid.Rank → Tensor rn.grid K) (isReduced : Bool) :
    Returns (fun r => rn.reduceRoutedBeforeTransform (fused r) isReduced) fun r =>
      ({ fused r with value := ∑ i ∈ rn.stepGroup (rn.reducesEarly isReduced) r, (fused i).value },
        isReduced || rn.reducesEarly isReduced) := by
  unfold reduceRoutedBeforeTransform
  cases hearly : rn.reducesEarly isReduced with
  | true =>
    refine Returns.congr (returns_allReduce (fun i => (fused i).value)
      (fun r out => ({ fused r with value := out }, true)) fun r => ?_) fun r => ?_
    · exact if_pos hearly
    · simp
  | false =>
    refine Returns.ret fun r => ?_
    rw [if_neg (by simpa [reducesEarly] using hearly)]
    simp [stepGroup]

/-- That of the shared half. -/
lemma returns_reduceShared (isReduced : Bool) :
    Returns (fun r => rn.reduceSharedExpertOutput (rn.sharedOut call r) isReduced) fun r =>
      (rn.sharedOut call r).map fun out => { out with
        value := ∑ i ∈ rn.stepGroup (rn.reducesShared isReduced) r,
          (rn.sharedTensor call i).value } := by
  unfold reduceSharedExpertOutput sharedOut
  by_cases hshared : rn.sharedExperts.isSome
  · simp only [hshared, if_true, Option.map_some]
    cases hreduces : rn.reducesShared isReduced with
    | true =>
      refine returns_allReduce (fun i => (rn.sharedTensor call i).value)
        (fun r v => some { rn.sharedTensor call r with value := v }) fun r => ?_
      exact if_pos hreduces
    | false =>
      refine Returns.ret fun r => ?_
      rw [if_neg (by simpa [reducesShared] using hreduces)]
      simp [stepGroup]
  · exact Returns.ret fun r => by simp [hshared]

/-- The late all-reduce. -/
lemma returns_reduceFinal (states : rn.grid.Rank → rn.grid.Home → Rows K) (n : Option ℕ)
    (isReduced : Bool) (hskip : (rn.layer.skipFinalAllReduce && rn.fusedOutputIsReduced) = false) :
    Returns (fun r => rn.reduceFinalOutput (states r) n isReduced) fun r h =>
      narrowTo n ((∑ i ∈ rn.stepGroup (rn.reducesLate isReduced) r, states i) h) := by
  unfold reduceFinalOutput
  cases hlate : rn.reducesLate isReduced with
  | true =>
    refine returns_allReduce states (fun _ out h => narrowTo n (out h)) fun r => ?_
    exact (if_neg (by simp [hskip])).trans (if_pos hlate)
  | false =>
    refine Returns.ret fun r => ?_
    rw [if_neg (by simp [hskip]), if_neg (by simpa [reducesLate] using hlate)]
    simp [stepGroup]

end Finish

section Answer

variable {K : Type} [Field K] [DecidableEq K] {rn : MoERunner K} {mono : Bool}
  {call : MoECall rn.grid K} {fusedOut : rn.grid.Rank → Tensor rn.grid K}
  {routed : rn.grid.Rank → Rows K} {r : rn.grid.Rank}

/-- Scaling the two halves. -/
lemma applyRoutedScale_eq {shared : Option (Tensor rn.grid K)} {fused : Tensor rn.grid K}
    (hshared : shared.isSome = rn.sharedExperts.isSome) :
    rn.applyRoutedScale shared fused = (shared.map (Tensor.map ((rn.scales fused.dtype).1 • ·)),
      fused.map ((rn.scales fused.dtype).2 • ·)) := by
  have hid : ∀ x : Tensor rn.grid K, x.map (fun v => v) = x := fun _ => rfl
  unfold applyRoutedScale scales
  by_cases hscale : rn.routedScalingFactor = 1
  · cases shared <;> simp [hscale, hid]
  · rw [if_pos hscale]
    cases shared with
    | none => simp [← hshared]
    | some x =>
      by_cases hdtype : fused.dtype = .float16
      · simp [← hshared, hdtype, hid]
      · simp [hdtype, hid]

/-- The routed and the shared half of a rank behind the early reductions, scaled by `c` and
summed. -/
def halves (rn : MoERunner K) (call : MoECall rn.grid K) (c : K × K)
    (fusedOut : rn.grid.Rank → Tensor rn.grid K) (isReduced : Bool) (r : rn.grid.Rank) :
    rn.grid.Home → Rows K := fun h =>
  (if rn.sharedExperts.isSome then
      c.1 • (∑ i ∈ rn.stepGroup (rn.reducesShared (isReduced || rn.reducesEarly isReduced)) r,
        (rn.sharedTensor call i).value) h
    else 0) +
  rn.applyRoutedOutputTransform (c.2 • (∑ i ∈ rn.stepGroup (rn.reducesEarly isReduced) r,
      ((fusedOut i).map (narrowTo rn.truncSizes.1)).value) h)

/-- The part of `forward` behind the op, when the fold is off. -/
lemma returns_finishForward (hfold : rn.monokernelFoldsShared mono = false)
    (hskip : (rn.layer.skipFinalAllReduce && rn.fusedOutputIsReduced) = false) {c : K × K}
    (hscale : ∀ r, rn.scales (fusedOut r).dtype = c) :
    Returns (fun r => rn.finishForward mono (rn.sharedOut call r) (fusedOut r)) fun r h =>
      narrowTo rn.truncSizes.2 ((∑ i ∈ rn.stepGroup
        (rn.reducesLate (rn.isReduced mono || rn.reducesEarly (rn.isReduced mono))) r,
          rn.halves call c fusedOut (rn.isReduced mono) i) h) := by
  have heq : ∀ r, rn.finishForward mono (rn.sharedOut call r) (fusedOut r) =
      rn.reduceRoutedBeforeTransform ((fusedOut r).map (narrowTo rn.truncSizes.1))
          (rn.isReduced mono) >>= fun x =>
        rn.reduceSharedExpertOutput (rn.sharedOut call r) x.2 >>= fun shared =>
          rn.reduceFinalOutput (sumHalves (rn.applyRoutedScale shared x.1).1
            ((rn.applyRoutedScale shared x.1).2.map rn.applyRoutedOutputTransform))
              rn.truncSizes.2 x.2 := by
    intro r
    unfold finishForward
    simp only [hfold, Bool.false_eq_true, if_false, Prog.ret_bind]
    rfl
  simp only [heq]
  refine (returns_reduceRouted _ _).bind ((returns_reduceShared _).bind ?_)
  refine (returns_reduceFinal _ _ _ hskip).congr fun r => funext fun h => ?_
  refine congrArg _ (congrFun (Finset.sum_congr rfl fun i _ => funext fun h => ?_) h)
  have hdtype : rn.scales ((fusedOut i).map (narrowTo rn.truncSizes.1)).dtype = c := hscale i
  by_cases hshared : rn.sharedExperts.isSome
  · rw [applyRoutedScale_eq (by simp [sharedOut, hshared])]
    simp [halves, sharedOut, hshared, sumHalves, Tensor.map, ← hdtype]
    rfl
  · rw [applyRoutedScale_eq (by simp [sharedOut, hshared])]
    simp [halves, sharedOut, hshared, sumHalves, Tensor.map, ← hdtype]

omit [DecidableEq K] in
/-- The halves of a rank at its own tokens. -/
lemma halves_at_home {isReduced : Bool} {c : K × K}
    (hfused : ∀ r, (fusedOut r).value (rn.home r) = routed r) (r : rn.grid.Rank) :
    rn.halves call c fusedOut isReduced r (rn.home r) =
      (if rn.sharedExperts.isSome then
          c.1 • ∑ i ∈ rn.stepGroup (rn.reducesShared (isReduced || rn.reducesEarly isReduced)) r,
            (call.rank i).shared
        else 0) +
      rn.applyRoutedOutputTransform (c.2 • narrowTo rn.truncSizes.1
        (∑ i ∈ rn.stepGroup (rn.reducesEarly isReduced) r, routed i)) := by
  have hspEarly : rn.reducesEarly isReduced = true → rn.isSequenceParallel = false := by
    intro h
    simp only [reducesEarly, Bool.and_eq_true, Bool.not_eq_true'] at h
    exact h.1.1.2
  have hspShared : rn.reducesShared (isReduced || rn.reducesEarly isReduced) = true →
      rn.isSequenceParallel = false := by
    intro h
    simp only [reducesShared, Bool.and_eq_true, Bool.not_eq_true'] at h
    exact h.1
  unfold halves
  rw [sum_at_home hspShared, sum_at_home hspEarly, map_sum]
  simp only [sharedTensor_value, Tensor.map, hfused]

omit [Field K] [DecidableEq K] in
/-- A reduced routed half leaves nothing to a later reduction by the model. -/
lemma skip_of_isReduced (hskip : (rn.layer.skipFinalAllReduce && rn.fusedOutputIsReduced) = false)
    (hreduced : rn.isReduced mono = true) : rn.layer.skipFinalAllReduce = false := by
  rcases Bool.or_eq_true_iff.mp hreduced with h | h
  · simpa [h] using hskip
  · simp only [monokernelReduceFolded, fusedTpEligible, Bool.and_eq_true, Bool.not_eq_true'] at h
    exact h.1.2.2

/-- Without the fold a forward returns `answer`, provided the op hands out the routed half summed
over the group when it claims so, and the rank's own part otherwise. -/
lemma finish_unfolded (call : MoECall rn.grid K) (hfold : rn.monokernelFoldsShared mono = false)
    (hsp : rn.isReduced mono = true → rn.isSequenceParallel = false)
    (hsharded : rn.reduces = false → rn.grid.tp ≤ 1)
    (hskip : (rn.layer.skipFinalAllReduce && rn.fusedOutputIsReduced) = false)
    {c : K × K} (hscale : ∀ r, rn.scales (fusedOut r).dtype = c)
    (hfused : ∀ r, (fusedOut r).value (rn.home r) =
      ∑ i ∈ rn.stepGroup (rn.isReduced mono) r, routed i) :
    ∃ v, Returns (fun r => rn.finishForward mono (rn.sharedOut call r) (fusedOut r)) v ∧
      ∀ r, v r (rn.home r) = rn.addScaled c (∑ i ∈ rn.finalGroup r, routed i)
        (∑ i ∈ rn.finalGroup r, (call.rank i).shared) := by
  refine ⟨_, returns_finishForward hfold hskip hscale, fun r => ?_⟩
  have hspLate : ∀ b, rn.reducesLate b = true → rn.isSequenceParallel = false := by
    intro b h
    simp only [reducesLate, Bool.and_eq_true, Bool.not_eq_true'] at h
    exact h.1.1.1
  rw [sum_at_home (hspLate _), Finset.sum_congr rfl fun i _ => halves_at_home hfused i]
  cases hreduced : rn.isReduced mono with
  | true =>
    have hlate : rn.reducesLate true = false := by simp [reducesLate]
    have hearly : rn.reducesEarly true = false := by simp [reducesEarly]
    have hshared : rn.reducesShared true = true := by simp [reducesShared, hsp hreduced]
    have hgroup : rn.finalGroup r = rn.stepGroup true r := by
      simp [finalGroup, stepGroup, hsp hreduced, skip_of_isReduced hskip hreduced]
    rw [hgroup]
    simp [hearly, hlate, hshared, addScaled, stepGroup]
  | false =>
    cases hearly : rn.reducesEarly false with
    | true =>
      have hlate : rn.reducesLate true = false := by simp [reducesLate]
      simp only [reducesEarly, Bool.and_eq_true, Bool.not_eq_true', Bool.not_false,
        and_true] at hearly
      obtain ⟨⟨htransform, hnosp⟩, hreduces⟩ := hearly
      have hshared : rn.reducesShared true = true := by simp [reducesShared, hnosp]
      have hgroup : rn.finalGroup r = rn.stepGroup true r := by
        simp [finalGroup, stepGroup, hnosp, Option.isNone_eq_false_iff.mpr htransform]
      rw [hgroup]
      simp [hlate, hshared, addScaled, stepGroup]
    | false =>
      have hshared : rn.reducesShared false = false := by simp [reducesShared]
      cases hlate : rn.reducesLate false with
      | true =>
        obtain ⟨⟨hnosp, hnoskip⟩, hreduces⟩ : (rn.isSequenceParallel = false ∧
            rn.layer.skipFinalAllReduce = false) ∧ rn.reduces = true := by
          simpa [reducesLate] using hlate
        have htransform : rn.routedOutputTransform = none := by
          simpa [reducesEarly, hnosp, hreduces] using hearly
        have hgroup : rn.finalGroup r = rn.stepGroup true r := by
          simp [finalGroup, stepGroup, hnosp, hnoskip]
        rw [hgroup]
        by_cases hs : rn.sharedExperts.isSome
        · simp [addScaled, hlate, hshared, htransform, applyRoutedOutputTransform, stepGroup, hs,
            Finset.sum_add_distrib, Finset.smul_sum, map_sum]
        · simp [addScaled, hlate, htransform, applyRoutedOutputTransform, stepGroup, hs,
            Finset.smul_sum, map_sum]
      | false =>
        have hgroup : rn.finalGroup r = {r} := by
          unfold finalGroup
          split_ifs with hlocal
          · rfl
          · have hreduces : rn.reduces = false := by
              by_contra hreduces
              rw [Bool.not_eq_false] at hreduces
              simp only [Bool.or_eq_true, not_or, Bool.not_eq_true] at hlocal
              simp [reducesEarly, hreduces, hlocal.1] at hearly
              simp [reducesLate, hreduces, hlocal.1] at hlate
              simp [hearly, hlate] at hlocal
            exact members_tp_eq_singleton (hsharded hreduces) r
        rw [hgroup]
        simp [addScaled, hlate, hshared, stepGroup]

omit [Field K] [DecidableEq K] in
/-- What the fold needs. -/
lemma folds_spec (hfold : rn.monokernelFoldsShared mono = true) :
    rn.sharedExperts.isSome = true ∧ fusedTpEligible mono rn.layer = true ∧
      rn.plan.usable = true ∧ rn.plan.foldShared = true ∧ rn.routedOutputTransform = none ∧
        rn.isSequenceParallel = false ∧ rn.inDtype ≠ .float16 := by
  unfold monokernelFoldsShared at hfold
  split_ifs at hfold with hshared hreduced hfolds
  simp only [Bool.not_eq_true', Bool.not_eq_false] at hreduced hfolds
  simp only [monokernelFoldsSharedOutput, Bool.and_eq_true] at hfolds
  simp only [Bool.and_eq_true, Option.isNone_iff_eq_none, Bool.not_eq_true', decide_eq_true_eq]
    at hfold
  exact ⟨by simpa [Option.isSome_iff_ne_none] using hshared, hfolds.1, hfolds.2.1, hfolds.2.2,
    hfold.1.1, hfold.1.2, hfold.2⟩

/-- Under the fold nothing is left to do behind the op. -/
lemma finish_folded (hfold : rn.monokernelFoldsShared mono = true)
    (hpad : rn.truncSizes.1 = none)
    (hskip : (rn.layer.skipFinalAllReduce && rn.fusedOutputIsReduced) = false)
    (hfused : ∀ r, (fusedOut r).value (rn.home r) = ∑ i ∈ rn.grid.members .tp r,
      (rn.routedScalingFactor • routed i + (call.rank i).shared)) :
    ∃ v, Returns (fun r => rn.finishForward mono (rn.sharedOut call r) (fusedOut r)) v ∧
      ∀ r, v r (rn.home r) =
        rn.answer (rn.finalGroup r) routed fun i => (call.rank i).shared := by
  obtain ⟨hshared, heligible, husable, _, htransform, hsp, _⟩ := folds_spec hfold
  have hreduced : rn.isReduced mono = true := by
    simp [isReduced, monokernelReduceFolded, heligible, husable]
  refine ⟨fun r h => narrowTo rn.truncSizes.2 ((fusedOut r).value h), Returns.ret fun r => ?_,
    fun r => ?_⟩
  · have hdone : (rn.fusedOutputIsReduced || rn.monokernelReduceFolded mono) = true := hreduced
    simp [finishForward, hfold, hpad, reduceRoutedBeforeTransform, htransform, narrowTo,
      reduceSharedExpertOutput, sumHalves, Tensor.map, applyRoutedOutputTransform,
      reduceFinalOutput, hskip, hdone]
  · have hgroup : rn.finalGroup r = rn.grid.members .tp r := by
      simp [finalGroup, hsp, skip_of_isReduced hskip hreduced]
    rw [hgroup]
    simp [hfused, answer, addReduced, addScaled, hshared, htransform, hpad,
      applyRoutedOutputTransform, narrowTo, Finset.sum_add_distrib, Finset.smul_sum, add_comm]

end Answer

end MoERunner

end UnimonoMoe
