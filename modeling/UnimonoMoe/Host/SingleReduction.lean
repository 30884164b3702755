import Mathlib.Tactic.NormNum
import UnimonoMoe.Host.LoadVote
import UnimonoMoe.Host.RunnerOp

/-!
# One reduction of each half

Whether the routed half of a forward is reduced by the fused epilogue, inside the op, early or late,
and whether it already contains the shared half, each half is summed over the ranks exactly once.
`single_reduction` is this for a tensor-parallel group: a forward returns the same value with the
monokernel as without it.  The value has the term of the zero experts only where experts have been
selected, so a router with zero experts and the monokernel do not go together.
-/

namespace UnimonoMoe

open Collectives

section Law

variable {K : Type} [Field K] [DecidableEq K] (rn : MoERunner K) (call : MoECall rn.grid K)

open MoERunner

omit [Field K] [DecidableEq K] in
/-- On a tensor-parallel group a modular kernel that leaves the shared experts alone has nobody to
wait for. -/
lemma localModular_of_group (hdp : rn.grid.dp = 1) (hpcp : rn.grid.pcp = 1)
    (hsp : rn.isSequenceParallel = false)
    (hoverlap : rn.layer.mkCanOverlapSharedExperts = false) : rn.LocalModular := by
  have hasync := rn.overlap_eq
  rw [hoverlap] at hasync
  unfold LocalModular
  cases hpf : rn.prepareFinalize with
  | noDPEP => exact Or.inl rfl
  | naiveDPEP =>
    have : Subsingleton (Fin rn.grid.pcp) := Fin.subsingleton_iff_le_one.mpr hpcp.le
    refine Or.inr ⟨rfl, fun r => ?_⟩
    have hcomm : rn.commGroup = .pcp := by simp [commGroup, hsp, hdp]
    ext i
    rw [hcomm, Grid.mem_pcp, Finset.mem_singleton]
    constructor
    · rintro ⟨hd, ht⟩
      exact Prod.ext hd (Prod.ext (Subsingleton.elim _ _) ht)
    · rintro rfl
      exact ⟨rfl, rfl⟩
  | deepEPHT => simp [hpf, PrepareFinalize.supportsAsync] at hasync

/-- On a tensor-parallel group a forward returns the same value with the monokernel as without it:
the scaled sum of the routed halves and the sum of the shared halves, each summed over the group
once, unless the model reduces later, and the term of the zero experts.  Where the monokernel takes
the call, the scale has to be on the routed half and the router to have no zero experts. -/
theorem single_reduction (hdp : rn.grid.dp = 1) (hpcp : rn.grid.pcp = 1)
    (hsp : rn.isSequenceParallel = false) (hsharded : 1 < rn.grid.tp → rn.reduces = true)
    (hskip : rn.layer.skipFinalAllReduce = true → rn.fusedOutputIsReduced = false)
    (hlaunch : rn.LaunchesSucceed call) (hptr : rn.NoAlias call)
    (hserved : (∃ r, rn.serves true call r (rn.dispatched r) = true) →
      rn.ScalesRouted ∧ rn.zeroExpertRouter = false)
    (hpad : rn.monokernelFoldsShared true = true → rn.truncSizes.1 = none) :
    ∃ v, Returns (fun r => rn.forward true call r) v ∧
      Returns (fun r => rn.forward false call r) v ∧
      ((rn.layer.skipFinalAllReduce = true → rn.routedOutputTransform ≠ none) →
        ∀ r, v r = rn.addScaled (rn.scales rn.inDtype)
          (∑ i, (call.rank i).routed (rn.home i)) (∑ i, (call.rank i).shared) +
            rn.zeroTerm call r) := by
  have hgather : rn.gathersPcp = false := by simp [gathersPcp, hpcp]
  have hsharded' : rn.reduces = false → rn.grid.tp ≤ 1 := by
    intro h
    by_contra htp
    rw [hsharded (not_le.mp htp)] at h
    cases h
  have : Subsingleton (Fin rn.grid.dp) := Fin.subsingleton_iff_le_one.mpr hdp.le
  have : Subsingleton (Fin rn.grid.pcp) := Fin.subsingleton_iff_le_one.mpr hpcp.le
  have hserves : (rn.ScalesRouted ∧ rn.zeroExpertRouter = false) ∨
      ∀ r, rn.serves true call r (rn.dispatched r) = false := by
    by_cases h : ∃ r, rn.serves true call r (rn.dispatched r) = true
    · exact Or.inl (hserved h)
    · exact Or.inr fun r => Bool.not_eq_true _ ▸ fun hr => h ⟨r, hr⟩
  have hreturns : ∀ mono, (mono = true → rn.monokernelFoldsShared mono = true →
      rn.truncSizes.1 = none) → ((rn.ScalesRouted ∧ rn.zeroExpertRouter = false) ∨
        ∀ r, rn.serves mono call r (rn.dispatched r) = false) →
      Returns (fun r => rn.forward mono call r) fun r => rn.addScaled (rn.scales rn.inDtype)
        (∑ i ∈ rn.finalGroup r, rn.contribution call i)
          (∑ i ∈ rn.finalGroup r, (call.rank i).shared) + rn.zeroTerm call r := by
    intro mono hpad hserves
    cases hoverlap : rn.layer.mkCanOverlapSharedExperts with
    | true =>
      refine returns_forward_async hoverlap hdp.le hpcp.le hsp ?_ hsharded'
      by_contra h
      have hreduced := hskip (Bool.not_eq_false _ ▸ h)
      simp [fusedOutputIsReduced, (of_overlap true hoverlap).1,
        PrepareFinalize.outputIsReduced] at hreduced
    | false =>
      have hlocal := localModular_of_group rn hdp hpcp hsp hoverlap
      refine returns_forward_of_local hdp.le hoverlap hlocal hlaunch hptr (fun h => ⟨hgather, ?_⟩)
        (fun _ => hsp) hsharded' (hserves.imp_left And.left) fun hzero => ⟨hgather, ?_⟩
      · cases mono with
        | true => exact hpad rfl h
        | false => exact absurd h (by simp [(not_folded_without rn).2])
      · exact hserves.resolve_left fun h => by simp [hzero] at h
  refine ⟨_, hreturns true (fun _ => hpad) hserves, hreturns false (fun h => Bool.noConfusion h)
    (Or.inr fun r => serves_without call r _), fun hlater r => ?_⟩
  have hgroup : rn.finalGroup r = Finset.univ := by
    have hlate : (rn.layer.skipFinalAllReduce && rn.routedOutputTransform.isNone) = false := by
      cases hs : rn.layer.skipFinalAllReduce with
      | true => simpa [Option.isSome_iff_ne_none] using hlater hs
      | false => rfl
    ext i
    simp [finalGroup, hsp, hlate, Grid.mem_tp, Subsingleton.elim i.1 r.1,
      Subsingleton.elim i.2.1 r.2.1]
  have hown : rn.contribution call = fun i => (call.rank i).routed (rn.home i) := by
    funext i
    simp [contribution, hgather]
  simp only [hgroup, hown]

end Law

section Examples

open MoERunner

/-- A plan that takes four tokens in two chunks and folds the shared half. -/
def foldingPlan : FusedTPPlan := ⟨true, true, ⟨[(4, 2)], by decide⟩, 14, 1⟩

/-- A layer with shared experts and a scale of `2` on two tensor-parallel ranks. -/
def foldingRunner : MoERunner ℚ where
  grid := ⟨1, 1, 2⟩
  layer := pairLayer
  epSize := 1
  isSequenceParallel := false
  useAll2AllKernels := false
  prepareFinalize := .noDPEP
  inDtype := .bfloat16
  hiddenDim := 2048
  skipForwardPadding := false
  hiddenSize := 2048
  sharedExpertsInput := none
  routedInputTransform := none
  routedOutputTransform := none
  sharedExperts := some ⟨false, true, 0, true⟩
  zeroExpertRouter := false
  routedScalingFactor := 2
  plan := foldingPlan
  ubatch := 0
  poolBase := 512
  overlap_eq := rfl
  slot_lt := by decide

/-- Four tokens: every entry of a rank's routed part is `1`, of its shared part `10`. -/
def foldingCall : MoECall foldingRunner.grid ℚ where
  tokens _ _ := 4
  rank _ := ⟨fun _ _ _ => 1, fun _ _ => 10, true, false, 0, 0, 0, none, 0⟩

/-- The fused epilogue and the modular kernel agree on this call: `(10 + 10) + 2 * (1 + 1)`. -/
theorem single_reduction_foldingRunner : ∃ v,
    Returns (fun r => foldingRunner.forward true foldingCall r) v ∧
      Returns (fun r => foldingRunner.forward false foldingCall r) v ∧
      ∀ r, v r = fun _ _ => 24 := by
  have hlaunch : foldingRunner.LaunchesSucceed foldingCall := fun r =>
    ⟨fun _ => rfl, fun _ _ e => by
      have hgo : foldingRunner.launch foldingCall (foldingRunner.dispatched r)
          (foldingRunner.residualAt true foldingCall r) = .ok (some ⟨2, 14, true⟩) := rfl
      rw [hgo]
      exact fun h => by cases h⟩
  have hptr : foldingRunner.NoAlias foldingCall := fun _ => ⟨show 0 ≠ 512 by decide,
    show 0 ≠ 512 by decide⟩
  obtain ⟨v, hfused, hmodular, hv⟩ := single_reduction foldingRunner foldingCall rfl
    rfl rfl (fun _ => rfl) (fun h => Bool.noConfusion h) hlaunch hptr
    (fun _ => ⟨Or.inl (by decide), rfl⟩) (fun _ => rfl)
  refine ⟨v, hfused, hmodular, fun r => (hv (fun h => Bool.noConfusion h) r).trans ?_⟩
  have htrunc : foldingRunner.truncSizes = (none, none) := rfl
  have hshared : foldingRunner.sharedExperts.isSome = true := rfl
  have htransform : foldingRunner.routedOutputTransform = none := rfl
  have hcard : Fintype.card foldingRunner.grid.Rank = 2 := rfl
  have hzero : foldingRunner.zeroTerm foldingCall r = 0 := rfl
  rw [hzero, add_zero]
  funext i j
  have hdtype : foldingRunner.scales foldingRunner.inDtype = (1, 2) := rfl
  simp only [addScaled, htrunc, hshared, htransform, hdtype, narrowTo,
    applyRoutedOutputTransform, foldingCall, if_true, Finset.sum_const, Finset.card_univ, hcard]
  norm_num

/-- The same layer in `float16` on a single rank. -/
def halfRunner : MoERunner ℚ :=
  { foldingRunner with
    grid := ⟨1, 1, 1⟩
    layer := { pairLayer with tpSize := 1, tpSize_of_ep := fun _ => rfl }
    inDtype := .float16 }

/-- One token, on a rank where the ordinary monokernel fails. -/
def halfCall : MoECall halfRunner.grid ℚ where
  tokens _ _ := 1
  rank _ := ⟨fun _ _ _ => 1, fun _ _ => 10, false, false, 0, 0, 0, none, 0⟩

/-- In `float16` the scale goes to the shared half, inverted: with and without the monokernel the
forward returns `10 / 2 + 1` and not `2 * 1 + 10`. -/
theorem half_precision_scales_shared : ∃ v,
    Returns (fun r => halfRunner.forward true halfCall r) v ∧
      Returns (fun r => halfRunner.forward false halfCall r) v ∧
        ∀ r, v r ≠ halfRunner.routedScalingFactor •
          (∑ i, (halfCall.rank i).routed (halfRunner.home i)) + ∑ i, (halfCall.rank i).shared := by
  have hop : ∀ mono r, halfRunner.forwardImpl mono halfCall r =
      .ret (some (halfRunner.sharedTensor halfCall r),
        halfRunner.kernelOut halfCall r {halfRunner.home r} .float16 0, some (1, 0)) := by
    intro mono r
    cases mono <;> rfl
  have hscale : halfRunner.routedScalingFactor = 2 := rfl
  have hfinish : ∀ mono shared (fused : Tensor halfRunner.grid ℚ), fused.dtype = .float16 →
      halfRunner.finishForward mono (some shared) fused =
        .ret fun h => (2 : ℚ)⁻¹ • shared.value h + fused.value h := by
    intro mono shared fused hdtype
    have hfold : halfRunner.monokernelFoldsShared mono = false := by cases mono <;> rfl
    have hfolded : halfRunner.monokernelReduceFolded mono = false := by cases mono <;> rfl
    have htrunc : halfRunner.truncSizes = (none, none) := rfl
    have hreduces : halfRunner.reduces = false := rfl
    have htransform : halfRunner.routedOutputTransform = none := rfl
    have hunreduced : halfRunner.fusedOutputIsReduced = false := rfl
    simp [finishForward, hfold, hfolded, htrunc, narrowTo, reduceRoutedBeforeTransform, htransform,
      reduceSharedExpertOutput, hreduces, applyRoutedScale, hscale, hunreduced, reduceFinalOutput,
      Tensor.map, hdtype, applyRoutedOutputTransform, sumHalves]
  have hforward : ∀ mono r, halfRunner.forward mono halfCall r = .ret fun _ _ => 6 := by
    intro mono r
    unfold forward
    rw [hop]
    simp only [Prog.ret_bind, hfinish _ _ (halfRunner.kernelOut halfCall r _ .float16 0) rfl]
    refine congrArg Prog.ret (funext fun i => funext fun j => ?_)
    rw [sharedTensor_value]
    simp [kernelOut, restrict, halfCall]
    norm_num
  refine ⟨fun _ _ _ => 6, Returns.ret (hforward true), Returns.ret (hforward false), fun r h => ?_⟩
  have hentry := congrFun (congrFun h 0) 0
  have hcard : Fintype.card halfRunner.grid.Rank = 1 := rfl
  simp only [hscale, halfCall, Finset.sum_const, Finset.card_univ, hcard] at hentry
  norm_num at hentry

end Examples

end UnimonoMoe
