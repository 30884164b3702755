import UnimonoMoe.Host.RunnerFinish

/-!
# The op of the runner

The routed half of the op comes out of the fused epilogue, the ordinary monokernel or the modular
kernel, rank by rank (`returns_routed`).  What is still partial is combined and reduced inside the
op when the monokernel path has declared itself reduced (`returns_reduceInside`).  `returns_forward`
adds dispatch, combine and the part behind the op.
-/

namespace UnimonoMoe

open Collectives

namespace MoERunner

section Op

variable {K : Type} [Field K] [DecidableEq K] {rn : MoERunner K} {mono : Bool}
  {call : MoECall rn.grid K} {batch : rn.grid.Rank → Finset rn.grid.Home} {r : rn.grid.Rank}

/-- The modular kernel of a rank does not wait for other ranks. -/
def LocalModular (rn : MoERunner K) : Prop :=
  rn.prepareFinalize = .noDPEP ∨
    rn.prepareFinalize = .naiveDPEP ∧ ∀ r, rn.grid.members rn.commGroup r = {r}

/-- The launch that `fused_tp_launch` decides on. -/
def launch (rn : MoERunner K) (call : MoECall rn.grid K) (batch : Finset rn.grid.Home)
    (residual : Option (Tensor rn.grid K)) : Except LaunchError (Option FusedLaunch) :=
  fusedTpLaunch rn.plan rn.layer.hDim (call.rows batch) (residual.map (rn.asResidual call))
    rn.ubatch

/-- The shared experts' output when the routed kernel is launched. -/
def pendingAtLaunch (rn : MoERunner K) (call : MoECall rn.grid K) (r : rn.grid.Rank) :
    Option (Tensor rn.grid K) :=
  match rn.sharedExperts with
  | none => none
  | some shared =>
    if rn.sharedExpertsOrder shared (call.rows {rn.home r}) = .noOverlap then
      some (rn.sharedTensor call r)
    else none

/-- The residual handed to the launch. -/
def residualAt (rn : MoERunner K) (mono : Bool) (call : MoECall rn.grid K) (r : rn.grid.Rank) :
    Option (Tensor rn.grid K) :=
  if rn.monokernelFoldsShared mono then rn.pendingAtLaunch call r else none

/-- The monokernel is offered a batch that it may take. -/
def offers (rn : MoERunner K) (mono : Bool) (call : MoECall rn.grid K)
    (batch : Finset rn.grid.Home) : Bool :=
  !rn.layer.mkCanOverlapSharedExperts && mono && decide (call.rows batch ≤ prefillMaxTokens)

/-- What the ordinary monokernel answers. -/
def ordinaryOut (rn : MoERunner K) (mono : Bool) (call : MoECall rn.grid K) (r : rn.grid.Rank)
    (batch : Finset rn.grid.Home) : Option (Tensor rn.grid K) :=
  if rn.offers mono call batch && (call.rank r).ordinaryReturns then
    some (rn.kernelOut call r batch .bfloat16 (call.rank r).ordinaryPtr)
  else none

/-- The fused epilogue takes a batch. -/
def launches (rn : MoERunner K) (mono : Bool) (call : MoECall rn.grid K) (r : rn.grid.Rank)
    (batch : Finset rn.grid.Home) : Bool :=
  rn.offers mono call batch && fusedTpEligible mono rn.layer &&
    match rn.launch call batch (rn.residualAt mono call r) with
    | .ok (some _) => true
    | _ => false

/-- The monokernel takes a batch, through the fused epilogue or without. -/
def serves (rn : MoERunner K) (mono : Bool) (call : MoECall rn.grid K) (r : rn.grid.Rank)
    (batch : Finset rn.grid.Home) : Bool :=
  rn.launches mono call r batch || (rn.ordinaryOut mono call r batch).isSome

/-- The type of the routed half: that of the monokernel, or of the layer where the modular kernel
runs. -/
def routedDtype (rn : MoERunner K) (mono : Bool) (call : MoECall rn.grid K) (r : rn.grid.Rank)
    (batch : Finset rn.grid.Home) : Dtype :=
  if rn.serves mono call r batch then .bfloat16 else rn.inDtype

/-- The `zero_expert_output` behind the kernels: as it was, unless experts have been selected. -/
def zeroOut (rn : MoERunner K) (mono : Bool) (call : MoECall rn.grid K) (r : rn.grid.Rank)
    (batch : Finset rn.grid.Home) : Option (ℕ × Rows K) :=
  if rn.serves mono call r batch then (call.rank r).zeroHeld
  else some (call.rows batch, (call.rank r).zeroSelected)

/-- `out` is what a kernel of this rank returns for a batch. -/
structure IsKernelOut (rn : MoERunner K) (mono : Bool) (call : MoECall rn.grid K)
    (r : rn.grid.Rank) (batch : Finset rn.grid.Home) (out : Tensor rn.grid K) : Prop where
  batch_eq : out.batch = batch
  value_eq : out.value = restrict batch (call.rank r).routed
  dtype : out.dtype = rn.routedDtype mono call r batch
  dataPtr : out.dataPtr = (call.rank r).ordinaryPtr ∨ out.dataPtr = (call.rank r).modularPtr

omit [DecidableEq K] in
/-- A batch that goes out to a group of one rank comes back as it is. -/
lemma restrict_restrict (batch : Finset rn.grid.Home) (v : rn.grid.Home → Rows K) :
    restrict batch (restrict batch v) = restrict batch v := by
  funext h
  by_cases hh : h ∈ batch <;> simp [restrict, hh]

/-- What a rank holds that is not served by the fused epilogue. -/
def ownOut (rn : MoERunner K) (mono : Bool) (call : MoECall rn.grid K) (r : rn.grid.Rank)
    (batch : Finset rn.grid.Home) : Tensor rn.grid K :=
  (rn.ordinaryOut mono call r batch).getD
    (rn.kernelOut call r batch rn.inDtype (call.rank r).modularPtr)

omit [DecidableEq K] in
/-- Without a launch the output is that of the modular kernel. -/
lemma isKernelOut_ownOut {b : Finset rn.grid.Home} (hlaunch : rn.launches mono call r b = false) :
    rn.IsKernelOut mono call r b (rn.ownOut mono call r b) := by
  unfold ownOut
  cases h : rn.ordinaryOut mono call r b with
  | none => exact ⟨rfl, rfl, by simp [routedDtype, serves, hlaunch, h, kernelOut], Or.inr rfl⟩
  | some out =>
    have hdtype : rn.routedDtype mono call r b = .bfloat16 := by simp [routedDtype, serves, h]
    unfold ordinaryOut at h
    split_ifs at h
    obtain rfl := Option.some.inj h
    exact ⟨rfl, rfl, hdtype.symm, Or.inl rfl⟩

omit [DecidableEq K] in
/-- The ranks that the ordinary monokernel does not serve run the modular kernel. -/
lemma returns_orModular
    (hpath : rn.LocalModular ∨ ∀ r, (rn.ordinaryOut mono call r (batch r)).isSome)
    (hlaunch : ∀ r, rn.launches mono call r (batch r) = false)
    (pending : rn.grid.Rank → Option (Tensor rn.grid K)) :
    Returns (fun r => match rn.ordinaryOut mono call r (batch r) with
      | some out => .ret (out, pending r, (call.rank r).zeroHeld)
      | none => rn.selectAndForward call r (batch r) (pending r))
        fun r =>
          (rn.ownOut mono call r (batch r), pending r, rn.zeroOut mono call r (batch r)) := by
  rcases hpath with (hpf | ⟨hpf, hgroup⟩) | hall
  · refine Returns.ret fun r => ?_
    cases h : rn.ordinaryOut mono call r (batch r) with
    | none => simp [ownOut, h, selectAndForward, forwardModular, hpf, zeroOut, serves, hlaunch]
    | some x => simp [ownOut, h, zeroOut, serves]
  · refine Returns.of_alone fun r => ?_
    cases h : rn.ordinaryOut mono call r (batch r) with
    | some x => simpa [ownOut, h, zeroOut, serves] using RunsAlone.ret _
    | none =>
      have hzero : rn.zeroOut mono call r (batch r) =
          some (call.rows (batch r), (call.rank r).zeroSelected) := by
        simp [zeroOut, serves, hlaunch, h]
      simp only [selectAndForward, forwardModular, hpf, ownOut, h, hzero, Option.getD_none]
      -- the two collectives of a group of one rank
      refine RunsAlone.enter (batch r) (hgroup r) (fun z hz => ?_)
        (RunsAlone.enter (restrict (batch r) (call.rank r).routed) (hgroup r) (fun z hz => ?_)
          (RunsAlone.ret _))
      · exact (congrArg (Finset.biUnion · z) (hgroup r)).trans (Finset.singleton_biUnion.trans hz)
      · simp [network, hgroup r, hz, restrict_restrict]
  · refine Returns.ret fun r => ?_
    obtain ⟨x, hx⟩ := Option.isSome_iff_exists.mp (hall r)
    simp [ownOut, hx, zeroOut, serves]

omit [DecidableEq K] in
/-- A rank that does not enter the fused epilogue. -/
lemma maybeMoeMonokernel_of_ordinary {b : Finset rn.grid.Home}
    {residual : Option (Tensor rn.grid K)} (outScale : K)
    (h : rn.offers mono call b = false ∨ fusedTpEligible mono rn.layer = false ∨
      rn.launch call b residual = .ok none) :
    rn.maybeMoeMonokernel mono call r b residual outScale =
      .ret (rn.ordinaryOut mono call r b) := by
  have htry : ∀ outScale, rn.layer.mkCanOverlapSharedExperts = false →
      rn.tryMoeMonokernel mono call r b residual outScale =
        .ret (rn.ordinaryOut mono call r b) := by
    intro outScale hoverlap
    unfold tryMoeMonokernel ordinaryOut
    cases hmono : mono with
    | false => simp [offers]
    | true =>
      by_cases hrows : prefillMaxTokens < call.rows b
      · simp [offers, hrows]
      · have hoffers : rn.offers true call b = true := by simp [offers, hoverlap, not_lt.mp hrows]
        subst hmono
        rcases h with h | h | h
        · rw [hoffers] at h
          cases h
        · simp only [Bool.not_true, Bool.false_eq_true, if_false, hrows, h, hoffers,
            Prog.ret_bind, Bool.true_and]
          split_ifs <;> rfl
        · have hnone : rn.launchFused call r b residual outScale = .ret none := by
            unfold launch at h
            simp [launchFused, h]
          simp only [Bool.not_true, Bool.false_eq_true, if_false, hrows, hnone, hoffers, ite_self,
            Prog.ret_bind, Bool.true_and]
          split_ifs <;> rfl
  unfold maybeMoeMonokernel
  cases hoverlap : rn.layer.mkCanOverlapSharedExperts with
  | true => simp [ordinaryOut, offers, hoverlap]
  | false =>
    cases residual with
    | none => simp [htry 1 hoverlap]
    | some x => simp [htry outScale hoverlap]

omit [DecidableEq K] in
/-- A rank that enters the fused epilogue. -/
lemma maybeMoeMonokernel_of_fused {b : Finset rn.grid.Home}
    {residual : Option (Tensor rn.grid K)} {p : FusedLaunch} (outScale : K)
    (hoffers : rn.offers mono call b = true) (heligible : fusedTpEligible mono rn.layer = true)
    (hlaunch : rn.launch call b residual = .ok (some p))
    (hraises : (call.rank r).fusedRaises = false) :
    rn.maybeMoeMonokernel mono call r b residual outScale =
      .enter (.fused p) ⟨if p.fold then (if residual.isNone then 1 else outScale) else 1,
        restrict b (call.rank r).routed, if p.fold then residual.map (·.value) else none⟩ fun out =>
          .ret (some ⟨b, out, .bfloat16, rn.poolBase⟩) := by
  simp only [offers, Bool.and_eq_true, Bool.not_eq_true', decide_eq_true_eq] at hoffers
  obtain ⟨⟨hoverlap, rfl⟩, hrows⟩ := hoffers
  have htry : ∀ outScale, rn.tryMoeMonokernel true call r b residual outScale =
      .enter (.fused p) ⟨if p.fold then outScale else 1,
        restrict b (call.rank r).routed, if p.fold then residual.map (·.value) else none⟩ fun out =>
          .ret (some ⟨b, out, .bfloat16, rn.poolBase⟩) := by
    intro outScale
    unfold launch at hlaunch
    simp only [tryMoeMonokernel, Bool.not_true, Bool.false_eq_true, if_false, hrows.not_gt,
      heligible, if_true, launchFused, hlaunch, hraises]
    rfl
  unfold maybeMoeMonokernel
  cases residual with
  | none => simp [hoverlap, htry 1]
  | some x => simp [hoverlap, htry outScale]

omit [DecidableEq K] in
/-- The shared experts run in front of the kernel when nothing overlaps. -/
lemma applySharedExperts_first (r : rn.grid.Rank) :
    rn.applySharedExperts call r .noOverlap none = .ret (rn.pendingAtLaunch call r) := by
  unfold applySharedExperts pendingAtLaunch
  cases rn.sharedExperts with
  | none => rfl
  | some shared =>
    by_cases h : rn.sharedExpertsOrder shared (call.rows {rn.home r}) = .noOverlap
    · simp [h]
    · simp [h, Ne.symm h]

omit [DecidableEq K] in
/-- Once the modular kernel does not run them, the shared experts have run behind it. -/
lemma applySharedExperts_second (hoverlap : rn.layer.mkCanOverlapSharedExperts = false)
    (r : rn.grid.Rank) :
    (rn.applySharedExperts call r .multiStreamOverlapped (rn.pendingAtLaunch call r) >>=
      rn.popOutput) = .ret (rn.sharedOut call r) := by
  unfold applySharedExperts pendingAtLaunch sharedOut popOutput
  cases rn.sharedExperts with
  | none => rfl
  | some shared =>
    have horder : rn.sharedExpertsOrder shared (call.rows {rn.home r}) = .noOverlap ∨
        rn.sharedExpertsOrder shared (call.rows {rn.home r}) = .multiStreamOverlapped := by
      simp only [sharedExpertsOrder, SharedExperts.determineOrder, hoverlap, Bool.false_eq_true,
        if_false]
      split_ifs <;> simp
    rcases horder with h | h <;> simp [h]

/-- The routed half out of the kernels: each rank's own part, or their sum from the fused
epilogue. -/
def RoutedOut (rn : MoERunner K) (mono : Bool) (call : MoECall rn.grid K)
    (batch : rn.grid.Rank → Finset rn.grid.Home) (out : rn.grid.Rank → Tensor rn.grid K) : Prop :=
  (∀ r, rn.IsKernelOut mono call r (batch r) (out r)) ∨
    rn.monokernelReduceFolded mono = true ∧ ∀ r, (out r).batch = batch r ∧
      (out r).dtype = .bfloat16 ∧ rn.serves mono call r (batch r) = true ∧
      (out r).dataPtr = rn.poolBase ∧
      if rn.monokernelFoldsShared mono then (rn.residualAt mono call r).isSome ∧
          (out r).value = ∑ i ∈ rn.grid.members .tp r, (rn.routedScalingFactor •
            restrict (batch i) (call.rank i).routed + (rn.sharedTensor call i).value)
        else (out r).value = ∑ i ∈ rn.grid.members .tp r, restrict (batch i) (call.rank i).routed

omit [Field K] [DecidableEq K] in
/-- A launch under a plan, with what it needs. -/
lemma launch_some {b : Finset rn.grid.Home} {residual : Option (Tensor rn.grid K)}
    {p : FusedLaunch} (h : rn.launch call b residual = .ok (some p)) :
    rn.plan.usable = true ∧ p.fold = rn.plan.foldShared ∧
      (rn.plan.foldShared = true → residual.isSome = true) := by
  unfold launch fusedTpLaunch at h
  split_ifs at h with h1 h2 h3
  · cases h
  · cases h
  · cases h
  · obtain rfl := Option.some.inj (Except.ok.inj h)
    refine ⟨by simpa using h1, rfl, fun hfold => ?_⟩
    simpa [hfold, Option.isSome_iff_ne_none] using h3

omit [DecidableEq K] in
/-- A rank that does not enter the fused epilogue. -/
lemma launches_eq_false {b : Finset rn.grid.Home}
    (h : rn.offers mono call b = false ∨ fusedTpEligible mono rn.layer = false ∨
      rn.launch call b (rn.residualAt mono call r) = .ok none) :
    rn.launches mono call r b = false := by
  unfold launches
  rcases h with h | h | h <;> simp [h]

omit [DecidableEq K] in
/-- A residual that is there is the shared half of the rank. -/
lemma residualAt_of_isSome (h : (rn.residualAt mono call r).isSome = true) :
    rn.residualAt mono call r = some (rn.sharedTensor call r) := by
  unfold residualAt pendingAtLaunch at h ⊢
  cases hfold : rn.monokernelFoldsShared mono with
  | false => simp [hfold] at h
  | true =>
    rw [hfold, if_pos rfl] at h
    cases hs : rn.sharedExperts with
    | none => simp [hs] at h
    | some shared =>
      by_cases horder : rn.sharedExpertsOrder shared (call.rows {rn.home r}) = .noOverlap
      · simp [horder]
      · simp [hs, horder] at h

omit [DecidableEq K] in
/-- What a rank hands to the fused epilogue: the scaled routed half with the shared half where the
plan folds, the routed half alone where it does not. -/
lemma partialSum_of_launch {p : FusedLaunch} {b : Finset rn.grid.Home}
    (hlaunch : rn.launch call b (rn.residualAt mono call r) = .ok (some p)) :
    (rn.monokernelFoldsShared mono = true → (rn.residualAt mono call r).isSome = true) ∧
      FusedArgs.partialSum
        (⟨if p.fold then (if (rn.residualAt mono call r).isNone then 1 else
            if (rn.residualAt mono call r).isSome then rn.routedScalingFactor else 1) else 1,
          restrict b (call.rank r).routed,
          if p.fold then (rn.residualAt mono call r).map (·.value) else none⟩ :
            FusedArgs rn.grid K) =
        if rn.monokernelFoldsShared mono then rn.routedScalingFactor •
          restrict b (call.rank r).routed + (rn.sharedTensor call r).value
        else restrict b (call.rank r).routed := by
  obtain ⟨-, hpfold, hresidual⟩ := launch_some hlaunch
  cases hfold : rn.monokernelFoldsShared mono with
  | true =>
    obtain ⟨-, -, -, hplan, -⟩ := folds_spec hfold
    have hpending := residualAt_of_isSome (hresidual hplan)
    exact ⟨fun _ => hresidual hplan, by simp [FusedArgs.partialSum, hpfold, hplan, hpending]⟩
  | false =>
    have hnone : rn.residualAt mono call r = none := by simp [residualAt, hfold]
    have hplan : rn.plan.foldShared = false := by
      by_contra hplan
      have hsome := hresidual (by simpa using hplan)
      simp [hnone] at hsome
    exact ⟨fun h => absurd h Bool.false_ne_true, by simp [FusedArgs.partialSum, hpfold, hplan]⟩

omit [DecidableEq K] in
/-- All ranks enter the fused epilogue. -/
lemma returns_fused {p : FusedLaunch} (hfolded : rn.monokernelReduceFolded mono = true)
    (hoffers : ∀ r, rn.offers mono call (batch r) = true)
    (hlaunch : ∀ r, rn.launch call (batch r) (rn.residualAt mono call r) = .ok (some p))
    (hraises : ∀ r, rn.launches mono call r (batch r) = true → (call.rank r).fusedRaises = false) :
    ∃ out : rn.grid.Rank → Tensor rn.grid K, rn.RoutedOut mono call batch out ∧
      (∀ r, rn.serves mono call r (batch r) = true) ∧
      Returns (fun r => rn.maybeMoeMonokernel mono call r (batch r) (rn.residualAt mono call r)
          (if (rn.residualAt mono call r).isSome then rn.routedScalingFactor else 1)) fun r =>
        some (out r) := by
  have heligible : fusedTpEligible mono rn.layer = true := (Bool.and_eq_true_iff.mp hfolded).1
  have hlaunches : ∀ r, rn.launches mono call r (batch r) = true := fun r => by
    simp [launches, hoffers, heligible, hlaunch]
  have hserves : ∀ r, rn.serves mono call r (batch r) = true := fun r => by
    simp [serves, hlaunches]
  let args : rn.grid.Rank → FusedArgs rn.grid K := fun r =>
    ⟨if p.fold then (if (rn.residualAt mono call r).isNone then 1 else
      if (rn.residualAt mono call r).isSome then rn.routedScalingFactor else 1) else 1,
      restrict (batch r) (call.rank r).routed,
      if p.fold then (rn.residualAt mono call r).map (·.value) else none⟩
  refine ⟨fun r => ⟨batch r, ∑ i ∈ rn.grid.members .tp r, (args i).partialSum, .bfloat16,
    rn.poolBase⟩, Or.inr ⟨hfolded, fun r => ⟨rfl, rfl, hserves r, rfl, ?_⟩⟩, hserves, ?_⟩
  · have hsum : ∀ i, (args i).partialSum = if rn.monokernelFoldsShared mono then
        rn.routedScalingFactor • restrict (batch i) (call.rank i).routed +
          (rn.sharedTensor call i).value
        else restrict (batch i) (call.rank i).routed := fun i =>
      (partialSum_of_launch (hlaunch i)).2
    have hresidual := (partialSum_of_launch (hlaunch r)).1
    simp only [hsum]
    split_ifs with hfold
    · exact ⟨hresidual hfold, rfl⟩
    · rfl
  · exact Returns.enter (.fused p) (x := args) (k := fun r out =>
      .ret (some ⟨batch r, out, .bfloat16, rn.poolBase⟩))
      (fun r => maybeMoeMonokernel_of_fused _ (hoffers r) heligible (hlaunch r)
        (hraises r (hlaunches r)))
      (Returns.ret fun _ => rfl)

omit [DecidableEq K] in
/-- If not all ranks launch, none does: the launches of the ranks agree. -/
lemma ordinary_or_fused {L : Except LaunchError (Option FusedLaunch)}
    (hL : rn.monokernelReduceFolded mono = true →
      (∀ r, rn.offers mono call (batch r) = true → ∀ e, L ≠ .error e) ∧
      (∀ r i, rn.offers mono call (batch r) = rn.offers mono call (batch i)) ∧
        ∀ r, rn.launch call (batch r) (rn.residualAt mono call r) = L) :
    (∀ r, rn.offers mono call (batch r) = false ∨ fusedTpEligible mono rn.layer = false ∨
      rn.launch call (batch r) (rn.residualAt mono call r) = .ok none) ∨
    rn.monokernelReduceFolded mono = true ∧ (∀ r, rn.offers mono call (batch r) = true) ∧
      ∃ p, ∀ r, rn.launch call (batch r) (rn.residualAt mono call r) = .ok (some p) := by
  by_cases hfolded : rn.monokernelReduceFolded mono = true
  · obtain ⟨hok, huniform, hlaunch⟩ := hL hfolded
    by_cases hoffers : ∀ r, rn.offers mono call (batch r) = true
    · rcases L with e | _ | p
      · exact Or.inl fun r => absurd rfl (hok r (hoffers r) e)
      · exact Or.inl fun r => Or.inr (Or.inr (hlaunch r))
      · exact Or.inr ⟨hfolded, hoffers, p, hlaunch⟩
    · push Not at hoffers
      obtain ⟨i, hi⟩ := hoffers
      exact Or.inl fun r => Or.inl ((huniform r i).trans (Bool.eq_false_iff.mpr hi))
  · have hno : fusedTpEligible mono rn.layer = false ∨ rn.plan.usable = false := by
      simpa [monokernelReduceFolded, ← Bool.and_eq_false_iff] using hfolded
    refine Or.inl fun r => Or.inr ?_
    rcases hno with hno | hno
    · exact Or.inl hno
    · exact Or.inr (by simp [launch, fusedTpLaunch, hno])

omit [DecidableEq K] in
/-- The kernels of all ranks. -/
lemma returns_routed
    (hpath : rn.LocalModular ∨ ∀ r, (rn.ordinaryOut mono call r (batch r)).isSome)
    (hraises : ∀ r, rn.launches mono call r (batch r) = true → (call.rank r).fusedRaises = false)
    {L : Except LaunchError (Option FusedLaunch)}
    (hL : rn.monokernelReduceFolded mono = true →
      (∀ r, rn.offers mono call (batch r) = true → ∀ e, L ≠ .error e) ∧
      (∀ r i, rn.offers mono call (batch r) = rn.offers mono call (batch i)) ∧
        ∀ r, rn.launch call (batch r) (rn.residualAt mono call r) = L) :
    ∃ out : rn.grid.Rank → Tensor rn.grid K, rn.RoutedOut mono call batch out ∧
      Returns (fun r => rn.maybeMoeMonokernel mono call r (batch r) (rn.residualAt mono call r)
          (if (rn.residualAt mono call r).isSome then rn.routedScalingFactor else 1) >>=
            fun offered =>
            match offered with
            | some out => .ret (out, rn.pendingAtLaunch call r, (call.rank r).zeroHeld)
            | none => rn.selectAndForward call r (batch r) (rn.pendingAtLaunch call r))
        fun r => (out r, rn.pendingAtLaunch call r, rn.zeroOut mono call r (batch r)) := by
  rcases ordinary_or_fused hL with hordinary | ⟨hfolded, hoffers, p, hlaunch⟩
  · have hlaunch : ∀ r, rn.launches mono call r (batch r) = false := fun r =>
      launches_eq_false (hordinary r)
    refine ⟨fun r => rn.ownOut mono call r (batch r),
      Or.inl fun r => isKernelOut_ownOut (hlaunch r), ?_⟩
    simp only [maybeMoeMonokernel_of_ordinary _ (hordinary _), Prog.ret_bind]
    exact returns_orModular hpath hlaunch (rn.pendingAtLaunch call)
  · obtain ⟨out, hout, hserves, hreturns⟩ := returns_fused hfolded hoffers hlaunch hraises
    exact ⟨out, hout, hreturns.bind (Returns.ret fun r => by simp [zeroOut, hserves])⟩

/-- No other tensor aliases the pool buffer. -/
def NoAlias (rn : MoERunner K) (call : MoECall rn.grid K) : Prop :=
  ∀ r, (call.rank r).ordinaryPtr ≠ rn.poolBase ∧ (call.rank r).modularPtr ≠ rn.poolBase

/-- What the op hands out as its routed half. -/
def opValue (rn : MoERunner K) (mono : Bool) (call : MoECall rn.grid K)
    (batch : rn.grid.Rank → Finset rn.grid.Home) (r : rn.grid.Rank) : rn.grid.Home → Rows K :=
  if rn.monokernelFoldsShared mono then
    ∑ i ∈ rn.grid.members .tp r, (rn.routedScalingFactor •
      restrict (batch i) (call.rank i).routed + (rn.sharedTensor call i).value)
  else
    ∑ i ∈ rn.stepGroup (rn.monokernelReduceFolded mono) r, restrict (batch i) (call.rank i).routed

/-- The part of the op behind the kernels, where each rank holds its own part: it is combined and
reduced when the monokernel path has declared itself reduced. -/
lemma returns_reduceInside_own {out : rn.grid.Rank → Tensor rn.grid K}
    (hkernel : ∀ r, rn.IsKernelOut mono call r (batch r) (out r))
    (hunreduced : rn.fusedOutputIsReduced = false) (hptr : rn.NoAlias call)
    (hbatch : rn.monokernelFoldsShared mono = true → ∀ r, batch r = {rn.home r}) :
    ∃ final : rn.grid.Rank → Tensor rn.grid K,
      Returns (fun r => rn.reduceInside mono call (rn.residualAt mono call r) (rn.sharedOut call r)
          (out r))
        final ∧ ∀ r, (final r).dtype = rn.routedDtype mono call r (batch r) ∧
          (final r).value = rn.opValue mono call batch r := by
  cases hfolded : rn.monokernelReduceFolded mono with
  | false =>
    have hfold : rn.monokernelFoldsShared mono = false := by
      by_contra hfold
      obtain ⟨_, heligible, husable, _⟩ := folds_spec (Bool.not_eq_false _ ▸ hfold)
      simp [monokernelReduceFolded, heligible, husable] at hfolded
    refine ⟨out, Returns.ret fun r => ?_, fun r => ⟨(hkernel r).dtype, ?_⟩⟩
    · simp [reduceInside, hfolded]
    · simp [opValue, hfold, hfolded, stepGroup, (hkernel r).value_eq]
  | true =>
    have hpool : ∀ r, rn.outputIsFused (out r) = false := by
      intro r
      rcases (hkernel r).dataPtr with h | h
      · simp [outputIsFused, h, (hptr r).1]
      · simp [outputIsFused, h, (hptr r).2]
    cases hfold : rn.monokernelFoldsShared mono with
    | false =>
      refine ⟨fun r => { out r with value := ∑ i ∈ rn.stepGroup true r, (out i).value },
        returns_allReduce (fun i => (out i).value) (fun r v => { out r with value := v })
          fun r => ?_, fun r => ⟨(hkernel r).dtype, ?_⟩⟩
      · cases hs : rn.sharedOut call r <;>
          simp [reduceInside, hunreduced, hfolded, hfold, hpool]
      · simp [opValue, hfold, hfolded, (hkernel _).value_eq]
    | true =>
      have hshared : ∀ r, rn.sharedOut call r = some (rn.sharedTensor call r) := by
        intro r
        simp [sharedOut, (folds_spec hfold).1]
      refine ⟨fun r => { out r with value := ∑ i ∈ rn.stepGroup true r,
          (rn.routedScalingFactor • (out i).value + (rn.sharedTensor call i).value) },
        returns_allReduce (fun i => rn.routedScalingFactor • (out i).value +
          (rn.sharedTensor call i).value) (fun r v => { out r with value := v })
          fun r => ?_, fun r => ⟨(hkernel r).dtype, ?_⟩⟩
      · have hsame : (out r).batch = (rn.sharedTensor call r).batch :=
          (hkernel r).batch_eq.trans (hbatch hfold r)
        by_cases hone : rn.routedScalingFactor = 1
        · simp [reduceInside, hunreduced, hfolded, hfold, hpool, hshared, addHalves, hsame, hone]
        · simp [reduceInside, hunreduced, hfolded, hfold, hpool, hshared, addHalves, hsame, hone,
            Tensor.map]
          rfl
      · simp [opValue, hfold, stepGroup, (hkernel _).value_eq]

/-- The part of the op behind the kernels: whatever is still partial is combined and reduced. -/
lemma returns_reduceInside {out : rn.grid.Rank → Tensor rn.grid K}
    (hout : rn.RoutedOut mono call batch out) (hunreduced : rn.fusedOutputIsReduced = false)
    (hptr : rn.NoAlias call)
    (hbatch : rn.monokernelFoldsShared mono = true → ∀ r, batch r = {rn.home r}) :
    ∃ final : rn.grid.Rank → Tensor rn.grid K,
      Returns (fun r => rn.reduceInside mono call (rn.residualAt mono call r) (rn.sharedOut call r)
          (out r))
        final ∧ ∀ r, (final r).dtype = rn.routedDtype mono call r (batch r) ∧
          (final r).value = rn.opValue mono call batch r := by
  rcases hout with hkernel | ⟨hfolded, hfused⟩
  · exact returns_reduceInside_own hkernel hunreduced hptr hbatch
  · -- the fused epilogue has reduced already
    have hpool : ∀ r, rn.outputIsFused (out r) = true := by
      intro r
      have husable : rn.plan.usable = true := (Bool.and_eq_true_iff.mp hfolded).2
      simp [outputIsFused, husable, (hfused r).2.2.2.1]
    have hdtype : ∀ r, (out r).dtype = rn.routedDtype mono call r (batch r) := by
      intro r
      simp [routedDtype, (hfused r).2.1, (hfused r).2.2.1]
    refine ⟨out, Returns.ret fun r => ?_, fun r => ⟨hdtype r, ?_⟩⟩
    · obtain ⟨-, -, -, -, hvalue⟩ := hfused r
      cases hfold : rn.monokernelFoldsShared mono with
      | true =>
        rw [hfold, if_pos rfl] at hvalue
        have hresidual := Option.isSome_iff_ne_none.mp hvalue.1
        cases hs : rn.sharedOut call r <;>
          simp [reduceInside, hunreduced, hfolded, hfold, hpool, hresidual]
      | false =>
        cases hs : rn.sharedOut call r <;> simp [reduceInside, hunreduced, hfolded, hfold, hpool]
    · obtain ⟨-, -, -, -, hvalue⟩ := hfused r
      cases hfold : rn.monokernelFoldsShared mono with
      | true =>
        rw [hfold, if_pos rfl] at hvalue
        simp [opValue, hfold, hvalue.2]
      | false =>
        rw [hfold, if_neg Bool.false_ne_true] at hvalue
        simp [opValue, hfold, hfolded, stepGroup, hvalue]

omit [Field K] [DecidableEq K] in
/-- Only the asynchronous implementation reduces by itself. -/
lemma fusedOutputIsReduced_of_no_overlap (hoverlap : rn.layer.mkCanOverlapSharedExperts = false) :
    rn.fusedOutputIsReduced = false := by
  have hasync := rn.overlap_eq
  rw [hoverlap] at hasync
  unfold fusedOutputIsReduced
  revert hasync
  cases rn.prepareFinalize <;> simp [PrepareFinalize.supportsAsync, PrepareFinalize.outputIsReduced]

/-- The op, in the order in which its parts wait for each other. -/
lemma applyQuantMethod_eq (b : Finset rn.grid.Home) : rn.applyQuantMethod mono call r b =
    (rn.maybeMoeMonokernel mono call r b (rn.residualAt mono call r)
        (if (rn.residualAt mono call r).isSome then rn.routedScalingFactor else 1) >>=
          fun offered =>
      match offered with
      | some out => .ret (out, rn.pendingAtLaunch call r, (call.rank r).zeroHeld)
      | none => rn.selectAndForward call r b (rn.pendingAtLaunch call r)) >>= fun x =>
    (rn.applySharedExperts call r .multiStreamOverlapped x.2.1 >>= rn.popOutput) >>= fun shared =>
      rn.reduceInside mono call (rn.residualAt mono call r) shared x.1 >>= fun final =>
        .ret (shared, final, x.2.2) := by
  unfold applyQuantMethod
  rw [applySharedExperts_first]
  simp only [Prog.ret_bind, residualAt, Prog.bind_assoc]
  refine congrArg _ (funext fun offered => ?_)
  cases offered <;> rfl

/-- The op: the shared half as it is, the routed half as `opValue` says. -/
lemma returns_applyQuantMethod (batch : rn.grid.Rank → Finset rn.grid.Home)
    (hoverlap : rn.layer.mkCanOverlapSharedExperts = false)
    (hpath : rn.LocalModular ∨ ∀ r, (rn.ordinaryOut mono call r (batch r)).isSome)
    (hraises : ∀ r, rn.launches mono call r (batch r) = true → (call.rank r).fusedRaises = false)
    {L : Except LaunchError (Option FusedLaunch)}
    (hL : rn.monokernelReduceFolded mono = true →
      (∀ r, rn.offers mono call (batch r) = true → ∀ e, L ≠ .error e) ∧
      (∀ r i, rn.offers mono call (batch r) = rn.offers mono call (batch i)) ∧
        ∀ r, rn.launch call (batch r) (rn.residualAt mono call r) = L)
    (hptr : rn.NoAlias call)
    (hbatch : rn.monokernelFoldsShared mono = true → ∀ r, batch r = {rn.home r}) :
    ∃ final : rn.grid.Rank → Tensor rn.grid K,
      Returns (fun r => rn.applyQuantMethod mono call r (batch r))
        (fun r => (rn.sharedOut call r, final r, rn.zeroOut mono call r (batch r))) ∧
        ∀ r, (final r).dtype = rn.routedDtype mono call r (batch r) ∧
          (final r).value = rn.opValue mono call batch r := by
  obtain ⟨out, hrouted, hreturns⟩ := returns_routed hpath hraises hL
  have hunreduced := fusedOutputIsReduced_of_no_overlap hoverlap
  obtain ⟨final, hfinal, hspec⟩ := returns_reduceInside hrouted hunreduced hptr hbatch
  refine ⟨final, ?_, hspec⟩
  simp only [applyQuantMethod_eq]
  refine hreturns.bind ?_
  simp only [applySharedExperts_second hoverlap, Prog.ret_bind]
  exact hfinal.bind (Returns.ret fun _ => rfl)

/-! ### Dispatch and combine -/

/-- The rows that a rank hands to the op. -/
def dispatched (rn : MoERunner K) (r : rn.grid.Rank) : Finset rn.grid.Home :=
  if rn.gathersPcp then (rn.grid.members .pcp r).image rn.home else {rn.home r}

omit [DecidableEq K] in
/-- The dispatch gathers the rows of the group. -/
lemma returns_maybeDispatch :
    Returns (fun r => rn.maybeDispatch {rn.home r}) rn.dispatched := by
  unfold maybeDispatch dispatched
  cases hgather : rn.gathersPcp with
  | true =>
    refine Returns.enter (.gather .pcp) (x := fun i => ({rn.home i} : Finset rn.grid.Home))
      (k := fun _ => .ret)
      (fun r => if_pos rfl) (Returns.ret fun r => ?_)
    rw [if_pos rfl]
    exact congrArg Prog.ret Finset.biUnion_singleton
  | false => exact Returns.ret fun r => rfl

/-- The rows that a rank gets back from its routed half. -/
def combined (rn : MoERunner K) (f : rn.grid.Rank → rn.grid.Home → Rows K) (r : rn.grid.Rank) :
    Rows K :=
  if rn.gathersPcp then ∑ i ∈ rn.grid.members .pcp r, f i (rn.home r) else f r (rn.home r)

omit [DecidableEq K] in
/-- The combine leaves a rank its own rows. -/
lemma returns_maybeCombine (call : MoECall rn.grid K) (out : rn.grid.Rank → Tensor rn.grid K) :
    ∃ final : rn.grid.Rank → Tensor rn.grid K,
      Returns (fun r => rn.maybeCombine {rn.home r} (rn.sharedOut call r) (out r))
        (fun r => (rn.sharedOut call r, final r)) ∧
        ∀ r, (final r).dtype = (out r).dtype ∧
          (final r).value (rn.home r) = rn.combined (fun i => (out i).value) r := by
  have hshared : ∀ (r) (fused : Tensor rn.grid K),
      (if rn.sharedExperts.isSome && (rn.sharedOut call r).isNone then
        (.raise .outputMissing : rn.Run _)
      else .ret (if rn.sharedExperts.isSome then rn.sharedOut call r else none, fused)) =
        .ret (rn.sharedOut call r, fused) := by
    intro r fused
    unfold sharedOut
    cases rn.sharedExperts <;> simp
  unfold maybeCombine combined
  cases hgather : rn.gathersPcp with
  | true =>
    refine ⟨fun r => { out r with
      batch := {rn.home r}
      value := restrict {rn.home r} (∑ i ∈ rn.grid.members .pcp r, (out i).value) }, ?_,
        fun r => ⟨rfl, by simp [restrict]⟩⟩
    refine Returns.enter (.reduceScatter .pcp) (x := fun i => ({rn.home i}, (out i).value))
      (k := fun r v => .ret (rn.sharedOut call r,
        { out r with batch := {rn.home r}, value := v })) (fun r => ?_) (Returns.ret fun r => rfl)
    simp only [if_true, hshared]
    rfl
  | false =>
    refine ⟨out, Returns.ret fun r => ?_, fun r => ⟨rfl, rfl⟩⟩
    simp only [Bool.false_eq_true, if_false, Prog.ret_bind, hshared]

/-- What the rank's own tokens get from its experts and those of the ranks it gathers from. -/
def contribution (rn : MoERunner K) (call : MoECall rn.grid K) (r : rn.grid.Rank) : Rows K :=
  if rn.gathersPcp then ∑ i ∈ rn.grid.members .pcp r, (call.rank i).routed (rn.home r)
  else (call.rank r).routed (rn.home r)

omit [DecidableEq K] in
/-- A sum over the tensor-parallel group. -/
lemma sum_members_tp (r : rn.grid.Rank) (f : rn.grid.Rank → Rows K) :
    ∑ i ∈ rn.grid.members .tp r, f i = ∑ t, f (r.1, r.2.1, t) :=
  Finset.sum_image fun _ _ _ _ h => (Prod.ext_iff.mp (Prod.ext_iff.mp h).2).2

omit [DecidableEq K] in
/-- A sum over the prefill context group. -/
lemma sum_members_pcp (r : rn.grid.Rank) (f : rn.grid.Rank → Rows K) :
    ∑ i ∈ rn.grid.members .pcp r, f i = ∑ p, f (r.1, p, r.2.2) :=
  Finset.sum_image fun _ _ _ _ h => (Prod.ext_iff.mp (Prod.ext_iff.mp h).2).1

omit [DecidableEq K] in
/-- Reducing over the tensor-parallel group and combining over the context-parallel one can be
swapped. -/
lemma combined_opValue (hfold : rn.monokernelFoldsShared mono = false)
    (hsp : rn.monokernelReduceFolded mono = true → rn.isSequenceParallel = false)
    (r : rn.grid.Rank) :
    rn.combined (rn.opValue mono call rn.dispatched) r =
      ∑ i ∈ rn.stepGroup (rn.monokernelReduceFolded mono) r, rn.contribution call i := by
  unfold combined contribution opValue
  simp only [hfold, Bool.false_eq_true, if_false]
  cases hgather : rn.gathersPcp with
  | false =>
    simp only [Bool.false_eq_true, if_false]
    rw [sum_at_home hsp]
    refine Finset.sum_congr rfl fun i _ => ?_
    simp [restrict, dispatched, hgather]
  | true =>
    -- the tokens of `r` are among those of every rank that contributes to them
    have hmem : ∀ i ∈ rn.grid.members .pcp r, ∀ j ∈ rn.stepGroup (rn.monokernelReduceFolded mono) i,
        rn.home r ∈ rn.dispatched j := by
      intro i hi j hj
      obtain ⟨hd, ht⟩ := Grid.mem_pcp.mp hi
      simp only [dispatched, hgather, if_true, Finset.mem_image]
      cases hfolded : rn.monokernelReduceFolded mono with
      | true =>
        rw [hfolded] at hj
        obtain ⟨hd', hp⟩ := Grid.mem_tp.mp hj
        exact ⟨(r.1, r.2.1, j.2.2), Grid.mem_pcp.mpr ⟨(hd'.trans hd).symm, rfl⟩, by
          simp [home, hsp hfolded]⟩
      | false =>
        rw [hfolded] at hj
        obtain rfl := Finset.mem_singleton.mp hj
        exact ⟨r, Grid.mem_pcp.mpr ⟨hd.symm, ht.symm⟩, rfl⟩
    simp only [if_true]
    have hleft : ∀ i ∈ rn.grid.members .pcp r,
        (∑ j ∈ rn.stepGroup (rn.monokernelReduceFolded mono) i,
          restrict (rn.dispatched j) (call.rank j).routed) (rn.home r) =
            ∑ j ∈ rn.stepGroup (rn.monokernelReduceFolded mono) i,
              (call.rank j).routed (rn.home r) := by
      intro i hi
      rw [Finset.sum_apply]
      exact Finset.sum_congr rfl fun j hj => if_pos (hmem i hi j hj)
    rw [Finset.sum_congr rfl hleft]
    cases hfolded : rn.monokernelReduceFolded mono with
    | false => simp [stepGroup]
    | true =>
      simp only [stepGroup, if_true, sum_members_tp, sum_members_pcp]
      rw [Finset.sum_comm]
      refine Finset.sum_congr rfl fun t _ => Finset.sum_congr rfl fun p _ => ?_
      simp [home, hsp hfolded]

omit [DecidableEq K] in
/-- Under the fold the op hands out both halves. -/
lemma combined_opValue_of_folds (hfold : rn.monokernelFoldsShared mono = true)
    (hgather : rn.gathersPcp = false) (r : rn.grid.Rank) :
    rn.combined (rn.opValue mono call rn.dispatched) r = ∑ i ∈ rn.grid.members .tp r,
      (rn.routedScalingFactor • rn.contribution call i + (call.rank i).shared) := by
  have hsp := (folds_spec hfold).2.2.2.2.2.1
  unfold combined opValue
  simp only [hgather, hfold, Bool.false_eq_true, if_false, if_true]
  have hsum := sum_at_home (b := true) (r := r) (fun _ => hsp) fun i =>
    rn.routedScalingFactor • restrict (rn.dispatched i) (call.rank i).routed +
      (rn.sharedTensor call i).value
  refine hsum.trans (Finset.sum_congr rfl fun i _ => ?_)
  simp [restrict, dispatched, hgather, contribution, sharedTensor_value]

end Op

/-! ### The whole forward -/

section Forward

variable {K : Type} [Field K] [DecidableEq K] {rn : MoERunner K} {mono : Bool}
  {call : MoECall rn.grid K}

/-- Dispatch, op and combine: the shared half as it is, the routed half combined. -/
lemma returns_forwardImpl (hoverlap : rn.layer.mkCanOverlapSharedExperts = false)
    (hpath : rn.LocalModular ∨ ∀ r, (rn.ordinaryOut mono call r (rn.dispatched r)).isSome)
    (hraises : ∀ r, rn.launches mono call r (rn.dispatched r) = true →
      (call.rank r).fusedRaises = false)
    {L : Except LaunchError (Option FusedLaunch)}
    (hL : rn.monokernelReduceFolded mono = true →
      (∀ r, rn.offers mono call (rn.dispatched r) = true → ∀ e, L ≠ .error e) ∧
      (∀ r i, rn.offers mono call (rn.dispatched r) = rn.offers mono call (rn.dispatched i)) ∧
        ∀ r, rn.launch call (rn.dispatched r) (rn.residualAt mono call r) = L)
    (hptr : rn.NoAlias call)
    (hfold : rn.monokernelFoldsShared mono = true → rn.gathersPcp = false) :
    ∃ final : rn.grid.Rank → Tensor rn.grid K,
      Returns (fun r => rn.forwardImpl mono call r)
        (fun r => (rn.sharedOut call r, final r, rn.zeroOut mono call r (rn.dispatched r))) ∧
        ∀ r, (final r).dtype = rn.routedDtype mono call r (rn.dispatched r) ∧
          (final r).value (rn.home r) = rn.combined (rn.opValue mono call rn.dispatched) r := by
  have hbatch : rn.monokernelFoldsShared mono = true → ∀ r, rn.dispatched r = {rn.home r} := by
    intro h r
    simp [dispatched, hfold h]
  obtain ⟨op, hop, hopSpec⟩ := returns_applyQuantMethod rn.dispatched hoverlap hpath
    hraises hL hptr hbatch
  obtain ⟨final, hfinal, hfinalSpec⟩ := returns_maybeCombine call op
  refine ⟨final, returns_maybeDispatch.bind (hop.bind (hfinal.bind (Returns.ret fun _ => rfl))),
    fun r => ⟨?_, ?_⟩⟩
  · rw [(hfinalSpec r).1]
    exact (hopSpec r).1
  · rw [(hfinalSpec r).2]
    exact congrArg (rn.combined · r) (funext fun i => (hopSpec i).2)

omit [DecidableEq K] in
/-- Where the scale goes to the routed half or the modular kernel runs, the routed half is scaled as
without the monokernel. -/
lemma scales_routedDtype {b : Finset rn.grid.Home}
    (h : rn.ScalesRouted ∨ rn.serves mono call r b = false) :
    rn.scales (rn.routedDtype mono call r b) = rn.scales rn.inDtype := by
  unfold routedDtype
  cases hserves : rn.serves mono call r b with
  | false => rfl
  | true =>
    rcases h with h | h
    · exact h.scales_eq.symm
    · rw [hserves] at h
      cases h

omit [DecidableEq K] in
/-- The zero experts' output of a rank that selects experts for its own tokens. -/
lemma addZeroExpertOutput_eq (hzero : rn.zeroExpertRouter = true →
      rn.gathersPcp = false ∧ rn.serves mono call r (rn.dispatched r) = false) (v : Rows K) :
    rn.addZeroExpertOutput call r (rn.zeroOut mono call r (rn.dispatched r)) v =
      .ret (v + rn.zeroTerm call r) := by
  unfold addZeroExpertOutput zeroTerm
  cases hrouter : rn.zeroExpertRouter with
  | false => simp
  | true =>
    obtain ⟨hgather, hserves⟩ := hzero hrouter
    have hdispatched : rn.dispatched r = {rn.home r} := by simp [dispatched, hgather]
    rw [hdispatched] at hserves ⊢
    simp [zeroOut, hserves, addRows]

/-- Everything in front of the zero experts' output: the two halves summed and scaled. -/
lemma returns_halves (hoverlap : rn.layer.mkCanOverlapSharedExperts = false)
    (hpath : rn.LocalModular ∨ ∀ r, (rn.ordinaryOut mono call r (rn.dispatched r)).isSome)
    (hraises : ∀ r, rn.launches mono call r (rn.dispatched r) = true →
      (call.rank r).fusedRaises = false)
    {L : Except LaunchError (Option FusedLaunch)}
    (hL : rn.monokernelReduceFolded mono = true →
      (∀ r, rn.offers mono call (rn.dispatched r) = true → ∀ e, L ≠ .error e) ∧
      (∀ r i, rn.offers mono call (rn.dispatched r) = rn.offers mono call (rn.dispatched i)) ∧
        ∀ r, rn.launch call (rn.dispatched r) (rn.residualAt mono call r) = L)
    (hptr : rn.NoAlias call)
    (hfold : rn.monokernelFoldsShared mono = true → rn.gathersPcp = false ∧ rn.truncSizes.1 = none)
    (hsp : rn.monokernelReduceFolded mono = true → rn.isSequenceParallel = false)
    (hsharded : rn.reduces = false → rn.grid.tp ≤ 1) {c : K × K}
    (hscale : ∀ r, rn.scales (rn.routedDtype mono call r (rn.dispatched r)) = c) :
    Returns (fun r => rn.forwardImpl mono call r >>= fun x =>
        rn.finishForward mono x.1 x.2.1 >>= fun out => .ret (out (rn.home r), x.2.2)) fun r =>
      (rn.addScaled c (∑ i ∈ rn.finalGroup r, rn.contribution call i)
        (∑ i ∈ rn.finalGroup r, (call.rank i).shared),
          rn.zeroOut mono call r (rn.dispatched r)) := by
  have hunreduced := fusedOutputIsReduced_of_no_overlap hoverlap
  obtain ⟨final, himpl, hfinal⟩ := returns_forwardImpl hoverlap hpath hraises hL hptr
    fun h => (hfold h).1
  have hskip : (rn.layer.skipFinalAllReduce && rn.fusedOutputIsReduced) = false := by
    simp [hunreduced]
  have hreduced : rn.isReduced mono = rn.monokernelReduceFolded mono := by
    simp [isReduced, hunreduced]
  have hfinish : ∃ v, Returns (fun r => rn.finishForward mono (rn.sharedOut call r) (final r)) v ∧
      ∀ r, v r (rn.home r) = rn.addScaled c (∑ i ∈ rn.finalGroup r, rn.contribution call i)
        (∑ i ∈ rn.finalGroup r, (call.rank i).shared) := by
    cases h : rn.monokernelFoldsShared mono with
    | true =>
      obtain ⟨v, hv, hvSpec⟩ := finish_folded h (hfold h).2 hskip fun r =>
        (hfinal r).2.trans (combined_opValue_of_folds h (hfold h).1 r)
      have hrouted : rn.ScalesRouted := Or.inl (folds_spec h).2.2.2.2.2.2
      refine ⟨v, hv, fun r => (hvSpec r).trans ?_⟩
      rw [answer, addReduced, ← hscale r, scales_routedDtype (Or.inl hrouted), hrouted.scales_eq]
    | false =>
      refine finish_unfolded call h (hreduced ▸ hsp) hsharded hskip (fun r => ?_) fun r => ?_
      · rw [(hfinal r).1]
        exact hscale r
      · rw [(hfinal r).2, combined_opValue h hsp, hreduced]
  obtain ⟨v, hv, hvSpec⟩ := hfinish
  exact himpl.bind (hv.bind (Returns.ret fun r => by rw [hvSpec r]))

/-- The last step of a forward. -/
lemma forward_eq (r : rn.grid.Rank) : rn.forward mono call r =
    (rn.forwardImpl mono call r >>= fun x => rn.finishForward mono x.1 x.2.1 >>= fun out =>
      .ret (out (rn.home r), x.2.2)) >>= fun y => rn.addZeroExpertOutput call r y.2 y.1 := by
  simp only [Prog.bind_assoc, Prog.ret_bind]
  rfl

/-- A forward in which nothing raises and the launches agree: the two halves summed and scaled, and
the term of the zero experts. -/
theorem returns_forward (hoverlap : rn.layer.mkCanOverlapSharedExperts = false)
    (hpath : rn.LocalModular ∨ ∀ r, (rn.ordinaryOut mono call r (rn.dispatched r)).isSome)
    (hraises : ∀ r, rn.launches mono call r (rn.dispatched r) = true →
      (call.rank r).fusedRaises = false)
    {L : Except LaunchError (Option FusedLaunch)}
    (hL : rn.monokernelReduceFolded mono = true →
      (∀ r, rn.offers mono call (rn.dispatched r) = true → ∀ e, L ≠ .error e) ∧
      (∀ r i, rn.offers mono call (rn.dispatched r) = rn.offers mono call (rn.dispatched i)) ∧
        ∀ r, rn.launch call (rn.dispatched r) (rn.residualAt mono call r) = L)
    (hptr : rn.NoAlias call)
    (hfold : rn.monokernelFoldsShared mono = true → rn.gathersPcp = false ∧ rn.truncSizes.1 = none)
    (hsp : rn.monokernelReduceFolded mono = true → rn.isSequenceParallel = false)
    (hsharded : rn.reduces = false → rn.grid.tp ≤ 1) {c : K × K}
    (hscale : ∀ r, rn.scales (rn.routedDtype mono call r (rn.dispatched r)) = c)
    (hzero : rn.zeroExpertRouter = true →
      rn.gathersPcp = false ∧ ∀ r, rn.serves mono call r (rn.dispatched r) = false) :
    Returns (fun r => rn.forward mono call r) fun r =>
      rn.addScaled c (∑ i ∈ rn.finalGroup r, rn.contribution call i)
        (∑ i ∈ rn.finalGroup r, (call.rank i).shared) + rn.zeroTerm call r := by
  simp only [forward_eq]
  refine (returns_halves hoverlap hpath hraises hL hptr hfold hsp hsharded hscale).bind
    (Returns.ret fun r => ?_)
  exact addZeroExpertOutput_eq (fun h => ⟨(hzero h).1, (hzero h).2 r⟩) _

omit [Field K] [DecidableEq K] in
/-- Without data parallelism all ranks hand equally many rows to the op. -/
lemma rows_uniform (call : MoECall rn.grid K) (hdp : rn.grid.dp ≤ 1)
    (hsp : rn.isSequenceParallel = false)
    (r i : rn.grid.Rank) : call.rows {rn.home r} = call.rows {rn.home i} ∧
      call.rows (rn.dispatched r) = call.rows (rn.dispatched i) := by
  have : Subsingleton (Fin rn.grid.dp) := Fin.subsingleton_iff_le_one.mpr hdp
  have hd : r.1 = i.1 := Subsingleton.elim _ _
  have hown : call.rows {rn.home r} = call.rows {rn.home i} := by
    simp [MoECall.rows, home, hsp, hd]
  refine ⟨hown, ?_⟩
  unfold dispatched
  cases rn.gathersPcp with
  | false => exact hown
  | true =>
    have himage : ∀ j : rn.grid.Rank, (rn.grid.members .pcp j).image rn.home =
        Finset.univ.image fun p => (j.1, p, none) := by
      intro j
      simp only [Grid.members, Finset.image_image]
      refine Finset.image_congr fun p _ => ?_
      simp [home, hsp]
    simp only [if_true, himage, hd]

omit [DecidableEq K] in
/-- Ranks with equally many rows decide alike on the launch. -/
lemma launch_congr {r i : rn.grid.Rank} (hown : call.rows {rn.home r} = call.rows {rn.home i})
    (hrows : call.rows (rn.dispatched r) = call.rows (rn.dispatched i)) :
    rn.launch call (rn.dispatched r) (rn.residualAt mono call r) =
      rn.launch call (rn.dispatched i) (rn.residualAt mono call i) := by
  have hresidual : (rn.residualAt mono call r).map (rn.asResidual call) =
      (rn.residualAt mono call i).map (rn.asResidual call) := by
    unfold residualAt pendingAtLaunch
    cases rn.sharedExperts with
    | none => rfl
    | some shared =>
      simp only [hown]
      split_ifs <;> simp [asResidual, sharedTensor, hown]
  unfold launch
  rw [hrows, hresidual]

omit [Field K] [DecidableEq K] in
/-- With an asynchronous prepare/finalize the monokernel is not offered the work. -/
lemma of_overlap (mono : Bool) (hoverlap : rn.layer.mkCanOverlapSharedExperts = true) :
    rn.prepareFinalize = .deepEPHT ∧ rn.monokernelReduceFolded mono = false ∧
      rn.monokernelFoldsShared mono = false := by
  have hfolded : rn.monokernelReduceFolded mono = false := by
    simp [monokernelReduceFolded, fusedTpEligible, hoverlap]
  refine ⟨?_, hfolded, by simp [monokernelFoldsShared, hfolded]⟩
  have hasync := rn.overlap_eq
  rw [hoverlap] at hasync
  revert hasync
  cases rn.prepareFinalize <;> simp [PrepareFinalize.supportsAsync]

omit [DecidableEq K] in
/-- The shared experts have run behind the modular kernel, inside it or before it. -/
lemma applySharedExperts_async (hoverlap : rn.layer.mkCanOverlapSharedExperts = true)
    (r : rn.grid.Rank) :
    (rn.applySharedExperts call r .mkInternalOverlapped (rn.pendingAtLaunch call r) >>=
    fun pending =>
      rn.applySharedExperts call r .multiStreamOverlapped pending >>= rn.popOutput) =
        .ret (rn.sharedOut call r) := by
  unfold applySharedExperts pendingAtLaunch sharedOut popOutput
  cases rn.sharedExperts with
  | none => rfl
  | some shared =>
    have horder : rn.sharedExpertsOrder shared (call.rows {rn.home r}) = .noOverlap ∨
        rn.sharedExpertsOrder shared (call.rows {rn.home r}) = .mkInternalOverlapped := by
      simp only [sharedExpertsOrder, SharedExperts.determineOrder, hoverlap, if_true]
      split_ifs <;> simp
    rcases horder with h | h <;> simp [h]

omit [DecidableEq K] in
/-- With an asynchronous prepare/finalize the modular kernel runs. -/
lemma serves_of_overlap (hoverlap : rn.layer.mkCanOverlapSharedExperts = true) (r : rn.grid.Rank)
    (b : Finset rn.grid.Home) : rn.serves mono call r b = false := by
  simp [serves, launches, ordinaryOut, offers, hoverlap]

/-- The asynchronous kernel leaves the sum over the expert-parallel group with every rank. -/
lemma returns_applyQuantMethod_async (hoverlap : rn.layer.mkCanOverlapSharedExperts = true)
    (hgather : rn.gathersPcp = false) :
    Returns (fun r => rn.applyQuantMethod mono call r (rn.dispatched r)) fun r =>
      (rn.sharedOut call r,
        ⟨{rn.home r}, restrict {rn.home r} (∑ i ∈ rn.grid.members .ep r, (call.rank i).routed),
          rn.inDtype, (call.rank r).modularPtr⟩,
        rn.zeroOut mono call r (rn.dispatched r)) := by
  obtain ⟨hpf, hfolded, hfold⟩ := of_overlap mono hoverlap
  have hdispatched : ∀ r, rn.dispatched r = {rn.home r} := by simp [dispatched, hgather]
  have hzero : ∀ r, rn.zeroOut mono call r (rn.dispatched r) =
      some (call.rows {rn.home r}, (call.rank r).zeroSelected) := fun r => by
    simp [zeroOut, serves_of_overlap hoverlap, hdispatched]
  refine Returns.enter .exchange (x := fun i => ({rn.home i}, (call.rank i).routed))
    (k := fun r v =>
      (rn.applySharedExperts call r .mkInternalOverlapped (rn.pendingAtLaunch call r) >>=
        fun pending =>
        rn.applySharedExperts call r .multiStreamOverlapped pending >>= rn.popOutput) >>=
          fun shared =>
          .ret (shared, ⟨{rn.home r}, v, rn.inDtype, (call.rank r).modularPtr⟩,
            some (call.rows {rn.home r}, (call.rank r).zeroSelected))) (fun r => ?_) ?_
  · unfold applyQuantMethod
    rw [applySharedExperts_first]
    simp only [hfold, hdispatched, maybeMoeMonokernel, hoverlap, if_true, Prog.ret_bind,
      selectAndForward, forwardModular, hpf, reduceInside, hfolded, Bool.false_and,
      Bool.false_eq_true, if_false, Prog.bind_assoc]
    exact congrArg (Prog.enter (C := network rn.grid K) RunnerOp.exchange _)
      (funext fun v => Prog.bind_assoc _ _ _)
  · simp only [applySharedExperts_async hoverlap, Prog.ret_bind]
    refine Returns.ret fun r => ?_
    rw [hzero r]
    rfl

/-- On a single tensor-parallel group the asynchronous path returns the same. -/
lemma returns_forward_async (hoverlap : rn.layer.mkCanOverlapSharedExperts = true)
    (hdp : rn.grid.dp ≤ 1) (hpcp : rn.grid.pcp ≤ 1) (hsp : rn.isSequenceParallel = false)
    (hskip : rn.layer.skipFinalAllReduce = false) (hsharded : rn.reduces = false → rn.grid.tp ≤ 1) :
    Returns (fun r => rn.forward mono call r) fun r =>
      rn.addScaled (rn.scales rn.inDtype) (∑ i ∈ rn.finalGroup r, rn.contribution call i)
        (∑ i ∈ rn.finalGroup r, (call.rank i).shared) + rn.zeroTerm call r := by
  obtain ⟨hpf, -, hfold⟩ := of_overlap mono hoverlap
  have hgather : rn.gathersPcp = false := by simp [gathersPcp, hpcp.not_gt]
  have hreduced : rn.isReduced mono = true := by
    simp [isReduced, fusedOutputIsReduced, hpf, PrepareFinalize.outputIsReduced]
  let out : rn.grid.Rank → Tensor rn.grid K := fun r =>
    ⟨{rn.home r}, restrict {rn.home r} (∑ i ∈ rn.grid.members .ep r, (call.rank i).routed),
      rn.inDtype, (call.rank r).modularPtr⟩
  have hop : Returns (fun r => rn.applyQuantMethod mono call r (rn.dispatched r)) fun r =>
      (rn.sharedOut call r, out r, rn.zeroOut mono call r (rn.dispatched r)) :=
    returns_applyQuantMethod_async hoverlap hgather
  obtain ⟨final, hfinal, hfinalSpec⟩ := returns_maybeCombine call out
  have : Subsingleton (Fin rn.grid.dp) := Fin.subsingleton_iff_le_one.mpr hdp
  have : Subsingleton (Fin rn.grid.pcp) := Fin.subsingleton_iff_le_one.mpr hpcp
  have hdtype : ∀ r, rn.scales (final r).dtype = rn.scales rn.inDtype := fun r =>
    congrArg rn.scales (hfinalSpec r).1
  have hvalue : ∀ r, (final r).value (rn.home r) =
      ∑ i ∈ rn.stepGroup (rn.isReduced mono) r, rn.contribution call i := by
    intro r
    have hall : rn.grid.members .ep r = rn.grid.members .tp r := by
      ext i
      simp [Grid.mem_tp, Subsingleton.elim i.1 r.1, Subsingleton.elim i.2.1 r.2.1]
    have hsum := sum_at_home (b := true) (r := r) (fun _ => hsp) fun i => (call.rank i).routed
    rw [(hfinalSpec r).2, hreduced]
    simp only [combined, contribution, hgather, Bool.false_eq_true, if_false]
    refine Eq.trans ?_ hsum
    simp [out, restrict, hall, stepGroup]
  obtain ⟨v, hv, hvSpec⟩ := finish_unfolded call hfold (fun _ => hsp) hsharded (by simp [hskip])
    hdtype hvalue
  have himpl : Returns (fun r => rn.forwardImpl mono call r) fun r =>
      (rn.sharedOut call r, final r, rn.zeroOut mono call r (rn.dispatched r)) :=
    returns_maybeDispatch.bind (hop.bind (hfinal.bind (Returns.ret fun _ => rfl)))
  refine himpl.bind (hv.bind (Returns.ret fun r => ?_))
  rw [addZeroExpertOutput_eq fun _ => ⟨hgather, serves_of_overlap hoverlap _ _⟩, hvSpec r]

/-- No fused launch of the forward fails, neither in the checks in front of it nor by itself. -/
def LaunchesSucceed (rn : MoERunner K) (call : MoECall rn.grid K) : Prop :=
  ∀ r, (rn.launches true call r (rn.dispatched r) = true → (call.rank r).fusedRaises = false) ∧
    (rn.offers true call (rn.dispatched r) = true → fusedTpEligible true rn.layer = true →
      ∀ e, rn.launch call (rn.dispatched r) (rn.residualAt true call r) ≠ .error e)

/-- A forward without data parallelism, with the monokernel or without. -/
lemma returns_forward_of_local (hdp : rn.grid.dp ≤ 1)
    (hoverlap : rn.layer.mkCanOverlapSharedExperts = false) (hlocal : rn.LocalModular)
    (hlaunch : rn.LaunchesSucceed call) (hptr : rn.NoAlias call)
    (hfold : rn.monokernelFoldsShared mono = true → rn.gathersPcp = false ∧ rn.truncSizes.1 = none)
    (hsp : rn.monokernelReduceFolded mono = true → rn.isSequenceParallel = false)
    (hsharded : rn.reduces = false → rn.grid.tp ≤ 1)
    (hscale : rn.ScalesRouted ∨ ∀ r, rn.serves mono call r (rn.dispatched r) = false)
    (hzero : rn.zeroExpertRouter = true →
      rn.gathersPcp = false ∧ ∀ r, rn.serves mono call r (rn.dispatched r) = false) :
    Returns (fun r => rn.forward mono call r) fun r =>
      rn.addScaled (rn.scales rn.inDtype) (∑ i ∈ rn.finalGroup r, rn.contribution call i)
        (∑ i ∈ rn.finalGroup r, (call.rank i).shared) + rn.zeroTerm call r := by
  rcases isEmpty_or_nonempty rn.grid.Rank with hempty | ⟨⟨r₀⟩⟩
  · exact Returns.ret fun r => (hempty.false r).elim
  · refine returns_forward (L := rn.launch call (rn.dispatched r₀) (rn.residualAt mono call r₀))
      hoverlap (Or.inl hlocal) (fun r hr => ?_) (fun hfolded => ?_) hptr hfold hsp hsharded
      (fun r => scales_routedDtype (hscale.imp_right fun h => h r)) hzero
    · cases mono with
      | true => exact (hlaunch r).1 hr
      | false => simp [launches, offers] at hr
    have heligible : fusedTpEligible mono rn.layer = true := (Bool.and_eq_true_iff.mp hfolded).1
    have hmono : mono = true := by
      cases mono with
      | true => rfl
      | false => simp [fusedTpEligible] at heligible
    subst hmono
    have huniform := rows_uniform call hdp (hsp hfolded)
    have hoffers : ∀ r i, rn.offers true call (rn.dispatched r) =
        rn.offers true call (rn.dispatched i) := fun r i => by
      unfold offers
      rw [(huniform r i).2]
    exact ⟨fun r hr => (hlaunch r₀).2 ((hoffers r₀ r).trans hr) heligible, hoffers, fun r =>
      launch_congr (huniform r r₀).1 (huniform r r₀).2⟩

omit [DecidableEq K] in
/-- Without the monokernel the modular kernel runs on every rank. -/
lemma serves_without (call : MoECall rn.grid K) (r : rn.grid.Rank) (b : Finset rn.grid.Home) :
    rn.serves false call r b = false := by
  simp [serves, launches, ordinaryOut, offers]

omit [Field K] [DecidableEq K] in
/-- Without the monokernel a forward folds nothing. -/
lemma not_folded_without (rn : MoERunner K) : rn.monokernelReduceFolded false = false ∧
    rn.monokernelFoldsShared false = false := by
  have hfolded : rn.monokernelReduceFolded false = false := by
    simp [monokernelReduceFolded, fusedTpEligible]
  exact ⟨hfolded, by simp [monokernelFoldsShared, hfolded]⟩

end Forward

end MoERunner

end UnimonoMoe
