import UnimonoMoe.Host.SingleReduction

/-!
# Bypassing the modular kernel

The monokernel takes the place of the whole modular kernel, with its prepare and its finalize.  It
returns what the experts of the rank contribute to the rank's own rows.  The modular kernel of a
data-parallel layer gathers the rows of the other ranks first and sums over them afterwards
(`returns_forward_false`), and the load gate does not ask which of the two the layer has.  The
monokernel also routes by itself, so that a router with zero experts is never asked for their
output.  `bypass_iff` says for which configurations a forward with the monokernel returns what it
returns without.
-/

namespace UnimonoMoe

open Collectives

namespace MoERunner

section Declined

variable {K : Type} [Field K] [DecidableEq K] {rn : MoERunner K} {mono : Bool}
  {call : MoECall rn.grid K} {batch : rn.grid.Rank → Finset rn.grid.Home} {r : rn.grid.Rank}

/-- The ranks whose experts the modular kernel sums over for the rows of a rank. -/
def modularGroup (rn : MoERunner K) (r : rn.grid.Rank) : Finset rn.grid.Rank :=
  match rn.prepareFinalize with
  | .noDPEP => {r}
  | .naiveDPEP => rn.grid.members rn.commGroup r
  | .deepEPHT => rn.grid.members .ep r

/-- What the modular kernel hands out. -/
def modularOut (rn : MoERunner K) (call : MoECall rn.grid K) (b : Finset rn.grid.Home)
    (r : rn.grid.Rank) : Tensor rn.grid K :=
  ⟨b, restrict b (∑ i ∈ rn.modularGroup r, (call.rank i).routed), rn.inDtype,
    (call.rank r).modularPtr⟩

omit [DecidableEq K] in
/-- The modular kernel on all ranks. -/
lemma returns_forwardModular (hoverlap : rn.layer.mkCanOverlapSharedExperts = false)
    (pending : rn.grid.Rank → Option (Tensor rn.grid K)) :
    Returns (fun r => rn.forwardModular call r (batch r) (pending r)) fun r =>
      (rn.modularOut call (batch r) r, pending r) := by
  have hasync := rn.overlap_eq
  rw [hoverlap] at hasync
  unfold forwardModular modularOut modularGroup
  cases hpf : rn.prepareFinalize with
  | deepEPHT => simp [hpf, PrepareFinalize.supportsAsync] at hasync
  | noDPEP => exact Returns.ret fun r => by simp [kernelOut]
  | naiveDPEP =>
    let gathered := fun r => (rn.grid.members rn.commGroup r).biUnion batch
    refine Returns.enter (.gather rn.commGroup) (x := batch)
      (k := fun r gathered => .enter (.reduceScatter rn.commGroup)
        (batch r, restrict gathered (call.rank r).routed)
        fun out => .ret (⟨batch r, out, rn.inDtype, (call.rank r).modularPtr⟩, pending r))
      (fun r => rfl) ?_
    refine Returns.enter (.reduceScatter rn.commGroup)
      (x := fun r => (batch r, restrict (gathered r) (call.rank r).routed))
      (k := fun r out => .ret (⟨batch r, out, rn.inDtype, (call.rank r).modularPtr⟩, pending r))
      (fun r => rfl) (Returns.ret fun r => ?_)
    -- every rank of the group has gathered the rows of `r`
    have hvalue : restrict (batch r)
        (∑ i ∈ rn.grid.members rn.commGroup r, restrict (gathered i) (call.rank i).routed) =
          restrict (batch r) (∑ i ∈ rn.grid.members rn.commGroup r, (call.rank i).routed) := by
      funext h
      by_cases hh : h ∈ batch r
      · simp only [restrict, hh, if_true, Finset.sum_apply]
        refine Finset.sum_congr rfl fun i hi => if_pos ?_
        exact Finset.mem_biUnion.mpr ⟨r, Grid.mem_symm hi, hh⟩
      · simp [restrict, hh]
    exact congrArg (fun v => Prog.ret
      ((⟨batch r, v, rn.inDtype, (call.rank r).modularPtr⟩ : Tensor rn.grid K), pending r)) hvalue

omit [DecidableEq K] in
/-- Selecting experts and the modular kernel, on all ranks. -/
lemma returns_selectAndForward (hoverlap : rn.layer.mkCanOverlapSharedExperts = false)
    (pending : rn.grid.Rank → Option (Tensor rn.grid K)) :
    Returns (fun r => rn.selectAndForward call r (batch r) (pending r)) fun r =>
      (rn.modularOut call (batch r) r, pending r,
        some (call.rows (batch r), (call.rank r).zeroSelected)) :=
  (returns_forwardModular hoverlap pending).bind (Returns.ret fun _ => rfl)

/-- The op of a rank that does not offer its rows to the monokernel. -/
lemma applyQuantMethod_of_declined {b : Finset rn.grid.Home}
    (hoffers : rn.offers mono call b = false) :
    rn.applyQuantMethod mono call r b = rn.selectAndForward call r b (rn.pendingAtLaunch call r) >>=
      fun x => (rn.applySharedExperts call r .multiStreamOverlapped x.2.1 >>= rn.popOutput) >>=
        fun shared => rn.reduceInside mono call (rn.residualAt mono call r) shared x.1 >>=
          fun final => .ret (shared, final, x.2.2) := by
  have hnone : rn.ordinaryOut mono call r b = none := by simp [ordinaryOut, hoffers]
  rw [applyQuantMethod_eq, maybeMoeMonokernel_of_ordinary _ (Or.inl hoffers), hnone, Prog.ret_bind]

/-- What the tokens of a rank get from the modular kernel, and from the ranks that the runner
combines them with. -/
def modularContribution (rn : MoERunner K) (call : MoECall rn.grid K) (r : rn.grid.Rank) : Rows K :=
  rn.combined (fun i => (rn.modularOut call (rn.dispatched i) i).value) r

/-- Without the monokernel a forward returns what the modular kernel makes of the routed half. -/
theorem returns_forward_false (hoverlap : rn.layer.mkCanOverlapSharedExperts = false)
    (hsharded : rn.reduces = false → rn.grid.tp ≤ 1) (hzero : rn.zeroExpertRouter = false) :
    Returns (fun r => rn.forward false call r) fun r =>
      rn.addScaled (rn.scales rn.inDtype) (∑ i ∈ rn.finalGroup r, rn.modularContribution call i)
        (∑ i ∈ rn.finalGroup r, (call.rank i).shared) := by
  obtain ⟨hfolded, hfold⟩ := not_folded_without rn
  have hunreduced := fusedOutputIsReduced_of_no_overlap hoverlap
  have hreduced : rn.isReduced false = false := by simp [isReduced, hunreduced, hfolded]
  have hop : Returns (fun r => rn.applyQuantMethod false call r (rn.dispatched r)) fun r =>
      (rn.sharedOut call r, rn.modularOut call (rn.dispatched r) r,
        some (call.rows (rn.dispatched r), (call.rank r).zeroSelected)) := by
    have hoffers : ∀ b, rn.offers false call b = false := by simp [offers]
    simp only [applyQuantMethod_of_declined (hoffers _)]
    refine (returns_selectAndForward hoverlap (rn.pendingAtLaunch call)).bind ?_
    simp only [applySharedExperts_second hoverlap, Prog.ret_bind]
    exact Returns.ret fun r => by simp [reduceInside, hfolded]
  obtain ⟨final, hfinal, hfinalSpec⟩ := returns_maybeCombine call
    fun r => rn.modularOut call (rn.dispatched r) r
  have hscale : ∀ r, rn.scales (final r).dtype = rn.scales rn.inDtype := fun r =>
    congrArg rn.scales (hfinalSpec r).1
  have hvalue : ∀ r, (final r).value (rn.home r) =
      ∑ i ∈ rn.stepGroup (rn.isReduced false) r, rn.modularContribution call i := by
    intro r
    rw [(hfinalSpec r).2, hreduced]
    exact (Finset.sum_singleton (rn.modularContribution call) r).symm
  obtain ⟨v, hv, hvSpec⟩ := finish_unfolded call hfold (by simp [hreduced]) hsharded
    (by simp [hunreduced]) hscale hvalue
  have himpl : Returns (fun r => rn.forwardImpl false call r) fun r =>
      (rn.sharedOut call r, final r,
        some (call.rows (rn.dispatched r), (call.rank r).zeroSelected)) :=
    returns_maybeDispatch.bind (hop.bind (hfinal.bind (Returns.ret fun _ => rfl)))
  refine himpl.bind (hv.bind (Returns.ret fun r => ?_))
  simp [addZeroExpertOutput, hzero, hvSpec]

/-! ### Who contributes -/

/-- The ranks that the runner itself combines with. -/
def gatherGroup (rn : MoERunner K) (r : rn.grid.Rank) : Finset rn.grid.Rank :=
  if rn.gathersPcp then rn.grid.members .pcp r else {r}

omit [Field K] [DecidableEq K] in
/-- The gather goes across the prefill context ranks. -/
lemma mem_gatherGroup {i : rn.grid.Rank} (h : i ∈ rn.gatherGroup r) :
    i.1 = r.1 ∧ i.2.2 = r.2.2 := by
  unfold gatherGroup at h
  split_ifs at h
  · exact Grid.mem_pcp.mp h
  · simp [Finset.mem_singleton.mp h]

omit [Field K] [DecidableEq K] in
/-- A rank gathers from itself. -/
lemma self_mem_gatherGroup (r : rn.grid.Rank) : r ∈ rn.gatherGroup r := by
  unfold gatherGroup
  split_ifs
  · exact Grid.mem_self
  · exact Finset.mem_singleton_self r

omit [DecidableEq K] in
/-- What the monokernel contributes is the routed part of the gathered ranks. -/
lemma contribution_eq (r : rn.grid.Rank) :
    rn.contribution call r = ∑ i ∈ rn.gatherGroup r, (call.rank i).routed (rn.home r) := by
  unfold contribution gatherGroup
  split_ifs <;> simp

omit [DecidableEq K] in
/-- What the modular kernel contributes is that of their groups. -/
lemma modularContribution_eq (r : rn.grid.Rank) : rn.modularContribution call r =
    ∑ i ∈ rn.gatherGroup r, ∑ j ∈ rn.modularGroup i, (call.rank j).routed (rn.home r) := by
  unfold modularContribution combined gatherGroup modularOut dispatched
  split_ifs with hgather
  · refine Finset.sum_congr rfl fun i hi => ?_
    have hmem : rn.home r ∈ (rn.grid.members .pcp i).image rn.home :=
      Finset.mem_image_of_mem _ (Grid.mem_symm hi)
    simp [restrict, hmem]
  · simp [restrict]

omit [Field K] [DecidableEq K] in
/-- The late all-reduce is among the tensor-parallel ranks. -/
lemma finalGroup_subset (r : rn.grid.Rank) : rn.finalGroup r ⊆ rn.grid.members .tp r := by
  unfold finalGroup
  split_ifs
  · simp
  · exact Finset.Subset.refl _

omit [Field K] [DecidableEq K] in
/-- It includes the rank itself. -/
lemma self_mem_finalGroup (r : rn.grid.Rank) : r ∈ rn.finalGroup r := by
  unfold finalGroup
  split_ifs
  · exact Finset.mem_singleton_self r
  · exact Grid.mem_self

end Declined

/-! ## Configurations -/

section Configured

variable {K : Type} [Field K] [DecidableEq K] {rn : MoERunner K} {call : MoECall rn.grid K}
  {r : rn.grid.Rank}

/-- What the parallel configuration of a layer and the selection of its prepare/finalize promise. -/
structure Configured (rn : MoERunner K) : Prop where
  ranks : Nonempty rn.grid.Rank
  /-- selected without data parallelism and without all-to-all kernels -/
  noDPEP : rn.prepareFinalize = .noDPEP →
    rn.grid.dp ≤ 1 ∧ rn.useAll2AllKernels = false ∧ rn.isSequenceParallel = false
  /-- selected as an all-to-all kernel or for data parallelism -/
  naiveDPEP : rn.prepareFinalize = .naiveDPEP → rn.useAll2AllKernels = true ∨ 1 < rn.grid.dp
  /-- sequence parallelism comes with expert parallelism and all-to-all kernels -/
  sequenceParallel : rn.isSequenceParallel = true →
    rn.useAll2AllKernels = true ∧ rn.layer.tpSize = 1
  /-- the experts of a tensor-parallel group are sharded in one way or the other -/
  sharded : rn.reduces = false → rn.grid.tp ≤ 1
  /-- the output of the layer depends on its routed half -/
  visible : ∃ x y, rn.addReduced x y ≠ rn.addReduced 0 y

omit [DecidableEq K] in
/-- The fused epilogue is not entered under sequence parallelism. -/
lemma Configured.unscattered {mono : Bool} (hconfig : rn.Configured)
    (hfolded : rn.monokernelReduceFolded mono = true) : rn.isSequenceParallel = false := by
  by_contra hsp
  have htp := (hconfig.sequenceParallel (by simpa using hsp)).2
  simp [monokernelReduceFolded, fusedTpEligible, htp] at hfolded

omit [DecidableEq K] in
/-- The configurations in which the modular kernel moves no tokens. -/
lemma LocalModular.sizes (hlocal : rn.LocalModular) (hconfig : rn.Configured) :
    rn.grid.dp ≤ 1 ∧ (rn.gathersPcp = false → rn.grid.pcp ≤ 1) ∧
      (rn.isSequenceParallel = true → rn.grid.tp ≤ 1) := by
  obtain ⟨r⟩ := hconfig.ranks
  rcases hlocal with hpf | ⟨hpf, hgroup⟩
  · obtain ⟨hdp, hall2all, hsp⟩ := hconfig.noDPEP hpf
    refine ⟨hdp, fun hgather => ?_, fun h => absurd h (by simp [hsp])⟩
    simpa [gathersPcp, hall2all] using hgather
  · have halone : ∀ i ∈ rn.grid.members rn.commGroup r, i = r := by
      simp [hgroup r]
    cases hsp : rn.isSequenceParallel with
    | true =>
      have hall : ∀ i, i = r := fun i => halone i (by simp [commGroup, hsp])
      refine ⟨Fin.subsingleton_iff_le_one.mp ⟨fun d d' => ?_⟩,
        fun _ => Fin.subsingleton_iff_le_one.mp ⟨fun p p' => ?_⟩,
        fun _ => Fin.subsingleton_iff_le_one.mp ⟨fun t t' => ?_⟩⟩
      · exact congrArg Prod.fst ((hall (d, r.2)).trans (hall (d', r.2)).symm)
      · exact congrArg (·.2.1) ((hall (r.1, p, r.2.2)).trans (hall (r.1, p', r.2.2)).symm)
      · exact congrArg (·.2.2) ((hall (r.1, r.2.1, t)).trans (hall (r.1, r.2.1, t')).symm)
    | false =>
      by_cases hdp : 1 < rn.grid.dp
      · have hone : rn.grid.dp ≤ 1 := Fin.subsingleton_iff_le_one.mp ⟨fun d d' => by
          have hmem : ∀ d, (d, r.2) = r := fun d => halone _ (by simp [commGroup, hsp, hdp])
          exact congrArg Prod.fst ((hmem d).trans (hmem d').symm)⟩
        exact absurd hdp hone.not_gt
      · refine ⟨not_lt.mp hdp, fun _ => Fin.subsingleton_iff_le_one.mp ⟨fun p p' => ?_⟩, by simp⟩
        have hmem : ∀ p, (r.1, p, r.2.2) = r := fun p => halone _ (by simp [commGroup, hsp, hdp])
        exact congrArg (·.2.1) ((hmem p).trans (hmem p').symm)

omit [DecidableEq K] in
/-- In these the contributions that a forward sums up are those of all ranks. -/
lemma sum_contribution (hlocal : rn.LocalModular) (hconfig : rn.Configured)
    (hlater : rn.layer.skipFinalAllReduce = true → rn.routedOutputTransform ≠ none)
    (r : rn.grid.Rank) : ∑ i ∈ rn.finalGroup r, rn.contribution call i =
      ∑ i, (call.rank i).routed (rn.home r) := by
  obtain ⟨hdp, hpcp, htp⟩ := hlocal.sizes hconfig
  have : Subsingleton (Fin rn.grid.dp) := Fin.subsingleton_iff_le_one.mpr hdp
  have hgroup : rn.finalGroup r = rn.grid.members .tp r := by
    cases hsp : rn.isSequenceParallel with
    | true => simp [finalGroup, hsp, members_tp_eq_singleton (htp hsp) r]
    | false =>
      have hlate : (rn.layer.skipFinalAllReduce && rn.routedOutputTransform.isNone) = false := by
        cases hs : rn.layer.skipFinalAllReduce with
        | true => simpa [Option.isSome_iff_ne_none] using hlater hs
        | false => rfl
      simp [finalGroup, hsp, hlate]
  have hhome : ∀ i ∈ rn.grid.members .tp r, rn.home i = rn.home r := by
    intro i hi
    cases hsp : rn.isSequenceParallel with
    | true =>
      rw [members_tp_eq_singleton (htp hsp) r, Finset.mem_singleton] at hi
      rw [hi]
    | false => exact home_eq_of_mem (b := true) (fun _ => hsp) hi
  have hgather : ∀ (i : rn.grid.Rank) (f : rn.grid.Rank → Rows K),
      ∑ j ∈ rn.gatherGroup i, f j = ∑ p, f (i.1, p, i.2.2) := by
    intro i f
    unfold gatherGroup
    cases hg : rn.gathersPcp with
    | true => exact sum_members_pcp i f
    | false =>
      have : Subsingleton (Fin rn.grid.pcp) := Fin.subsingleton_iff_le_one.mpr (hpcp hg)
      rw [Fintype.sum_subsingleton _ i.2.1]
      simp
  calc ∑ i ∈ rn.finalGroup r, rn.contribution call i
    _ = ∑ i ∈ rn.grid.members .tp r, ∑ p, (call.rank (i.1, p, i.2.2)).routed (rn.home r) := by
        rw [hgroup]
        refine Finset.sum_congr rfl fun i hi => ?_
        rw [contribution_eq, hgather, hhome i hi]
    _ = ∑ t, ∑ p, (call.rank (r.1, p, t)).routed (rn.home r) :=
        sum_members_tp r fun i => ∑ p, (call.rank (i.1, p, i.2.2)).routed (rn.home r)
    _ = ∑ i, (call.rank i).routed (rn.home r) := by
        rw [Fintype.sum_prod_type, Fintype.sum_subsingleton _ r.1, Fintype.sum_prod_type,
          Finset.sum_comm]

/-- The output of the shared experts can be added in the fused epilogue: wherever it is there in
time for a launch, it has the width and the type of the routed output and is contiguous. -/
def ResidualFits (rn : MoERunner K) : Prop :=
  ∀ shared ∈ rn.sharedExperts, ∀ n ≤ prefillMaxTokens, rn.plan.chunksFor n ≠ 0 →
    rn.sharedExpertsOrder shared n = .noOverlap →
      rn.inputWidths.2.getD 0 = rn.layer.hDim ∧ rn.inDtype = .bfloat16 ∧ shared.contiguous = true

omit [DecidableEq K] in
/-- The checks in front of a fused launch do not fail. -/
lemma launch_ne_error (hfits : rn.monokernelFoldsShared true = true → rn.ResidualFits)
    (hrows : rn.monokernelFoldsShared true = true →
      call.rows (rn.dispatched r) = call.rows {rn.home r})
    (hoffers : rn.offers true call (rn.dispatched r) = true) (e : LaunchError) :
    rn.launch call (rn.dispatched r) (rn.residualAt true call r) ≠ .error e := by
  by_cases hchunks : rn.plan.chunksFor (call.rows (rn.dispatched r)) = 0
  · have hnone : rn.launch call (rn.dispatched r) (rn.residualAt true call r) = .ok none := by
      simp [launch, fusedTpLaunch, hchunks]
    rw [hnone]
    exact fun h => by cases h
  have hle : call.rows (rn.dispatched r) ≤ prefillMaxTokens :=
    of_decide_eq_true (Bool.and_eq_true_iff.mp hoffers).2
  have hres : ∀ res ∈ (rn.residualAt true call r).map (rn.asResidual call),
      res.rows = call.rows (rn.dispatched r) ∧ res.cols = rn.layer.hDim ∧ res.bf16 = true ∧
        res.contiguous = true := by
    intro res hres
    obtain ⟨out, hout, rfl⟩ := Option.mem_map.mp hres
    unfold residualAt at hout
    split_ifs at hout with hfold
    · have hsame := hrows hfold
      unfold pendingAtLaunch at hout
      cases hshared : rn.sharedExperts with
      | none => simp [hshared] at hout
      | some shared =>
        simp only [hshared] at hout
        split_ifs at hout with horder
        · obtain rfl := Option.some.inj hout
          obtain ⟨hwidth, hdtype, hcontiguous⟩ := hfits hfold shared hshared _
            (hsame ▸ hle) (hsame ▸ hchunks) horder
          exact ⟨hsame.symm, hwidth, by simp [asResidual, sharedTensor, hdtype], by
            simp [asResidual, hshared, hcontiguous]⟩
        · cases hout
    · cases hout
  unfold launch fusedTpLaunch
  split_ifs with h1 h2 h3 h4 h5
  · simp
  · simp
  · obtain ⟨res, hmem, hbad⟩ := h3
    obtain ⟨hr, hc, hb, -⟩ := hres res hmem
    simp [hr, hc, hb] at hbad
  · obtain ⟨res, hmem, hbad⟩ := h4
    simp [(hres res hmem).2.2.2] at hbad
  · simp
  · exact absurd rn.slot_lt h5

end Configured

/-! ## When the bypass is harmless -/

section Bypass

variable {K : Type} [Field K] [DecidableEq K] {rn : MoERunner K} {r : rn.grid.Rank}

/-- A forward with `n` tokens on every rank, on which the ordinary monokernel does not fail. -/
def callOf (rn : MoERunner K) (n : ℕ) (routed : rn.grid.Rank → rn.grid.Home → Rows K)
    (shared : rn.grid.Rank → Rows K) : MoECall rn.grid K where
  tokens _ _ := n
  rank r := ⟨routed r, shared r, true, false, rn.poolBase + 1, rn.poolBase + 1, rn.poolBase + 1,
    none, 0⟩

omit [DecidableEq K] in
/-- The rows of a sample call. -/
lemma rows_callOf (n : ℕ) (routed : rn.grid.Rank → rn.grid.Home → Rows K)
    (shared : rn.grid.Rank → Rows K) (b : Finset rn.grid.Home) :
    (rn.callOf n routed shared).rows b = b.card * n := by
  simp [MoECall.rows, callOf]

omit [DecidableEq K] in
/-- Its tensors do not alias. -/
lemma noAlias_callOf (n : ℕ) (routed : rn.grid.Rank → rn.grid.Home → Rows K)
    (shared : rn.grid.Rank → Rows K) : rn.NoAlias (rn.callOf n routed shared) := fun _ =>
  ⟨Nat.succ_ne_self _, Nat.succ_ne_self _⟩

section Served

variable (hoverlap : rn.layer.mkCanOverlapSharedExperts = false) (hconfig : rn.Configured)
  (routed : rn.grid.Rank → rn.grid.Home → Rows K) (shared : rn.grid.Rank → Rows K)

include hoverlap

omit [DecidableEq K] in
/-- Calls without tokens are served by the monokernel on every rank. -/
lemma served_callOf_zero (b : Finset rn.grid.Home) (r : rn.grid.Rank) :
    (rn.ordinaryOut true (rn.callOf 0 routed shared) r b).isSome := by
  have hoffers : rn.offers true (rn.callOf 0 routed shared) b = true := by
    simp [offers, hoverlap, rows_callOf]
  have hreturns : ((rn.callOf 0 routed shared).rank r).ordinaryReturns = true := rfl
  simp [ordinaryOut, hoffers, hreturns]

omit hoverlap [DecidableEq K] in
/-- Their launches agree. -/
lemma launch_callOf_zero (hfits : rn.monokernelFoldsShared true = true → rn.ResidualFits)
    (r₀ : rn.grid.Rank) :
    (∀ r, rn.offers true (rn.callOf 0 routed shared) (rn.dispatched r) = true →
        ∀ e, rn.launch (rn.callOf 0 routed shared) (rn.dispatched r₀)
          (rn.residualAt true (rn.callOf 0 routed shared) r₀) ≠ .error e) ∧
      (∀ r i, rn.offers true (rn.callOf 0 routed shared) (rn.dispatched r) =
        rn.offers true (rn.callOf 0 routed shared) (rn.dispatched i)) ∧
      ∀ r, rn.launch (rn.callOf 0 routed shared) (rn.dispatched r)
          (rn.residualAt true (rn.callOf 0 routed shared) r) =
        rn.launch (rn.callOf 0 routed shared) (rn.dispatched r₀)
          (rn.residualAt true (rn.callOf 0 routed shared) r₀) := by
  have hoffers : ∀ r i, rn.offers true (rn.callOf 0 routed shared) (rn.dispatched r) =
      rn.offers true (rn.callOf 0 routed shared) (rn.dispatched i) := fun r i => by
    simp [offers, rows_callOf]
  refine ⟨fun r hr => ?_, hoffers, fun r => ?_⟩
  · exact launch_ne_error hfits (fun _ => by simp [rows_callOf]) ((hoffers r₀ r).trans hr)
  · exact launch_congr (by simp [rows_callOf]) (by simp [rows_callOf])

omit [DecidableEq K] in
/-- Their routed halves have the type of the monokernel. -/
lemma scales_callOf_zero (r : rn.grid.Rank) :
    rn.scales (rn.routedDtype true (rn.callOf 0 routed shared) r (rn.dispatched r)) =
      (1, rn.routedScalingFactor) := by
  have hserved := served_callOf_zero hoverlap routed shared (rn.dispatched r) r
  simp [routedDtype, serves, hserved, scales]

include hconfig

/-- What a forward on a call without tokens has in front of its last step. -/
lemma returns_halves_callOf_zero
    (hfits : rn.monokernelFoldsShared true = true → rn.ResidualFits)
    (hfold : rn.monokernelFoldsShared true = true → rn.gathersPcp = false ∧
      rn.truncSizes.1 = none) :
    Returns (fun r => rn.forwardImpl true (rn.callOf 0 routed shared) r >>= fun x =>
        rn.finishForward true x.1 x.2.1 >>= fun out => .ret (out (rn.home r), x.2.2)) fun r =>
      (rn.answer (rn.finalGroup r) (rn.contribution (rn.callOf 0 routed shared)) shared,
        none) := by
  obtain ⟨r₀⟩ := hconfig.ranks
  have hserved := fun r => served_callOf_zero hoverlap routed shared (rn.dispatched r) r
  refine (returns_halves hoverlap (Or.inr hserved) (fun _ _ => rfl)
    (fun _ => launch_callOf_zero routed shared hfits r₀) (noAlias_callOf 0 routed shared) hfold
    hconfig.unscattered hconfig.sharded (scales_callOf_zero hoverlap routed shared)).congr
      fun r => ?_
  have hheld : rn.zeroOut true (rn.callOf 0 routed shared) r (rn.dispatched r) = none := by
    rw [zeroOut, serves, hserved, Bool.or_true, if_pos rfl]
    rfl
  rw [hheld]
  rfl

/-- What a forward returns on a call without tokens, if there are no zero experts. -/
lemma returns_callOf_zero
    (hfits : rn.monokernelFoldsShared true = true → rn.ResidualFits)
    (hfold : rn.monokernelFoldsShared true = true → rn.gathersPcp = false ∧
      rn.truncSizes.1 = none) (hzero : rn.zeroExpertRouter = false) :
    Returns (fun r => rn.forward true (rn.callOf 0 routed shared) r) fun r =>
      rn.answer (rn.finalGroup r) (rn.contribution (rn.callOf 0 routed shared)) shared := by
  simp only [forward_eq]
  refine (returns_halves_callOf_zero hoverlap hconfig routed shared hfits hfold).bind
    (Returns.ret fun r => ?_)
  simp [addZeroExpertOutput, hzero]

end Served

omit [Field K] [DecidableEq K] in
/-- A gather brings the rows of more than one rank. -/
lemma one_lt_card_dispatched (hgather : rn.gathersPcp = true) (r : rn.grid.Rank) :
    1 < (rn.dispatched r).card := by
  simp only [dispatched, hgather, if_true]
  simp only [gathersPcp, Bool.and_eq_true, decide_eq_true_eq] at hgather
  have : Nontrivial (Fin rn.grid.pcp) := Fin.nontrivial_iff_two_le.mpr hgather.1
  obtain ⟨p, hp⟩ := exists_ne r.2.1
  have hpeer : (r.1, p, r.2.2) ∈ rn.grid.members .pcp r := Grid.mem_pcp.mpr ⟨rfl, rfl⟩
  exact Finset.one_lt_card.mpr ⟨rn.home r, Finset.mem_image_of_mem _ Grid.mem_self,
    rn.home (r.1, p, r.2.2), Finset.mem_image_of_mem _ hpeer,
    fun h => hp (congrArg (·.2.1) h).symm⟩

/-- Behind a modular kernel, a folded shared half is not added to more rows than it has. -/
lemma reduceInside_gathered (hoverlap : rn.layer.mkCanOverlapSharedExperts = false)
    (hfold : rn.monokernelFoldsShared true = true) {r : rn.grid.Rank}
    (hgather : 1 < (rn.dispatched r).card) (routed : rn.grid.Rank → rn.grid.Home → Rows K)
    (shared : rn.grid.Rank → Rows K) (n : ℕ) (hn : 1 < n) :
    rn.reduceInside true (rn.callOf n routed shared)
        (rn.residualAt true (rn.callOf n routed shared) r)
        (rn.sharedOut (rn.callOf n routed shared) r)
        (rn.modularOut (rn.callOf n routed shared) (rn.dispatched r) r) = .raise .rowMismatch := by
  obtain ⟨hshared, heligible, husable, -⟩ := folds_spec hfold
  have hrows : (rn.callOf n routed shared).rows (rn.dispatched r) ≠
      (rn.callOf n routed shared).rows {rn.home r} := by
    rw [rows_callOf, rows_callOf, Finset.card_singleton]
    exact fun h => hgather.ne' (Nat.eq_of_mul_eq_mul_right (by omega) h)
  have hone : (rn.callOf n routed shared).rows {rn.home r} ≠ 1 := by
    rw [rows_callOf, Finset.card_singleton]
    omega
  have hfolded : rn.monokernelReduceFolded true = true := by
    simp [monokernelReduceFolded, heligible, husable]
  have hpool : rn.outputIsFused
      (rn.modularOut (rn.callOf n routed shared) (rn.dispatched r) r) = false := by
    simp [outputIsFused, modularOut, callOf]
  have hadd : ∀ fused : Tensor rn.grid K, fused.batch = rn.dispatched r →
      rn.addHalves (rn.callOf n routed shared) fused
        (rn.sharedTensor (rn.callOf n routed shared) r) = .raise .rowMismatch := by
    intro fused hbatch
    unfold addHalves
    rw [hbatch]
    exact (if_neg hrows).trans (if_neg hone)
  have hunreduced := fusedOutputIsReduced_of_no_overlap hoverlap
  simp only [reduceInside, hfolded, hunreduced, hpool, hfold, sharedOut, hshared, if_true,
    Bool.not_false, Bool.and_self]
  rw [hadd _ (by split_ifs <;> rfl), Prog.raise_bind]

/-- The folded shared half cannot be added to gathered rows. -/
lemma gathersPcp_of_returns (hoverlap : rn.layer.mkCanOverlapSharedExperts = false)
    (hconfig : rn.Configured) (hfold : rn.monokernelFoldsShared true = true)
    (hreturns : ∀ call : MoECall rn.grid K, rn.NoAlias call →
      (∀ r, (call.rank r).fusedRaises = false) → ∃ v, Returns (fun r => rn.forward true call r) v) :
    rn.gathersPcp = false := by
  by_contra hgather
  rw [Bool.not_eq_false] at hgather
  obtain ⟨r₀⟩ := hconfig.ranks
  let call := rn.callOf (prefillMaxTokens + 1) 0 0
  obtain ⟨v, hv⟩ := hreturns call (noAlias_callOf _ _ _) fun _ => rfl
  have hmany : ∀ r, prefillMaxTokens < call.rows (rn.dispatched r) := by
    intro r
    have hpos : 0 < (rn.dispatched r).card := Nat.zero_lt_of_lt (one_lt_card_dispatched hgather r)
    rw [rows_callOf]
    exact Nat.lt_of_lt_of_le (Nat.lt_succ_self _) (Nat.le_mul_of_pos_left _ hpos)
  have hoffers : ∀ r, rn.offers true call (rn.dispatched r) = false := fun r => by
    simp [offers, hmany r]
  -- behind dispatch and modular kernel the sum of the two halves fails
  let rest := fun (r : rn.grid.Rank)
      (x : Option (Tensor rn.grid K) × Tensor rn.grid K × Option (ℕ × Rows K)) =>
    rn.maybeCombine {rn.home r} x.1 x.2.1 >>= fun y =>
      rn.finishForward true y.1 y.2 >>= fun out =>
        rn.addZeroExpertOutput call r x.2.2 (out (rn.home r))
  have hforward : ∀ r, rn.forward true call r = rn.maybeDispatch {rn.home r} >>= fun b =>
      rn.applyQuantMethod true call r b >>= rest r := by
    intro r
    simp only [forward, forwardImpl, rest, Prog.bind_assoc, Prog.ret_bind]
  simp only [hforward] at hv
  have hop := hv.of_steps (returns_maybeDispatch.lift_bind)
  simp only [applyQuantMethod_of_declined (hoffers _), Prog.bind_assoc] at hop
  refine (returns_selectAndForward hoverlap (rn.pendingAtLaunch call)).not_of_raise
    (r := r₀) (e := .rowMismatch) ?_ hop
  have hraise : rn.reduceInside true call (rn.residualAt true call r₀) (rn.sharedOut call r₀)
      (rn.modularOut call (rn.dispatched r₀) r₀) = .raise .rowMismatch :=
    reduceInside_gathered hoverlap hfold (one_lt_card_dispatched hgather r₀) _ _ _ (by decide)
  have hsecond : (rn.applySharedExperts call r₀ .multiStreamOverlapped
      (rn.pendingAtLaunch call r₀) >>=
      rn.popOutput) = .ret (rn.sharedOut call r₀) := applySharedExperts_second hoverlap r₀
  rw [← Prog.bind_assoc, hsecond, Prog.ret_bind, hraise]
  rfl

/-- The checks in front of the fused launch refuse a shared half that cannot be added. -/
lemma residualFits_of_returns (hoverlap : rn.layer.mkCanOverlapSharedExperts = false)
    (hconfig : rn.Configured) (hfold : rn.monokernelFoldsShared true = true)
    (hgather : rn.gathersPcp = false)
    (hreturns : ∀ call : MoECall rn.grid K, rn.NoAlias call →
      (∀ r, (call.rank r).fusedRaises = false) → ∃ v, Returns (fun r => rn.forward true call r) v) :
    rn.ResidualFits := by
  intro shared hshared n hn hchunks horder
  obtain ⟨r₀⟩ := hconfig.ranks
  obtain ⟨-, heligible, husable, hplan, -⟩ := folds_spec hfold
  let call := rn.callOf n 0 0
  obtain ⟨v, hv⟩ := hreturns call (noAlias_callOf _ _ _) fun _ => rfl
  have hrows : call.rows {rn.home r₀} = n := by simp [call, rows_callOf]
  have hdispatched : rn.dispatched r₀ = {rn.home r₀} := by simp [dispatched, hgather]
  have hpending : rn.pendingAtLaunch call r₀ = some (rn.sharedTensor call r₀) := by
    have hsome : rn.sharedExperts = some shared := hshared
    simp [pendingAtLaunch, hsome, hrows, horder]
  have hresidual : rn.residualAt true call r₀ = some (rn.sharedTensor call r₀) := by
    simp [residualAt, hfold, hpending]
  -- a launch that is refused ends the forward
  have hok : ∀ e, rn.launch call {rn.home r₀} (rn.residualAt true call r₀) ≠ .error e := by
    intro e he
    refine hv.ne_raise (r := r₀) (.launch e) ?_
    have hraise : rn.applyQuantMethod true call r₀ {rn.home r₀} = .raise (.launch e) := by
      have hfused : rn.launchFused call r₀ {rn.home r₀} (some (rn.sharedTensor call r₀))
          rn.routedScalingFactor = .raise (.launch e) := by
        rw [hresidual] at he
        unfold launch at he
        unfold launchFused
        rw [he]
      rw [applyQuantMethod_eq, hresidual]
      simp [maybeMoeMonokernel, hoverlap, tryMoeMonokernel, hrows, hn.not_gt, heligible, hfused]
    simp [forward, forwardImpl, maybeDispatch, hgather, hraise]
  have hres : (rn.residualAt true call r₀).map (rn.asResidual call) =
      some ⟨n, rn.inputWidths.2.getD 0, rn.inDtype = .bfloat16, shared.contiguous⟩ := by
    have hsome : rn.sharedExperts = some shared := hshared
    rw [hresidual]
    simp [asResidual, sharedTensor, hrows, hsome]
  by_contra hbad
  unfold launch at hok
  rw [hres, hrows] at hok
  unfold fusedTpLaunch at hok
  by_cases hshape : rn.inputWidths.2.getD 0 = rn.layer.hDim ∧ rn.inDtype = .bfloat16
  · have hcontiguous : shared.contiguous = false := by
      simpa [hshape.1, hshape.2] using hbad
    exact hok .residualLayout (by simp [husable, hchunks, hshape.1, hshape.2, hcontiguous])
  · exact hok .residualShape (by
      have hor : rn.inputWidths.2.getD 0 ≠ rn.layer.hDim ∨ rn.inDtype ≠ .bfloat16 :=
        not_and_or.mp hshape
      simp [husable, hchunks, hor])

/-- The fold refuses a padded routed half. -/
lemma truncSizes_of_returns (hoverlap : rn.layer.mkCanOverlapSharedExperts = false)
    (hconfig : rn.Configured) (hfold : rn.monokernelFoldsShared true = true)
    (hgather : rn.gathersPcp = false) (hfits : rn.ResidualFits)
    (hreturns : ∀ call : MoECall rn.grid K, rn.NoAlias call →
      (∀ r, (call.rank r).fusedRaises = false) → ∃ v, Returns (fun r => rn.forward true call r) v) :
    rn.truncSizes.1 = none := by
  by_contra hpad
  obtain ⟨r₀⟩ := hconfig.ranks
  obtain ⟨v, hv⟩ := hreturns (rn.callOf 0 0 0) (noAlias_callOf _ _ _) fun _ => rfl
  obtain ⟨final, himpl, -⟩ := returns_forwardImpl hoverlap
    (Or.inr fun r => served_callOf_zero hoverlap 0 0 _ r) (fun _ _ => rfl)
    (fun _ => launch_callOf_zero 0 0 (fun _ => hfits) r₀) (noAlias_callOf 0 0 0) fun _ => hgather
  refine himpl.not_of_raise (r := r₀) (e := .foldWithPadding) ?_ hv
  have hsome : rn.truncSizes.1.isSome = true := Option.isSome_iff_ne_none.mpr hpad
  simp [finishForward, hfold, hsome]

/-- Nobody has computed the zero experts' output of a call that the monokernel serves. -/
lemma zeroExpertRouter_of_returns (hoverlap : rn.layer.mkCanOverlapSharedExperts = false)
    (hconfig : rn.Configured) (hfits : rn.monokernelFoldsShared true = true → rn.ResidualFits)
    (hfold : rn.monokernelFoldsShared true = true → rn.gathersPcp = false ∧ rn.truncSizes.1 = none)
    (hreturns : ∀ call : MoECall rn.grid K, rn.NoAlias call →
      (∀ r, (call.rank r).fusedRaises = false) → ∃ v, Returns (fun r => rn.forward true call r) v) :
    rn.zeroExpertRouter = false := by
  by_contra hzero
  rw [Bool.not_eq_false] at hzero
  obtain ⟨r₀⟩ := hconfig.ranks
  obtain ⟨v, hv⟩ := hreturns (rn.callOf 0 0 0) (noAlias_callOf _ _ _) fun _ => rfl
  simp only [forward_eq] at hv
  refine (returns_halves_callOf_zero hoverlap hconfig 0 0 hfits hfold).not_of_raise (r := r₀)
    (e := .zeroExpertMissing) ?_ hv
  simp [addZeroExpertOutput, hzero]

omit [DecidableEq K] in
/-- The entries that an output keeps. -/
lemma narrowTo_const_ne_zero {n : Option ℕ} {w : Rows K} (h : narrowTo n w ≠ 0) {c : K}
    (hc : c ≠ 0) : narrowTo n (fun _ _ => c) ≠ 0 := by
  intro hzero
  cases n with
  | none => exact hc (congrFun (congrFun hzero 0) 0)
  | some n =>
    refine h (funext fun i => funext fun j => ?_)
    have hentry : (if j < n then c else 0) = 0 := congrFun (congrFun hzero i) j
    have hj : ¬ j < n := fun hj => hc (by rwa [if_pos hj] at hentry)
    exact if_neg hj

/-- In half precision the monokernel moves the scale from one half to the other. -/
lemma scalesRouted_of_agrees (hoverlap : rn.layer.mkCanOverlapSharedExperts = false)
    (hconfig : rn.Configured) (hfits : rn.monokernelFoldsShared true = true → rn.ResidualFits)
    (hfold : rn.monokernelFoldsShared true = true → rn.gathersPcp = false ∧ rn.truncSizes.1 = none)
    (hzero : rn.zeroExpertRouter = false)
    (hagrees : ∀ call : MoECall rn.grid K, rn.NoAlias call →
      (∀ r, (call.rank r).fusedRaises = false) →
        ∃ v, Returns (fun r => rn.forward true call r) v ∧
          Returns (fun r => rn.forward false call r) v) :
    rn.ScalesRouted := by
  by_contra hscale
  simp only [ScalesRouted, not_or, not_not] at hscale
  obtain ⟨hdtype, hshared, hone⟩ := hscale
  have hsome : rn.sharedExperts.isSome = true := Option.isSome_iff_ne_none.mpr hshared
  obtain ⟨r₀⟩ := hconfig.ranks
  -- one rank of a call without a routed half has a shared half
  let shared : rn.grid.Rank → Rows K := fun r => if r = r₀ then fun _ _ => 1 else 0
  obtain ⟨v, hv, hv'⟩ := hagrees (rn.callOf 0 0 shared) (noAlias_callOf _ _ _) fun _ => rfl
  have hleft := hv.unique (returns_callOf_zero hoverlap hconfig 0 shared hfits hfold hzero)
  have hright := hv'.unique (returns_forward_false hoverlap hconfig.sharded hzero)
  have heq := congrFun (hleft.symm.trans hright) r₀
  have hsum : ∑ i ∈ rn.finalGroup r₀, shared i = fun _ _ => 1 := by
    rw [Finset.sum_ite_eq']
    exact if_pos (self_mem_finalGroup r₀)
  have hcontribution : ∀ i, rn.contribution (rn.callOf 0 0 shared) i = 0 := by
    intro i
    rw [contribution_eq]
    exact Finset.sum_eq_zero fun _ _ => rfl
  have hmodular : ∀ i, rn.modularContribution (rn.callOf 0 0 shared) i = 0 := by
    intro i
    rw [modularContribution_eq]
    exact Finset.sum_eq_zero fun _ _ => Finset.sum_eq_zero fun _ _ => rfl
  have hown : ∀ i, ((rn.callOf 0 0 shared).rank i).shared = shared i := fun _ => rfl
  have hscales : rn.scales rn.inDtype = (rn.routedScalingFactor⁻¹, 1) := by
    simp [scales, hdtype, hsome]
  obtain ⟨x, y, hvisible⟩ := hconfig.visible
  have hkept : narrowTo rn.truncSizes.2 (fun _ _ => (1 - rn.routedScalingFactor⁻¹ : K)) ≠ 0 := by
    have hnonzero : ∃ w, narrowTo rn.truncSizes.2 w ≠ (0 : Rows K) := by
      by_contra hall
      push Not at hall
      exact hvisible (by simp [addReduced, addScaled, hall])
    obtain ⟨w, hw⟩ := hnonzero
    refine narrowTo_const_ne_zero hw fun hzero => hone ?_
    rwa [sub_eq_zero, eq_comm, inv_eq_one] at hzero
  refine hkept ?_
  have hsplit : (fun _ _ => 1 - rn.routedScalingFactor⁻¹ : Rows K) =
      (fun _ _ => 1) - rn.routedScalingFactor⁻¹ • fun _ _ => 1 := by
    funext i j
    simp
  simp only [answer, addReduced, addScaled, hown, hsum, hcontribution, hmodular, hscales, hsome,
    Finset.sum_const_zero, map_zero, smul_zero, map_add, one_smul, if_true] at heq
  rw [hsplit, map_sub, sub_eq_zero]
  exact add_right_cancel heq

omit [DecidableEq K] in
/-- A rank `i` of the group that the modular kernel of `r` sums over is out of reach of a forward
with the monokernel, and of a forward without it within reach once. -/
lemma reach_of_modularGroup (hconfig : rn.Configured) (hpf : rn.prepareFinalize = .naiveDPEP)
    {i : rn.grid.Rank} (hi : i ∈ rn.modularGroup r) (hne : i ≠ r) :
    (∀ j ∈ rn.finalGroup r, i ∉ rn.gatherGroup j) ∧
      ∀ j ∈ rn.finalGroup r, ∀ k ∈ rn.gatherGroup j, i ∈ rn.modularGroup k → j = r ∧ k = r := by
  have hgroup : ∀ k, rn.modularGroup k = rn.grid.members rn.commGroup k := fun k => by
    simp [modularGroup, hpf]
  have htp : ∀ j ∈ rn.finalGroup r, j.1 = r.1 ∧ j.2.1 = r.2.1 := fun j hj =>
    Grid.mem_tp.mp (finalGroup_subset r hj)
  have hlocal : rn.gathersPcp = false → ∀ {j k}, k ∈ rn.gatherGroup j → k = j := by
    intro hgather j k hk
    simpa [gatherGroup, hgather] using hk
  simp only [hgroup] at hi ⊢
  by_cases hsp : rn.isSequenceParallel = true
  · -- the forward itself sums over nobody
    have hgather : rn.gathersPcp = false := by
      simp [gathersPcp, (hconfig.sequenceParallel hsp).1]
    have hfinal : rn.finalGroup r = {r} := by simp [finalGroup, hsp]
    rw [hfinal]
    refine ⟨fun j hj h => hne ?_, fun j hj k hk _ => ?_⟩
    · exact (hlocal hgather h).trans (Finset.mem_singleton.mp hj)
    · exact ⟨Finset.mem_singleton.mp hj, (hlocal hgather hk).trans (Finset.mem_singleton.mp hj)⟩
  · by_cases hdp : 1 < rn.grid.dp
    · -- `i` is another data-parallel rank
      have hcomm : rn.commGroup = .dp := by simp [commGroup, hsp, hdp]
      simp only [hcomm, Grid.mem_dp] at hi ⊢
      refine ⟨fun j hj h => hne ?_, fun j hj k hk h => ?_⟩
      · exact Prod.ext ((mem_gatherGroup h).1.trans (htp j hj).1) hi
      · have hkr : k = r := Prod.ext ((mem_gatherGroup hk).1.trans (htp j hj).1) (h.symm.trans hi)
        have hjt : j.2.2 = r.2.2 := (mem_gatherGroup hk).2.symm.trans (congrArg (·.2.2) hkr)
        exact ⟨Prod.ext (htp j hj).1 (Prod.ext (htp j hj).2 hjt), hkr⟩
    · -- `i` is another context-parallel rank
      have hcomm : rn.commGroup = .pcp := by simp [commGroup, hsp, hdp]
      have hgather : rn.gathersPcp = false := by
        simp [gathersPcp, (hconfig.naiveDPEP hpf).resolve_right hdp]
      simp only [hcomm, Grid.mem_pcp] at hi ⊢
      refine ⟨fun j hj h => hne ?_, fun j hj k hk h => ?_⟩
      · obtain rfl := hlocal hgather h
        exact Prod.ext (htp i hj).1 (Prod.ext (htp i hj).2 hi.2)
      · obtain rfl := hlocal hgather hk
        have hkr : k = r := Prod.ext (htp k hj).1 (Prod.ext (htp k hj).2 (h.2.symm.trans hi.2))
        exact ⟨hkr, hkr⟩

/-- The bypass loses what the modular kernel brings from other ranks. -/
lemma localModular_of_agrees (hoverlap : rn.layer.mkCanOverlapSharedExperts = false)
    (hconfig : rn.Configured) (hfits : rn.monokernelFoldsShared true = true → rn.ResidualFits)
    (hfold : rn.monokernelFoldsShared true = true → rn.gathersPcp = false ∧ rn.truncSizes.1 = none)
    (hzero : rn.zeroExpertRouter = false) (hscale : rn.ScalesRouted)
    (hagrees : ∀ call : MoECall rn.grid K, rn.NoAlias call →
      (∀ r, (call.rank r).fusedRaises = false) →
        ∃ v, Returns (fun r => rn.forward true call r) v ∧
          Returns (fun r => rn.forward false call r) v) :
    rn.LocalModular := by
  by_contra hlocal
  have hasync := rn.overlap_eq
  rw [hoverlap] at hasync
  cases hpf : rn.prepareFinalize with
  | deepEPHT => simp [hpf, PrepareFinalize.supportsAsync] at hasync
  | noDPEP => exact hlocal (Or.inl hpf)
  | naiveDPEP =>
    have hpeer : ∃ r, ∃ i ∈ rn.modularGroup r, i ≠ r := by
      by_contra halone
      push Not at halone
      refine hlocal (Or.inr ⟨hpf, fun r => ?_⟩)
      have hgroup : rn.modularGroup r = rn.grid.members rn.commGroup r := by
        simp [modularGroup, hpf]
      rw [← hgroup]
      refine Finset.eq_singleton_iff_unique_mem.mpr ⟨?_, halone r⟩
      rw [hgroup]
      exact Grid.mem_self
    obtain ⟨r, i, hi, hne⟩ := hpeer
    obtain ⟨hout, honce⟩ := reach_of_modularGroup hconfig hpf hi hne
    obtain ⟨x, y, hvisible⟩ := hconfig.visible
    -- only `i` has something for the tokens of `r`
    let routed : rn.grid.Rank → rn.grid.Home → Rows K := fun j _ => if j = i then x else 0
    let shared : rn.grid.Rank → Rows K := fun j => if j = r then y else 0
    have hcall : ∀ j h, ((rn.callOf 0 routed shared).rank j).routed h = if j = i then x else 0 :=
      fun _ _ => rfl
    have hown : ∀ j, ((rn.callOf 0 routed shared).rank j).shared = shared j := fun _ => rfl
    obtain ⟨v, hv, hv'⟩ := hagrees (rn.callOf 0 routed shared) (noAlias_callOf _ _ _) fun _ => rfl
    have hleft := hv.unique (returns_callOf_zero hoverlap hconfig routed shared hfits hfold hzero)
    have hright := hv'.unique (returns_forward_false hoverlap hconfig.sharded hzero)
    have heq := congrFun (hleft.symm.trans hright) r
    have hshared : ∑ j ∈ rn.finalGroup r, shared j = y := by
      rw [Finset.sum_ite_eq']
      exact if_pos (self_mem_finalGroup r)
    have hlost : ∑ j ∈ rn.finalGroup r, rn.contribution (rn.callOf 0 routed shared) j = 0 := by
      refine Finset.sum_eq_zero fun j hj => ?_
      rw [contribution_eq]
      simp only [hcall]
      rw [Finset.sum_ite_eq', if_neg (hout j hj)]
    have hkept :
        ∑ j ∈ rn.finalGroup r, rn.modularContribution (rn.callOf 0 routed shared) j = x := by
      simp only [modularContribution_eq, hcall, Finset.sum_ite_eq']
      rw [Finset.sum_eq_single_of_mem r (self_mem_finalGroup r),
        Finset.sum_eq_single_of_mem r (self_mem_gatherGroup r), if_pos hi]
      · exact fun k hk hkr => if_neg fun hik => hkr (honce r (self_mem_finalGroup r) k hk hik).2
      · exact fun j hj hjr => Finset.sum_eq_zero fun k hk =>
          if_neg fun hik => hjr (honce j hj k hk hik).1
    refine hvisible ?_
    simpa only [hown, hshared, hlost, hkept, hscale.scales_eq, answer, addReduced] using heq.symm

/-- With the monokernel that the load gate has enabled and that is handed the work, a forward
returns what it returns without it if and only if the modular kernel of the configuration brings
nothing from other ranks, a folded shared half fits and is not folded into a gathered or a padded
routed half, the scale is on the routed half, and the router has no zero experts. -/
theorem bypass_iff (rn : MoERunner K) {useMonokernel : Bool} {geo : Option Geometry}
    (hgate : loadGate useMonokernel geo rn.layer = true)
    (hhanded : rn.layer.mkCanOverlapSharedExperts = false) (hconfig : rn.Configured) :
    (∀ call : MoECall rn.grid K, rn.NoAlias call → (∀ r, (call.rank r).fusedRaises = false) →
      ∃ v, Returns (fun r => rn.forward (loadGate useMonokernel geo rn.layer) call r) v ∧
        Returns (fun r => rn.forward false call r) v ∧
        ((rn.layer.skipFinalAllReduce = true → rn.routedOutputTransform ≠ none) → ∀ r, v r =
          rn.addReduced (∑ i, (call.rank i).routed (rn.home r))
            (∑ i ∈ rn.finalGroup r, (call.rank i).shared) + rn.zeroTerm call r)) ↔
      rn.LocalModular ∧
        (rn.monokernelFoldsShared true = true →
          rn.ResidualFits ∧ rn.gathersPcp = false ∧ rn.truncSizes.1 = none) ∧
        rn.ScalesRouted ∧ rn.zeroExpertRouter = false := by
  rw [hgate]
  constructor
  · intro hall
    have hagrees : ∀ call : MoECall rn.grid K, rn.NoAlias call →
        (∀ r, (call.rank r).fusedRaises = false) →
          ∃ v, Returns (fun r => rn.forward true call r) v ∧
            Returns (fun r => rn.forward false call r) v := by
      intro call hptr hraises
      obtain ⟨v, hv, hv', -⟩ := hall call hptr hraises
      exact ⟨v, hv, hv'⟩
    have hreturns : ∀ call : MoECall rn.grid K, rn.NoAlias call →
        (∀ r, (call.rank r).fusedRaises = false) →
          ∃ v, Returns (fun r => rn.forward true call r) v := fun call hptr hraises =>
      let ⟨v, hv, _⟩ := hagrees call hptr hraises
      ⟨v, hv⟩
    have hfold : rn.monokernelFoldsShared true = true →
        rn.ResidualFits ∧ rn.gathersPcp = false ∧ rn.truncSizes.1 = none := by
      intro hfold
      have hgather := gathersPcp_of_returns hhanded hconfig hfold hreturns
      have hfits := residualFits_of_returns hhanded hconfig hfold hgather hreturns
      exact ⟨hfits, hgather, truncSizes_of_returns hhanded hconfig hfold hgather hfits hreturns⟩
    have hfits := fun h => (hfold h).1
    have hopen := fun h => (hfold h).2
    have hzero := zeroExpertRouter_of_returns hhanded hconfig hfits hopen hreturns
    have hscale := scalesRouted_of_agrees hhanded hconfig hfits hopen hzero hagrees
    exact ⟨localModular_of_agrees hhanded hconfig hfits hopen hzero hscale hagrees, hfold, hscale,
      hzero⟩
  · rintro ⟨hlocal, hfold, hscale, hzero⟩ call hptr hraises
    have hdp := (hlocal.sizes hconfig).1
    have hlaunch : rn.LaunchesSucceed call := fun r => ⟨fun _ => hraises r, fun hoffers _ =>
      launch_ne_error (fun h => (hfold h).1) (fun h => by simp [dispatched, (hfold h).2.1])
        hoffers⟩
    have hnone : rn.zeroExpertRouter = true → ∀ mono, rn.gathersPcp = false ∧
        ∀ r, rn.serves mono call r (rn.dispatched r) = false := fun h => by simp [hzero] at h
    refine ⟨_, returns_forward_of_local hdp hhanded hlocal hlaunch hptr (fun h => (hfold h).2)
      hconfig.unscattered hconfig.sharded (Or.inl hscale) (fun h => hnone h true),
      returns_forward_of_local hdp hhanded hlocal hlaunch hptr
      (fun h => absurd h (by simp [(not_folded_without rn).2])) hconfig.unscattered
      hconfig.sharded (Or.inl hscale) (fun h => hnone h false), fun hlater r => ?_⟩
    rw [sum_contribution hlocal hconfig hlater, hscale.scales_eq]
    rfl

end Bypass

end MoERunner

section Examples

open MoERunner

/-- The folding layer is one of the harmless configurations. -/
theorem bypass_iff_foldingRunner : ∃ v,
    Returns (fun r => foldingRunner.forward true foldingCall r) v ∧
      Returns (fun r => foldingRunner.forward false foldingCall r) v := by
  have hgate : loadGate true (some { qwenGeometry with nUp := some 1024, nHalf := some 512 })
      foldingRunner.layer = true := by decide
  have hvisible : foldingRunner.addReduced (fun _ _ => 1) 0 ≠ foldingRunner.addReduced 0 0 := by
    intro h
    have hentry : (0 : ℚ) + 2 * 1 = 0 + 2 * 0 := by
      simpa [addReduced, addScaled, foldingRunner, narrowTo, truncSizes, inputWidths,
        applyRoutedOutputTransform] using congrFun (congrFun h 0) 0
    norm_num at hentry
  have hconfig : foldingRunner.Configured :=
    { ranks := ⟨((0 : Fin 1), (0 : Fin 1), (0 : Fin 2))⟩
      noDPEP := fun _ => ⟨le_refl 1, rfl, rfl⟩
      naiveDPEP := fun h => by cases h
      sequenceParallel := fun h => Bool.noConfusion h
      sharded := fun h => Bool.noConfusion h
      visible := ⟨_, _, hvisible⟩ }
  have hfits : foldingRunner.ResidualFits := by
    rintro _ ⟨⟩ n _ _ _
    exact ⟨rfl, rfl, rfl⟩
  have hlaw := (bypass_iff foldingRunner hgate rfl hconfig).mpr
    ⟨Or.inl rfl, fun _ => ⟨hfits, rfl, rfl⟩, Or.inl (by decide), rfl⟩
  obtain ⟨v, hv, hv', -⟩ := hlaw foldingCall
    (fun _ => ⟨show 0 ≠ 512 by decide, show 0 ≠ 512 by decide⟩) fun _ => rfl
  rw [hgate] at hv
  exact ⟨v, hv, hv'⟩

/-- Four experts on two data-parallel ranks, two on each. -/
def slabLayer : MoELayer :=
  { qwenLayer with
    globalNumExperts := 4
    topK := 2
    localExperts := 2
    expertMap := some ⟨.int32, [0, 1, -1, -1]⟩
    tpSize := 1
    globalNumExperts_pos := by decide
    tpSize_of_ep := fun _ => rfl }

/-- A binary for that layer. -/
def slabGeometry : Geometry :=
  { qwenGeometry with
    numExperts := some 4
    topK := some 2
    numExpertsLocal := some 2
    epCapable := some 1 }

/-- That layer behind the naive dispatch, without shared experts. -/
def slabRunner : MoERunner ℚ :=
  { foldingRunner with
    grid := ⟨2, 1, 1⟩
    layer := slabLayer
    epSize := 2
    useAll2AllKernels := true
    prepareFinalize := .naiveDPEP
    sharedExperts := none
    routedScalingFactor := 1
    overlap_eq := rfl }

/-- One token on each rank; every entry of what a rank's experts contribute is `1`. -/
def slabCall : MoECall slabRunner.grid ℚ where
  tokens _ _ := 1
  rank _ := ⟨fun _ _ _ => 1, 0, true, false, 0, 0, 0, none, 0⟩

/-- The load gate enables the monokernel, a forward with it returns what the two local experts
contribute, and a forward without it what all four do. -/
theorem data_parallel_bypass_drops : loadGate true (some slabGeometry) slabLayer = true ∧
    ∃ v w, Returns (fun r => slabRunner.forward true slabCall r) v ∧
      Returns (fun r => slabRunner.forward false slabCall r) w ∧
        (∀ r, v r = fun _ _ => 1) ∧ ∀ r, w r = fun _ _ => 2 := by
  have hgroup : ∀ r, slabRunner.finalGroup r = {r} :=
    members_tp_eq_singleton (le_refl 1)
  have htrunc : slabRunner.truncSizes = (none, none) := rfl
  have hshared : slabRunner.sharedExperts = none := rfl
  have htransform : slabRunner.routedOutputTransform = none := rfl
  have hscale : slabRunner.routedScalingFactor = 1 := rfl
  have hserved : ∀ r, (slabRunner.ordinaryOut true slabCall r (slabRunner.dispatched r)).isSome :=
    fun r => rfl
  have hpool : slabRunner.NoAlias slabCall := fun _ =>
    ⟨show 0 ≠ 512 by decide, show 0 ≠ 512 by decide⟩
  refine ⟨by decide, _, _, returns_forward rfl (Or.inr hserved) (fun _ _ => rfl)
    (L := .ok none) (fun h => Bool.noConfusion h) hpool (fun h => Bool.noConfusion h)
    (fun h => Bool.noConfusion h) (fun h => Bool.noConfusion h) (c := (1, 1)) (fun _ => rfl)
    (fun h => Bool.noConfusion h),
    returns_forward_false rfl (fun h => Bool.noConfusion h) rfl, fun r => ?_, fun r => ?_⟩
  · have hown : slabRunner.contribution slabCall r = fun _ _ => 1 := rfl
    have hzero : slabRunner.zeroTerm slabCall r = 0 := rfl
    rw [hzero, add_zero]
    funext i j
    simp [addScaled, hgroup, hown, htrunc, hshared, htransform, narrowTo,
      applyRoutedOutputTransform]
  · have hall : slabRunner.modularContribution slabCall r = fun _ _ => 2 := by
      have hcard : (slabRunner.modularGroup r).card = 2 := by
        revert r
        decide
      have hgather : slabRunner.gatherGroup r = {r} := rfl
      funext i j
      simp [modularContribution_eq, hgather, slabCall, hcard]
    funext i j
    simp [addScaled, scales, hgroup, hall, htrunc, hshared, htransform, hscale, narrowTo,
      applyRoutedOutputTransform]

end Examples

end UnimonoMoe
