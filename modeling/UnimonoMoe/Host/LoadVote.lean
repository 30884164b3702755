import UnimonoMoe.Host.Gate

/-!
# Who takes part in the vote

A rank comes to the vote of the fused plan from `process_weights_after_loading`: layer by layer, an
enabled and eligible layer imports `monokernel_tp` and asks for the plan, and the first request
builds it.  `loadLayer` is one such step, `loadAndForward` the way from loading the weights
through the first forward.

The gates in front of the vote look at the rank's own binary and environment, and a variable that
does not parse raises in front of it.  `votes_eq` gives the number of votes of a rank in terms of
its inputs, and `vote_uniform_iff` says when the ranks vote together.
-/

namespace UnimonoMoe

open Python

/-- A rank with the geometry its binary reports, absent when the binary does not load. -/
structure LoadRank where
  input : RankInput
  geometry : Option Geometry

/-- What raises on the way to the vote. -/
inductive LoadError
  /-- `int(VLLM_USE_MOE_MONOKERNEL)` -/
  | useFlag
  /-- `int(MONO_TP_LOG_MIN)`, at the import of `monokernel_tp` -/
  | logMin
  /-- `int(VLLM_PREFILL_MONOKERNEL_TP_FUSE)` -/
  | fuseFlag
  | plan (e : PlanError)
deriving DecidableEq, Repr

/-- The state of a process: whether `_plan` is set, and the votes cast so far. -/
structure VoteState where
  planBuilt : Bool
  votes : ℕ
deriving DecidableEq, Repr

/-- `fused_tp_plan`, with the import of its module in front of it.  A step that raises also yields
the state it leaves behind. -/
def queryPlan (cfg : PlanConfig) (rank : LoadRank) (s : VoteState) :
    Except (LoadError × VoteState) VoteState :=
  if int (rank.input.env.logMin.getD "512").toList = none then .error (.logMin, s)
  else if s.planBuilt then .ok s
  else
    match envFlag rank.input.env.tpFuse "0" with
    | none => .error (.fuseFlag, s)
    | some enabled =>
      match enter cfg enabled rank.input with
      | .error e => .error (.plan e, s)
      | .ok entry => .ok ⟨true, s.votes + if entry.votes then 1 else 0⟩

/-- `process_weights_after_loading` of one layer. -/
def loadLayer (cfg : PlanConfig) (rank : LoadRank) (s : VoteState) (layer : MoELayer) :
    Except (LoadError × VoteState) VoteState :=
  match envFlag rank.input.env.useMonokernel "1" with
  | none => .error (.useFlag, s)
  | some useMonokernel =>
    if fusedTpEligible (loadGate useMonokernel rank.geometry layer) layer then
      queryPlan cfg rank s
    else .ok s

/-- `_use_moe_monokernel` of a layer after loading. -/
def useMoeMonokernel (rank : LoadRank) (layer : MoELayer) : Bool :=
  match envFlag rank.input.env.useMonokernel "1" with
  | none => false
  | some useMonokernel => loadGate useMonokernel rank.geometry layer

/-- One layer of the first forward: `monokernel_output_is_reduced` imports the module of the plan,
and the eligible layers ask for the plan again. -/
def forwardLayer (cfg : PlanConfig) (rank : LoadRank) (s : VoteState) (layer : MoELayer) :
    Except (LoadError × VoteState) VoteState :=
  if int (rank.input.env.logMin.getD "512").toList = none then .error (.logMin, s)
  else if fusedTpEligible (useMoeMonokernel rank layer) layer then queryPlan cfg rank s
  else .ok s

/-- From loading the weights of all layers through the first forward of the model. -/
def loadAndForward (cfg : PlanConfig) (rank : LoadRank) (layers : List MoELayer) :
    Except (LoadError × VoteState) VoteState :=
  match layers.foldlM (loadLayer cfg rank) ⟨false, 0⟩ with
  | .error e => .error e
  | .ok s => layers.foldlM (forwardLayer cfg rank) s

/-- The votes cast by the end of a computation, also when it raises. -/
def votesOf : Except (LoadError × VoteState) VoteState → ℕ
  | .error (_, s) => s.votes
  | .ok s => s.votes

/-- How often a rank has come to the vote. -/
def votesCast (cfg : PlanConfig) (rank : LoadRank) (layers : List MoELayer) : ℕ :=
  votesOf (loadAndForward cfg rank layers)

/-! ## The votes of a rank -/

/-- The environment of a rank lets it come to the vote: every variable that is read in front of it
parses, and the monokernel is not switched off. -/
structure EnvParses (env : RankEnv) : Prop where
  useMonokernel : envFlag env.useMonokernel "1" = some true
  logMin : int (env.logMin.getD "512").toList ≠ none
  tpFuse : envFlag env.tpFuse "0" ≠ none
  tpNcomm : ∃ n, envNcomm env.tpNcomm fusedNcomm = .ok n
  tpChunks : ∃ t, envChunkTable env.tpChunks fusedChunksByTokens = .ok t

/-- A layer that the configuration lets take the fused path. -/
def MoELayer.mayFuse (layer : MoELayer) : Prop :=
  layer.eligible true = true ∧ layer.mkCanOverlapSharedExperts = false ∧ 2 ≤ layer.tpSize ∧
    layer.skipFinalAllReduce = false

/-- The binary of a rank loads and matches a layer that may take the fused path. -/
def BinaryFits (layers : List MoELayer) (geometry : Option Geometry) : Prop :=
  ∃ layer ∈ layers, layer.mayFuse ∧ ∃ geo, geometry = some geo ∧ Matched geo layer

section Votes

variable {cfg : PlanConfig} {rank : LoadRank} {layer : MoELayer} {layers : List MoELayer}
  {s s' : VoteState}

/-- The layers that ask for the plan. -/
lemma asks_iff : fusedTpEligible (loadGate true rank.geometry layer) layer = true ↔
    layer.mayFuse ∧ ∃ geo, rank.geometry = some geo ∧ Matched geo layer := by
  have hgate : loadGate true rank.geometry layer = true ↔ layer.eligible true = true ∧
      ∃ geo, rank.geometry = some geo ∧ Matched geo layer := by
    cases hgeo : rank.geometry with
    | none => simp [loadGate]
    | some geo => simp [loadGate_eq_true_iff]
  simp only [fusedTpEligible, Bool.and_eq_true, Bool.not_eq_true', decide_eq_true_eq, hgate,
    MoELayer.mayFuse]
  tauto

/-- The group in which the vote is taken. -/
def PlanConfig.Group (cfg : PlanConfig) : Prop := cfg.distInitialized = true ∧ 2 ≤ cfg.world

/-- A rank enters the plan and votes exactly in a group, when its two overrides parse. -/
lemma enter_votes_iff (enabled : Bool) {inp : RankInput} :
    (∃ e, enter cfg enabled inp = .ok e ∧ e.votes = true) ↔
      cfg.Group ∧ (∃ n, envNcomm inp.env.tpNcomm fusedNcomm = .ok n) ∧
        ∃ t, envChunkTable inp.env.tpChunks fusedChunksByTokens = .ok t := by
  constructor
  · rintro ⟨e, he, hvotes⟩
    have hgroup : cfg.Group := by
      by_contra hno
      have hskip : cfg.distInitialized = false ∨ cfg.world < 2 := by
        rw [PlanConfig.Group, not_and_or, Bool.not_eq_true, not_le] at hno
        exact hno
      rw [(enter_skips he hskip).1] at hvotes
      cases hvotes
    unfold enter at he
    cases hncomm : envNcomm inp.env.tpNcomm fusedNcomm with
    | error err => simp [hncomm] at he
    | ok n =>
      cases htable : envChunkTable inp.env.tpChunks fusedChunksByTokens with
      | error err => simp [hncomm, htable, hgroup.1, hgroup.2.not_gt] at he
      | ok t => exact ⟨hgroup, ⟨n, rfl⟩, ⟨t, rfl⟩⟩
  · rintro ⟨hgroup, ⟨n, hn⟩, ⟨t, ht⟩⟩
    have hsome : ∃ e, enter cfg enabled inp = .ok e := by
      unfold enter
      simp only [hn, ht, hgroup.1, hgroup.2.not_gt, Bool.not_true, if_false, Bool.false_eq_true]
      cases localCapability enabled (t.filter fun t => t ≤ cfg.maxTokens) n inp with
      | error err => exact ⟨_, rfl⟩
      | ok fold => exact ⟨_, rfl⟩
    obtain ⟨e, he⟩ := hsome
    exact ⟨e, he, (enter_spec he hgroup.1 hgroup.2).1⟩

/-- In a group, with an environment that parses, the first request of a rank votes and later ones
do not. -/
lemma queryPlan_of_parses (hgroup : cfg.Group) (henv : EnvParses rank.input.env) :
    queryPlan cfg rank s = .ok (if s.planBuilt then s else ⟨true, s.votes + 1⟩) := by
  unfold queryPlan
  rw [if_neg henv.logMin]
  split_ifs
  · rfl
  · obtain ⟨enabled, henabled⟩ := Option.ne_none_iff_exists'.mp henv.tpFuse
    obtain ⟨e, he, hvotes⟩ := (enter_votes_iff enabled).mpr
      ⟨hgroup, henv.tpNcomm, henv.tpChunks⟩
    simp only [henabled, he, hvotes, if_true]

/-- Otherwise a request of a rank with the monokernel switched on does not vote. -/
lemma votesOf_queryPlan (huse : envFlag rank.input.env.useMonokernel "1" = some true)
    (hno : ¬ (cfg.Group ∧ EnvParses rank.input.env)) :
    votesOf (queryPlan cfg rank s) = s.votes := by
  unfold queryPlan
  split_ifs with hlog hbuilt
  · rfl
  · rfl
  · cases hfuse : envFlag rank.input.env.tpFuse "0" with
    | none => rfl
    | some enabled =>
      cases he : enter cfg enabled rank.input with
      | error err => simp only [he, votesOf]
      | ok e =>
        have hvotes : e.votes = false := by
          by_contra htrue
          rw [Bool.not_eq_false] at htrue
          obtain ⟨hgroup, hncomm, hchunks⟩ := (enter_votes_iff enabled).mp ⟨e, he, htrue⟩
          exact hno ⟨hgroup, huse, hlog, by simp [hfuse], hncomm, hchunks⟩
        simp [he, hvotes, votesOf]

/-- A layer asks for the plan. -/
def Asks (rank : LoadRank) (layer : MoELayer) : Prop :=
  fusedTpEligible (useMoeMonokernel rank layer) layer = true

instance : DecidablePred (Asks rank) := fun _ => inferInstanceAs (Decidable (_ = true))

/-- A layer asks only when the monokernel is switched on. -/
lemma Asks.useMonokernel (h : Asks rank layer) :
    envFlag rank.input.env.useMonokernel "1" = some true := by
  unfold Asks useMoeMonokernel at h
  cases huse : envFlag rank.input.env.useMonokernel "1" with
  | none => simp [huse, fusedTpEligible] at h
  | some use =>
    cases use with
    | false => simp [huse, fusedTpEligible, loadGate, MoELayer.eligible] at h
    | true => rfl

/-- Loading a layer is a request for the plan when the layer asks. -/
lemma loadLayer_eq {use : Bool} (huse : envFlag rank.input.env.useMonokernel "1" = some use) :
    loadLayer cfg rank s layer = if Asks rank layer then queryPlan cfg rank s else .ok s := by
  simp only [loadLayer, Asks, useMoeMonokernel, huse]

/-- A computation that never votes, step by step, does not vote. -/
lemma votesOf_foldlM {step : VoteState → MoELayer → Except (LoadError × VoteState) VoteState}
    (hstep : ∀ s layer, votesOf (step s layer) = s.votes) :
    votesOf (layers.foldlM step s) = s.votes := by
  induction layers generalizing s with
  | nil => rfl
  | cons layer layers ih =>
    rw [List.foldlM_cons]
    have h := hstep s layer
    cases hs : step s layer with
    | error e =>
      rw [hs] at h
      exact h
    | ok s' =>
      rw [hs] at h
      exact ih.trans h

/-- In a group, with an environment that parses, the layers vote once altogether. -/
lemma foldlM_of_parses {step : VoteState → MoELayer → Except (LoadError × VoteState) VoteState}
    (hstep : ∀ s layer, step s layer = .ok (if Asks rank layer ∧ s.planBuilt = false then
      ⟨true, s.votes + 1⟩ else s)) :
    layers.foldlM step s = .ok (if (∃ layer ∈ layers, Asks rank layer) ∧ s.planBuilt = false then
      ⟨true, s.votes + 1⟩ else s) := by
  induction layers generalizing s with
  | nil => simp [pure, Except.pure]
  | cons layer layers ih =>
    rw [List.foldlM_cons, hstep]
    refine ih.trans (congrArg Except.ok ?_)
    by_cases hask : Asks rank layer <;> by_cases hrest : ∃ layer ∈ layers, Asks rank layer <;>
      cases hbuilt : s.planBuilt <;> simp [hask, hrest, hbuilt]

/-- The step function of loading and of the forward, in a group with an environment that
parses. -/
lemma step_of_parses (hgroup : cfg.Group) (henv : EnvParses rank.input.env) :
    (if Asks rank layer then queryPlan cfg rank s else .ok s) =
      .ok (if Asks rank layer ∧ s.planBuilt = false then ⟨true, s.votes + 1⟩ else s) := by
  rw [queryPlan_of_parses hgroup henv]
  by_cases hask : Asks rank layer <;> cases hbuilt : s.planBuilt <;> simp [hask]

/-- Which layers ask, in terms of the rank's binary. -/
lemma exists_asks_iff (henv : EnvParses rank.input.env) :
    (∃ layer ∈ layers, Asks rank layer) ↔ BinaryFits layers rank.geometry := by
  simp only [BinaryFits, ← asks_iff, Asks, useMoeMonokernel, henv.useMonokernel]

/-- A rank votes at most once, and it votes exactly when there is a group, its environment lets it
and its binary fits. -/
theorem votes_eq [Decidable (cfg.Group ∧ EnvParses rank.input.env ∧
    BinaryFits layers rank.geometry)] : votesCast cfg rank layers =
      if cfg.Group ∧ EnvParses rank.input.env ∧ BinaryFits layers rank.geometry then 1 else 0 := by
  unfold votesCast loadAndForward
  by_cases hparses : cfg.Group ∧ EnvParses rank.input.env
  · obtain ⟨hgroup, henv⟩ := hparses
    have hload : ∀ s layer, loadLayer cfg rank s layer =
        .ok (if Asks rank layer ∧ s.planBuilt = false then ⟨true, s.votes + 1⟩ else s) :=
      fun s layer => (loadLayer_eq henv.useMonokernel).trans (step_of_parses hgroup henv)
    have hforward : ∀ s layer, forwardLayer cfg rank s layer =
        .ok (if Asks rank layer ∧ s.planBuilt = false then ⟨true, s.votes + 1⟩ else s) := by
      intro s layer
      rw [forwardLayer, if_neg henv.logMin]
      exact step_of_parses hgroup henv
    simp only [foldlM_of_parses hload, foldlM_of_parses hforward]
    by_cases hasks : ∃ layer ∈ layers, Asks rank layer
    · have hvotes : cfg.Group ∧ EnvParses rank.input.env ∧ BinaryFits layers rank.geometry :=
        ⟨hgroup, henv, (exists_asks_iff henv).mp hasks⟩
      simp only [hvotes, hasks, and_self, if_true, Bool.true_eq_false, and_false, if_false]
      rfl
    · have hno : ¬ (cfg.Group ∧ EnvParses rank.input.env ∧ BinaryFits layers rank.geometry) :=
        fun h => hasks ((exists_asks_iff henv).mpr h.2.2)
      simp only [if_neg hno, hasks, false_and, if_false, votesOf]
  · rw [if_neg fun h => hparses ⟨h.1, h.2.1⟩]
    have hload : ∀ s layer, votesOf (loadLayer cfg rank s layer) = s.votes := by
      intro s layer
      cases huse : envFlag rank.input.env.useMonokernel "1" with
      | none => simp only [loadLayer, huse, votesOf]
      | some use =>
        rw [loadLayer_eq huse]
        split_ifs with hask
        · exact votesOf_queryPlan hask.useMonokernel hparses
        · rfl
    have hforward : ∀ s layer, votesOf (forwardLayer cfg rank s layer) = s.votes := by
      intro s layer
      unfold forwardLayer
      split_ifs with hlog hask
      · rfl
      · exact votesOf_queryPlan (Asks.useMonokernel hask) hparses
      · rfl
    have hloaded : votesOf (layers.foldlM (loadLayer cfg rank) ⟨false, 0⟩) = 0 :=
      votesOf_foldlM hload
    cases hrun : layers.foldlM (loadLayer cfg rank) ⟨false, 0⟩ with
    | error e =>
      rw [hrun] at hloaded
      exact hloaded
    | ok s =>
      rw [hrun] at hloaded
      exact (votesOf_foldlM hforward).trans hloaded

end Votes

/-! ## All ranks -/

/-- Either every rank comes to the vote exactly once, or none does. -/
def VoteUniform {n : ℕ} (cfg : PlanConfig) (layers : List MoELayer) (ranks : Fin n → LoadRank) :
    Prop :=
  (∀ r, votesCast cfg (ranks r) layers = 1) ∨ ∀ r, votesCast cfg (ranks r) layers = 0

/-- The ranks vote together exactly when there is no group to vote in, or the environments of all
ranks parse and all their binaries fit, or this is so on no rank. -/
theorem vote_uniform_iff (cfg : PlanConfig) (layers : List MoELayer)
    (ranks : Fin cfg.world → LoadRank) :
    VoteUniform cfg layers ranks ↔ ¬ cfg.Group ∨
      (∀ r, EnvParses (ranks r).input.env ∧ BinaryFits layers (ranks r).geometry) ∨
      ∀ r, ¬ (EnvParses (ranks r).input.env ∧ BinaryFits layers (ranks r).geometry) := by
  classical
  unfold VoteUniform
  simp only [votes_eq]
  by_cases hgroup : cfg.Group
  · simp [hgroup]
  · simp [hgroup]

section Examples

/-- The layer of `qwenLayer` on two ranks. -/
def pairLayer : MoELayer :=
  { qwenLayer with nUp := 1024, nHalf := 512, tpSize := 2, tpSize_of_ep := fun h => absurd rfl h }

/-- A rank with the binary for that layer. -/
def loadedRank : LoadRank :=
  ⟨plainRank, some { qwenGeometry with nUp := some 1024, nHalf := some 512 }⟩

/-- The same rank without a binary. -/
def missingRank : LoadRank := ⟨{ plainRank with caps := none }, none⟩

/-- A binary that only one of two ranks finds: that rank enters the vote, the other one never
does. -/
theorem missing_binary_skips_vote :
    ¬ VoteUniform pairConfig [pairLayer] ![loadedRank, missingRank] := by
  have hloaded : votesCast pairConfig loadedRank [pairLayer] = 1 := rfl
  have hmissing : votesCast pairConfig missingRank [pairLayer] = 0 := rfl
  rintro (hall | hnone)
  · exact absurd (hmissing.symm.trans (hall 1)) (by decide)
  · exact absurd (hloaded.symm.trans (hnone 0)) (by decide)

end Examples

end UnimonoMoe
