import Mathlib.Data.Finset.Lattice.Fold
import Mathlib.Data.Fin.VecNotation
import Mathlib.Data.Fintype.Basic
import Mathlib.Order.Interval.Finset.Fin
import UnimonoMoe.Lib.Python

/-!
# The fused tensor-parallel plan

`_FusedTPPlan` decides once per process whether a rank takes the fused epilogue.  Building it reads
the environment and the loaded binary of the rank (`enter`), takes one MIN all-reduce over the group
(`allReduceMin`), and builds the symmetric output pool (`finishPlan`).  Afterwards
`fusedTpLaunch` decides every call from the plan alone.

The vote carries two bits.  The chunk table, the number of communication blocks and the outcome of
the pool are not among them, so ranks that agreed to go ahead can still launch differently.
`post_vote_agreement_iff` says exactly when they do not.
-/

namespace UnimonoMoe

open Python

/-! ## What a rank sees -/

/-- The environment variables of a rank that the fused path reads; `none` is an unset one. -/
structure RankEnv where
  /-- `VLLM_USE_MOE_MONOKERNEL` -/
  useMonokernel : Option String := none
  /-- `VLLM_PREFILL_MONOKERNEL_TP_FUSE` -/
  tpFuse : Option String := none
  /-- `VLLM_PREFILL_MONOKERNEL_TP_CHUNKS` -/
  tpChunks : Option String := none
  /-- `VLLM_PREFILL_MONOKERNEL_TP_NCOMM` -/
  tpNcomm : Option String := none
  /-- `VLLM_PREFILL_MONOKERNEL_TP_FOLD_SHARED` -/
  foldShared : Option String := none
  /-- `MONO_TP_LOG_MIN` -/
  logMin : Option String := none
deriving DecidableEq, Repr

/-- Where building a plan raises. -/
inductive PlanError
  /-- `int()` of the variable or of a part of it. -/
  | notAnInteger
  /-- An item of the chunk list does not unpack into two parts. -/
  | notAPair
  /-- `VLLM_PREFILL_MONOKERNEL_TP_CHUNKS must be >= 1` -/
  | chunksBelowOne
  /-- `VLLM_PREFILL_MONOKERNEL_TP_CHUNKS ... is not a usable T:C list` -/
  | notUsableList
  /-- `VLLM_PREFILL_MONOKERNEL_TP_NCOMM must be >= 1` -/
  | ncommBelowOne
deriving DecidableEq, Repr

/-- What `_bind_prefill_monokernel_tp` reads off a binary; a symbol it does not export is `none`. -/
structure TPCaps where
  hasTp : Bool
  hasTp2Entry : Bool
  tpMaxC : Option ℤ
  tpHasResidual : Option ℤ
  tpAlign : Option ℤ
  tpHasDevseq : Option ℤ
  gridSize : Option ℤ
  padWordsFn : Bool
deriving DecidableEq, Repr

/-- The truth value of a capability. -/
def truthy (x : Option ℤ) : Bool := x.getD 0 != 0

/-- `has_tp_residual`. -/
def TPCaps.hasTpResidual (c : TPCaps) : Bool := c.hasTp2Entry && truthy c.tpHasResidual

/-- `usable`. -/
def TPCaps.usable (c : TPCaps) : Bool :=
  c.hasTp && c.padWordsFn && truthy c.tpMaxC && truthy c.tpAlign && truthy c.gridSize

/-- Everything building the plan depends on that can differ between ranks. -/
structure RankInput where
  env : RankEnv
  isCuda : Bool
  /-- The capability report of the binary, `none` when it does not load. -/
  caps : Option TPCaps
  /-- A CUDA graph capture is going on when the pool is built. -/
  capturing : Bool
  /-- `SymmOutputPool(...)` returns. -/
  poolBuilds : Bool
deriving DecidableEq, Repr

/-- What every rank agrees on by construction. -/
structure PlanConfig where
  distInitialized : Bool
  world : ℕ
  maxTokens : ℤ
  nslots : ℤ
deriving DecidableEq, Repr

/-! ## Parsing -/

/-- `_FUSED_CHUNKS_BY_TOKENS`. -/
def fusedChunksByTokens : Dict ℤ ℤ := ⟨[(8192, 4), (16384, 8)], by decide⟩

/-- `_FUSED_NCOMM`. -/
def fusedNcomm : ℤ := 14

/-- One item `T:C` of the chunk list. -/
def setChunkItem (out : Dict ℤ ℤ) (item : List Char) : Except PlanError (Dict ℤ ℤ) :=
  match split ':' item with
  | [t, c] =>
    match int c, int t with
    | some c, some t => .ok (out.set t c)
    | _, _ => .error .notAnInteger
  | _ => .error .notAPair

/-- `_env_chunk_table`. -/
def envChunkTable (var : Option String) (default : Dict ℤ ℤ) : Except PlanError (Dict ℤ ℤ) :=
  let raw := strip (var.getD "").toList
  if raw = [] then .ok default
  else if ':' ∉ raw then
    match int raw with
    | none => .error .notAnInteger
    | some c => if c < 1 then .error .chunksBelowOne else .ok (default.mapValues fun _ => c)
  else
    match (split ',' raw).foldlM setChunkItem Dict.empty with
    | .error e => .error e
    | .ok out =>
      if out.items = [] ∨ ∃ c ∈ out.values, c < 1 then .error .notUsableList else .ok out

/-- `_env_ncomm`. -/
def envNcomm (var : Option String) (default : ℤ) : Except PlanError ℤ :=
  let raw := strip (var.getD "").toList
  if raw = [] then .ok default
  else
    match int raw with
    | none => .error .notAnInteger
    | some n => if n < 1 then .error .ncommBelowOne else .ok n

/-- `bool(int(os.getenv(name, default)))`. -/
def envFlag (var : Option String) (default : String) : Option Bool :=
  (int (var.getD default).toList).map (· != 0)

/-- `_FOLD_SHARED`. -/
def envFoldShared (var : Option String) : Bool :=
  let raw := (var.getD "1").toList
  raw != [] && raw != ['0']

/-! ## The plan -/

/-- `_FusedTPPlan`, the attributes that later calls read.  The pool of a usable plan exists. -/
structure FusedTPPlan where
  usable : Bool
  foldShared : Bool
  chunksByTokens : Dict ℤ ℤ
  ncomm : ℤ
  nslots : ℤ

/-- Why `_local_capability` refuses. -/
inductive Refusal
  | fuseNotSet
  | notCuda
  | noSize
  | loadFailed
  | notCapable
  | noDevseq
  | chunkCap
  | gridTooSmall
deriving DecidableEq, Repr

/-- The largest entry of `values`, `max(...)` of a nonempty collection. -/
def maxValue (values : List ℤ) : ℤ := values.foldl max (values.headD 0)

/-- `_local_capability`: whether the fold is possible too, or why the rank refuses. -/
def localCapability (enabled : Bool) (chunks : Dict ℤ ℤ) (ncomm : ℤ) (inp : RankInput) :
    Except Refusal Bool :=
  if !enabled then .error .fuseNotSet
  else if !inp.isCuda then .error .notCuda
  else if chunks.items = [] then .error .noSize
  else
    match inp.caps with
    | none => .error .loadFailed
    | some caps =>
      if !caps.usable then .error .notCapable
      else if !truthy caps.tpHasDevseq then .error .noDevseq
      else if caps.tpMaxC.getD 0 < maxValue chunks.values then .error .chunkCap
      else if caps.gridSize.getD 0 ≤ ncomm then .error .gridTooSmall
      else .ok (envFoldShared inp.env.foldShared && caps.hasTpResidual)

/-- Where a rank stands in front of the vote: the plan so far, whether the rank votes at all, and
its two ballots. -/
structure Entry where
  plan : FusedTPPlan
  votes : Bool
  ok : Bool
  fold : Bool

/-- `__init__` up to the vote; `enabled` is the argument that `fused_tp_plan` passes. -/
def enter (cfg : PlanConfig) (enabled : Bool) (inp : RankInput) : Except PlanError Entry :=
  match envNcomm inp.env.tpNcomm fusedNcomm with
  | .error e => .error e
  | .ok ncomm =>
    let plan : FusedTPPlan := ⟨false, false, Dict.empty, ncomm, max 1 cfg.nslots⟩
    if !cfg.distInitialized then .ok ⟨plan, false, false, false⟩
    else if cfg.world < 2 then .ok ⟨plan, false, false, false⟩
    else
      match envChunkTable inp.env.tpChunks fusedChunksByTokens with
      | .error e => .error e
      | .ok table =>
        let chunks := table.filter fun t => t ≤ cfg.maxTokens
        match localCapability enabled chunks ncomm inp with
        | .error _ => .ok ⟨{ plan with chunksByTokens := chunks }, true, false, false⟩
        | .ok fold => .ok ⟨{ plan with chunksByTokens := chunks }, true, true, fold⟩

/-- The MIN all-reduce, as rank `r` receives it. -/
def allReduceMin {n : ℕ} (r : Fin n) (v : Fin n → ℤ) : ℤ :=
  Finset.univ.inf' ⟨r, Finset.mem_univ r⟩ v

/-- A ballot as the tensor carries it. -/
def ballot (b : Bool) : ℤ := if b then 1 else 0

/-- `_build_pool`. -/
def buildPool (inp : RankInput) : Bool := !inp.capturing && inp.poolBuilds

/-- The rest of `__init__`: the vote and the pool. -/
def finishPlan {n : ℕ} (entries : Fin n → Entry) (inputs : Fin n → RankInput) (r : Fin n) :
    FusedTPPlan :=
  if (entries r).votes then
    if allReduceMin r (fun i => ballot (entries i).ok) ≠ 1 then (entries r).plan
    else { (entries r).plan with
      foldShared := allReduceMin r (fun i => ballot (entries i).fold) != 0
      usable := buildPool (inputs r) }
  else (entries r).plan

/-- Every rank has built its plan, none of them raising. -/
def PlansBuilt (cfg : PlanConfig) (enabled : Fin cfg.world → Bool)
    (inputs : Fin cfg.world → RankInput) (plans : Fin cfg.world → FusedTPPlan) : Prop :=
  ∃ entries : Fin cfg.world → Entry,
    (∀ r, enter cfg (enabled r) (inputs r) = .ok (entries r)) ∧ plans = finishPlan entries inputs

/-! ## A call -/

/-- The shared expert output handed to the epilogue. -/
structure Residual where
  rows : ℕ
  cols : ℕ
  bf16 : Bool
  contiguous : Bool
deriving DecidableEq, Repr

/-- Where a fused call raises before the launch. -/
inductive LaunchError
  /-- `folded residual must be [n, hidden] bfloat16` -/
  | residualShape
  /-- `folded residual must be contiguous` -/
  | residualLayout
  /-- `ubatch id outside pool slots` -/
  | slotRange
deriving DecidableEq, Repr

/-- What has to be the same on every rank of a fused launch. -/
structure FusedLaunch where
  nchunk : ℤ
  ncomm : ℤ
  fold : Bool
deriving DecidableEq, Repr

/-- `chunks_for`. -/
def FusedTPPlan.chunksFor (plan : FusedTPPlan) (numTokens : ℕ) : ℤ :=
  (plan.chunksByTokens.get? numTokens).getD 0

/-- `fused_tp_launch`: the launch, or `none` for the ordinary path. -/
def fusedTpLaunch (plan : FusedTPPlan) (hidden n : ℕ) (residual : Option Residual) (ubatch : ℤ) :
    Except LaunchError (Option FusedLaunch) :=
  if !plan.usable then .ok none
  else if plan.chunksFor n = 0 then .ok none
  else if plan.foldShared && residual.isNone then .ok none
  else if ∃ res ∈ residual, res.rows ≠ n ∨ res.cols ≠ hidden ∨ res.bf16 = false then
    .error .residualShape
  else if ∃ res ∈ residual, res.contiguous = false then .error .residualLayout
  else if ¬ (0 ≤ ubatch ∧ ubatch < plan.nslots) then .error .slotRange
  else .ok (some ⟨plan.chunksFor n, plan.ncomm, plan.foldShared⟩)

/-! ## What a rank brings to the vote -/

/-- The chunk table of a rank whose environment parses. -/
def rankChunks (cfg : PlanConfig) (inp : RankInput) : Dict ℤ ℤ :=
  match envChunkTable inp.env.tpChunks fusedChunksByTokens with
  | .ok table => table.filter fun t => t ≤ cfg.maxTokens
  | .error _ => Dict.empty

/-- The number of communication blocks of a rank whose environment parses. -/
def rankNcomm (inp : RankInput) : ℤ :=
  match envNcomm inp.env.tpNcomm fusedNcomm with
  | .ok n => n
  | .error _ => 0

/-- The rank finds nothing against the fused path. -/
def Capable (cfg : PlanConfig) (enabled : Bool) (inp : RankInput) : Prop :=
  ∃ fold, localCapability enabled (rankChunks cfg inp) (rankNcomm inp) inp = .ok fold

section Parsing

variable {var : Option String} {default out : Dict ℤ ℤ} {inp : RankInput} {cfg : PlanConfig}
  {enabled : Bool} {e : Entry}

/-- Every chunk count that comes out of the parser is positive. -/
lemma envChunkTable_pos (hdefault : ∀ c ∈ default.values, 1 ≤ c)
    (h : envChunkTable var default = .ok out) : ∀ c ∈ out.values, 1 ≤ c := by
  unfold envChunkTable at h
  simp only at h
  split_ifs at h with hraw hcolon
  · obtain rfl := Except.ok.inj h
    exact hdefault
  · cases hfold : (split ',' (strip (var.getD "").toList)).foldlM setChunkItem Dict.empty with
    | error e => simp [hfold] at h
    | ok table =>
      simp only [hfold] at h
      split_ifs at h with hbad
      obtain rfl := Except.ok.inj h
      intro c hc
      by_contra hlt
      exact hbad (Or.inr ⟨c, hc, not_le.mp hlt⟩)
  · cases hint : int (strip (var.getD "").toList) with
    | none => simp [hint] at h
    | some c =>
      simp only [hint] at h
      split_ifs at h with hc
      obtain rfl := Except.ok.inj h
      intro c' hc'
      simp only [Dict.values, Dict.mapValues, List.map_map, List.mem_map] at hc'
      obtain ⟨_, _, rfl⟩ := hc'
      exact not_lt.mp hc

/-- The chunk counts are positive. -/
lemma rankChunks_pos {n c : ℤ} (h : (rankChunks cfg inp).get? n = some c) : 1 ≤ c := by
  have hdefault : ∀ c ∈ fusedChunksByTokens.values, 1 ≤ c := by decide
  unfold rankChunks at h
  cases htable : envChunkTable inp.env.tpChunks fusedChunksByTokens with
  | error e =>
    simp only [htable] at h
    cases h
  | ok table =>
    simp only [htable] at h
    have hmem := List.mem_of_mem_filter (Dict.get?_eq_some_iff.mp h)
    exact envChunkTable_pos hdefault htable c (List.mem_map.mpr ⟨(n, c), hmem, rfl⟩)

/-- A rank that comes through votes when the group has two ranks, with what its environment and
its binary say. -/
lemma enter_spec (h : enter cfg enabled inp = .ok e) (hdist : cfg.distInitialized = true)
    (hworld : 2 ≤ cfg.world) :
    e.votes = true ∧ e.plan = ⟨false, false, rankChunks cfg inp, rankNcomm inp, max 1 cfg.nslots⟩ ∧
      (e.ok = true ↔ Capable cfg enabled inp) := by
  unfold enter at h
  cases hncomm : envNcomm inp.env.tpNcomm fusedNcomm with
  | error err => simp [hncomm] at h
  | ok ncomm =>
    have hn : rankNcomm inp = ncomm := by rw [rankNcomm, hncomm]
    cases htable : envChunkTable inp.env.tpChunks fusedChunksByTokens with
    | error err => simp [hncomm, htable, hdist, hworld.not_gt] at h
    | ok table =>
      have hc : rankChunks cfg inp = table.filter fun t => t ≤ cfg.maxTokens := by
        rw [rankChunks, htable]
      unfold Capable
      rw [hn, hc]
      cases hcap : localCapability enabled (table.filter fun t => t ≤ cfg.maxTokens) ncomm inp with
      | error err =>
        simp only [hncomm, htable, hdist, hworld.not_gt, hcap, Bool.not_true, if_false,
          Bool.false_eq_true] at h
        obtain rfl := Except.ok.inj h
        simp
      | ok fold =>
        simp only [hncomm, htable, hdist, hworld.not_gt, hcap, Bool.not_true, if_false,
          Bool.false_eq_true] at h
        obtain rfl := Except.ok.inj h
        simp

/-- A rank without a group to vote in ends with an unusable plan. -/
lemma enter_skips (h : enter cfg enabled inp = .ok e)
    (hskip : cfg.distInitialized = false ∨ cfg.world < 2) :
    e.votes = false ∧ e.plan.usable = false := by
  unfold enter at h
  cases hncomm : envNcomm inp.env.tpNcomm fusedNcomm with
  | error err => simp [hncomm] at h
  | ok ncomm =>
    simp only [hncomm] at h
    split_ifs at h with hdist hworld
    · obtain rfl := Except.ok.inj h
      exact ⟨rfl, rfl⟩
    · obtain rfl := Except.ok.inj h
      exact ⟨rfl, rfl⟩
    · rcases hskip with hskip | hskip
      · exact absurd hskip (by simpa using hdist)
      · exact absurd hskip hworld

end Parsing

/-! ## Agreement after the vote -/

/-- The MIN all-reduce of ballots is `1` when all ballots are. -/
lemma allReduceMin_ballot {n : ℕ} (r : Fin n) (b : Fin n → Bool) :
    allReduceMin r (fun i => ballot (b i)) = 1 ↔ ∀ i, b i = true := by
  have hle : ∀ i, ballot (b i) ≤ 1 := fun i => by
    unfold ballot
    split_ifs <;> decide
  have hone : ∀ i, ballot (b i) = 1 ↔ b i = true := fun i => by
    unfold ballot
    split_ifs with h <;> simp [h]
  constructor
  · intro h i
    have hmin : allReduceMin r (fun i => ballot (b i)) ≤ ballot (b i) :=
      Finset.inf'_le _ (Finset.mem_univ i)
    exact (hone i).mp (le_antisymm (hle i) (h ▸ hmin))
  · intro h
    refine le_antisymm ((Finset.inf'_le _ (Finset.mem_univ r)).trans (hle r)) ?_
    exact Finset.le_inf' _ _ fun i _ => ((hone i).mpr (h i)).ge

/-- All ranks launch the fused kernel for this call with the same parameters, or none launches
it. -/
def LaunchAgrees {n : ℕ} (plans : Fin n → FusedTPPlan) (hidden numTokens : ℕ)
    (residual : Option Residual) (ubatch : ℤ) : Prop :=
  (∃ p, ∀ r, fusedTpLaunch (plans r) hidden numTokens residual ubatch = .ok (some p)) ∨
    ∀ r p, fusedTpLaunch (plans r) hidden numTokens residual ubatch ≠ .ok (some p)

/-- When the plans of the ranks agree, read off the ranks' inputs: there is no vote, or some rank
refuses, or every token count that a rank with a pool has in its table finds a pool, the same chunk
count and the same number of communication blocks on every rank. -/
def InputsAgree (cfg : PlanConfig) (enabled : Fin cfg.world → Bool)
    (inputs : Fin cfg.world → RankInput) : Prop :=
  cfg.distInitialized = false ∨ cfg.world < 2 ∨ (∃ r, ¬ Capable cfg (enabled r) (inputs r)) ∨
    ∀ (n : ℕ) r c, buildPool (inputs r) = true → (rankChunks cfg (inputs r)).get? n = some c →
      ∀ r', buildPool (inputs r') = true ∧ (rankChunks cfg (inputs r')).get? n = some c ∧
        rankNcomm (inputs r') = rankNcomm (inputs r)

/-- A launch uses the chunk count of the table and the number of communication blocks. -/
lemma fusedTpLaunch_eq_some {plan : FusedTPPlan} {hidden n : ℕ} {residual : Option Residual}
    {ubatch : ℤ} {p : FusedLaunch}
    (h : fusedTpLaunch plan hidden n residual ubatch = .ok (some p)) :
    plan.usable = true ∧ plan.chunksByTokens.get? n = some p.nchunk ∧ plan.ncomm = p.ncomm := by
  unfold fusedTpLaunch at h
  split_ifs at h with h1 h2
  · cases h
  · cases h
  · cases h
  · obtain rfl := Option.some.inj (Except.ok.inj h)
    refine ⟨by simpa using h1, ?_, rfl⟩
    unfold FusedTPPlan.chunksFor at h2 ⊢
    cases hget : plan.chunksByTokens.get? n with
    | none => simp [hget] at h2
    | some c => rfl

section Agreement

variable {cfg : PlanConfig} {enabled : Fin cfg.world → Bool} {inputs : Fin cfg.world → RankInput}
  {plans : Fin cfg.world → FusedTPPlan}

/-- The plans when there is no group to vote in, or when some rank refuses. -/
lemma PlansBuilt.unusable (h : PlansBuilt cfg enabled inputs plans)
    (hno : cfg.distInitialized = false ∨ cfg.world < 2 ∨
      ∃ r, ¬ Capable cfg (enabled r) (inputs r)) (r : Fin cfg.world) :
    (plans r).usable = false := by
  obtain ⟨entries, henter, rfl⟩ := h
  by_cases hgroup : cfg.distInitialized = true ∧ 2 ≤ cfg.world
  · obtain ⟨r₀, hr₀⟩ : ∃ r, ¬ Capable cfg (enabled r) (inputs r) := by
      rcases hno with hno | hno | hno
      · exact absurd hgroup.1 (by simp [hno])
      · exact absurd hno hgroup.2.not_gt
      · exact hno
    have hspec := fun i => enter_spec (henter i) hgroup.1 hgroup.2
    have hvote : allReduceMin r (fun i => ballot (entries i).ok) ≠ 1 := by
      rw [Ne, allReduceMin_ballot]
      exact fun hall => hr₀ ((hspec r₀).2.2.mp (hall r₀))
    rw [finishPlan, if_pos (hspec r).1, if_pos hvote, (hspec r).2.1]
  · have hskip : cfg.distInitialized = false ∨ cfg.world < 2 := by
      by_contra hboth
      rw [not_or, Bool.not_eq_false, not_lt] at hboth
      exact hgroup hboth
    obtain ⟨hvotes, husable⟩ := enter_skips (henter r) hskip
    rw [finishPlan, hvotes]
    exact husable

/-- The plans when all ranks vote for the fused path: they share the fold, nothing else. -/
lemma PlansBuilt.voted (h : PlansBuilt cfg enabled inputs plans)
    (hdist : cfg.distInitialized = true) (hworld : 2 ≤ cfg.world)
    (hcap : ∀ r, Capable cfg (enabled r) (inputs r)) :
    ∃ fold, ∀ r, plans r = ⟨buildPool (inputs r), fold, rankChunks cfg (inputs r),
      rankNcomm (inputs r), max 1 cfg.nslots⟩ := by
  obtain ⟨entries, henter, rfl⟩ := h
  have hspec := fun i => enter_spec (henter i) hdist hworld
  have hfold : ∀ r r' : Fin cfg.world, allReduceMin r (fun i => ballot (entries i).fold) =
      allReduceMin r' fun i => ballot (entries i).fold := fun _ _ => rfl
  have hvote : ∀ r, allReduceMin r (fun i => ballot (entries i).ok) = 1 := fun r =>
    (allReduceMin_ballot r _).mpr fun i => (hspec i).2.2.mpr (hcap i)
  let r₀ : Fin cfg.world := ⟨0, by omega⟩
  refine ⟨allReduceMin r₀ (fun i => ballot (entries i).fold) != 0, fun r => ?_⟩
  rw [finishPlan, if_pos (hspec r).1, if_neg (not_not.mpr (hvote r)), (hspec r).2.1, hfold r r₀]

/-- The ranks launch alike, in every call, exactly when their inputs agree. -/
theorem post_vote_agreement_iff (h : PlansBuilt cfg enabled inputs plans) :
    (∀ hidden n residual ubatch, LaunchAgrees plans hidden n residual ubatch) ↔
      InputsAgree cfg enabled inputs := by
  by_cases hno : cfg.distInitialized = false ∨ cfg.world < 2 ∨
      ∃ r, ¬ Capable cfg (enabled r) (inputs r)
  · refine iff_of_true (fun hidden n residual ubatch => Or.inr fun r p hp => ?_) ?_
    · have husable := (fusedTpLaunch_eq_some hp).1
      rw [h.unusable hno r] at husable
      cases husable
    · rcases hno with hno | hno | hno
      · exact Or.inl hno
      · exact Or.inr (Or.inl hno)
      · exact Or.inr (Or.inr (Or.inl hno))
  · rw [not_or, not_or, Bool.not_eq_false, not_lt, not_exists] at hno
    obtain ⟨hdist, hworld, hcap⟩ := hno
    simp only [not_not] at hcap
    obtain ⟨fold, hplans⟩ := h.voted hdist hworld hcap
    constructor
    · intro hagree
      refine Or.inr (Or.inr (Or.inr fun n r c hpool hget => ?_))
      -- a call that rank `r` launches
      have hlaunch : fusedTpLaunch (plans r) 0 n (some ⟨n, 0, true, true⟩) 0 =
          .ok (some ⟨c, rankNcomm (inputs r), fold⟩) := by
        have hc := rankChunks_pos hget
        have hchunks : (plans r).chunksFor n = c := by
          rw [hplans r, FusedTPPlan.chunksFor, hget, Option.getD_some]
        unfold fusedTpLaunch
        rw [hchunks, hplans r]
        simp [hpool, show c ≠ 0 by omega]
      rcases hagree 0 n (some ⟨n, 0, true, true⟩) 0 with ⟨p, hall⟩ | hnone
      · obtain rfl := Option.some.inj (Except.ok.inj (hlaunch.symm.trans (hall r)))
        intro r'
        obtain ⟨husable, hget', hncomm⟩ := fusedTpLaunch_eq_some (hall r')
        rw [hplans r'] at husable hget' hncomm
        exact ⟨husable, hget', hncomm⟩
      · exact absurd hlaunch (hnone r _)
    · rintro (hno | hno | ⟨r, hno⟩ | hall) hidden n residual ubatch
      · exact absurd hdist (by simp [hno])
      · exact absurd hno hworld.not_gt
      · exact absurd (hcap r) hno
      · by_cases hsome : ∃ r p, fusedTpLaunch (plans r) hidden n residual ubatch = .ok (some p)
        · obtain ⟨r, p, hp⟩ := hsome
          obtain ⟨husable, hget, _⟩ := fusedTpLaunch_eq_some hp
          rw [hplans r] at husable hget
          have hpool : buildPool (inputs r) = true := husable
          refine Or.inl ⟨p, fun r' => ?_⟩
          obtain ⟨hpool', hget', hncomm'⟩ := hall n r p.nchunk hpool hget r'
          -- both ranks evaluate the same decision
          have hsame : fusedTpLaunch (plans r') hidden n residual ubatch =
              fusedTpLaunch (plans r) hidden n residual ubatch := by
            rw [hplans r, hplans r']
            simp only [fusedTpLaunch, FusedTPPlan.chunksFor, hget, hget', hncomm', hpool, hpool']
          rw [hsame, hp]
        · refine Or.inr fun r p hp => hsome ⟨r, p, hp⟩

end Agreement

section Examples

/-- Two ranks, one pool slot. -/
def pairConfig : PlanConfig := ⟨true, 2, 16384, 1⟩

/-- A rank with a capable binary, a pool and nothing overridden. -/
def plainRank : RankInput where
  env := {}
  isCuda := true
  caps := some ⟨true, true, some 16, some 1, some 32, some 1, some 132, true⟩
  capturing := false
  poolBuilds := true

/-- The same rank with its own chunk table. -/
def retunedRank : RankInput := { plainRank with env := { tpChunks := some "8192:2" } }

/-- A residual for 8192 tokens. -/
def sampleResidual : Residual := ⟨8192, 7168, true, true⟩

/-- What a rank brings to the vote when its environment parses. -/
def readyEntry (inp : RankInput) : Entry :=
  ⟨⟨false, false, rankChunks pairConfig inp, rankNcomm inp, 1⟩, true, true, true⟩

/-- The first rank of the sample enters. -/
lemma enter_plainRank : enter pairConfig true plainRank = .ok (readyEntry plainRank) := rfl

/-- So does the second one. -/
lemma enter_retunedRank : enter pairConfig true retunedRank = .ok (readyEntry retunedRank) := rfl

/-- Two ranks without overrides launch alike. -/
theorem post_vote_agreement_iff_plainRank :
    LaunchAgrees (finishPlan (fun _ : Fin 2 => readyEntry plainRank) fun _ => plainRank) 7168 8192
      (some sampleResidual) 0 := by
  have hbuilt : PlansBuilt pairConfig (fun _ => true) (fun _ => plainRank)
      (finishPlan (fun _ : Fin 2 => readyEntry plainRank) fun _ => plainRank) :=
    ⟨fun _ => readyEntry plainRank, fun _ => enter_plainRank, rfl⟩
  exact (post_vote_agreement_iff hbuilt).mpr
    (Or.inr (Or.inr (Or.inr fun _ _ _ hpool hget _ => ⟨hpool, hget, rfl⟩))) _ _ _ _

/-- A chunk table that only one of two ranks overrides: both vote for the fused path and both
launch it, with `4` and with `2` chunks. -/
theorem retuned_rank_disagrees :
    PlansBuilt pairConfig (fun _ => true) ![plainRank, retunedRank]
        (finishPlan ![readyEntry plainRank, readyEntry retunedRank] ![plainRank, retunedRank]) ∧
      ¬ LaunchAgrees
        (finishPlan ![readyEntry plainRank, readyEntry retunedRank] ![plainRank, retunedRank])
        7168 8192 (some sampleResidual) 0 := by
  refine ⟨⟨![readyEntry plainRank, readyEntry retunedRank], ?_, rfl⟩, ?_⟩
  · exact Fin.forall_fin_two.mpr ⟨enter_plainRank, enter_retunedRank⟩
  · rintro (⟨p, hall⟩ | hnone)
    · have hzero : p = ⟨4, 14, true⟩ := (Option.some.inj (Except.ok.inj (hall 0))).symm
      have hone : p = ⟨2, 14, true⟩ := (Option.some.inj (Except.ok.inj (hall 1))).symm
      exact absurd (hzero.symm.trans hone) (by decide)
    · exact hnone 0 ⟨4, 14, true⟩ rfl

end Examples

end UnimonoMoe
