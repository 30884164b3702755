import UnimonoMoe.Host.Gate
import UnimonoMoe.Kernel.Build
import UnimonoMoe.Lib.Loops

/-!
# What the plan accepts and what the launcher accepts

The plan looks at the chunk table and the number of communication blocks once, when it is built: a
rank refuses a chunk count above the `TP_MAX_C` of its binary and a number of blocks that is not
below its grid.  The launcher looks at the numbers of every call, and it looks at one more thing:
the chunks have to be whole 16-byte units of the output.

`plan_launch_accepted_iff` says which launches of a usable plan get past the launcher.
-/

namespace UnimonoMoe

open Python

/-- The capability report of a binary with the constants of `B`: what it exports is compiled in. -/
structure Reports (B : Build) (caps : TPCaps) : Prop where
  tpMaxC : ∀ c, caps.tpMaxC = some c → c = B.tpMaxC
  gridSize : ∀ g, caps.gridSize = some g → g = B.gridSize

/-- The arguments with which `fused_tp_launch` reaches the launcher on rank `r` for `n` tokens.  A
pool without a multicast pointer is not built, a launch without a pad pointer raises before the
entry point, and the entry points of the fused path pass no expert map. -/
def FusedTPPlan.launchCall (plan : FusedTPPlan) {world : ℕ} (r : Fin world) (n : ℕ) :
    LaunchCall where
  workspace := true
  workspaceBytes := true
  numTokens := n
  operands := true
  tpMc := true
  tpPads := true
  tpRank := r.val
  tpWorld := world
  tpNchunk := plan.chunksFor n
  tpNcomm := plan.ncomm
  expertMap := false

/-! ## What a usable plan promises -/

/-- The maximum is an upper bound. -/
lemma le_maxValue {values : List ℤ} {c : ℤ} (hc : c ∈ values) : c ≤ maxValue values :=
  (Loops.le_foldl_max id values _).2 c hc

section Promises

variable {cfg : PlanConfig} {enabled : Bool} {inp : RankInput} {e : Entry} {caps : TPCaps}
  {B : Build}

/-- A number of communication blocks that the parser lets through is positive. -/
lemma envNcomm_pos {var : Option String} {n : ℤ} (h : envNcomm var fusedNcomm = .ok n) :
    1 ≤ n := by
  unfold envNcomm at h
  simp only at h
  split_ifs at h
  · obtain rfl := Except.ok.inj h
    decide
  · cases hint : int (strip (var.getD "").toList) with
    | none => simp [hint] at h
    | some k =>
      simp only [hint] at h
      split_ifs at h with hk
      obtain rfl := Except.ok.inj h
      exact not_lt.mp hk

/-- A rank that enters has a communication block. -/
lemma rankNcomm_pos (h : enter cfg enabled inp = .ok e) : 1 ≤ rankNcomm inp := by
  unfold rankNcomm
  unfold enter at h
  cases hncomm : envNcomm inp.env.tpNcomm fusedNcomm with
  | error err => simp [hncomm] at h
  | ok n => exact envNcomm_pos hncomm

/-- A capable rank has compared its table and its blocks with the constants of its binary. -/
lemma Capable.bounds (h : Capable cfg enabled inp) (hcaps : inp.caps = some caps)
    (hreports : Reports B caps) :
    (∀ c ∈ (rankChunks cfg inp).values, c ≤ B.tpMaxC) ∧ rankNcomm inp < B.gridSize := by
  obtain ⟨fold, h⟩ := h
  unfold localCapability at h
  simp only [hcaps] at h
  split_ifs at h with _ _ _ husable _ hchunks hgrid
  rw [TPCaps.usable] at husable
  obtain ⟨hmaxC, hgridSize⟩ : truthy caps.tpMaxC = true ∧ truthy caps.gridSize = true := by
    cases hc : truthy caps.tpMaxC <;> cases hg : truthy caps.gridSize <;> simp_all
  constructor
  · intro c hc
    cases hreport : caps.tpMaxC with
    | none => simp [hreport, truthy] at hmaxC
    | some m =>
      rw [hreport, Option.getD_some, not_lt, hreports.tpMaxC m hreport] at hchunks
      exact (le_maxValue hc).trans hchunks
  · cases hreport : caps.gridSize with
    | none => simp [hreport, truthy] at hgridSize
    | some g =>
      rw [hreport, Option.getD_some, not_le, hreports.gridSize g hreport] at hgrid
      exact hgrid

end Promises

/-! ## The launch -/

section Launch

variable {cfg : PlanConfig} {enabled : Fin cfg.world → Bool} {inputs : Fin cfg.world → RankInput}
  {plans : Fin cfg.world → FusedTPPlan} {r : Fin cfg.world}

/-- A usable plan comes out of a vote in which every rank was capable. -/
lemma PlansBuilt.of_usable (h : PlansBuilt cfg enabled inputs plans)
    (husable : (plans r).usable = true) :
    Capable cfg (enabled r) (inputs r) ∧ (plans r).chunksByTokens = rankChunks cfg (inputs r) ∧
      (plans r).ncomm = rankNcomm (inputs r) := by
  have hyes : ¬ (cfg.distInitialized = false ∨ cfg.world < 2 ∨
      ∃ r, ¬ Capable cfg (enabled r) (inputs r)) := by
    intro hno
    rw [h.unusable hno r] at husable
    cases husable
  rw [not_or, not_or, Bool.not_eq_false, not_lt, not_exists] at hyes
  obtain ⟨hdist, hworld, hcap⟩ := hyes
  simp only [not_not] at hcap
  obtain ⟨fold, hplans⟩ := h.voted hdist hworld hcap
  rw [hplans r]
  exact ⟨hcap r, rfl, rfl⟩

/-- A token count of the monokernel's range is within the tile bound of every build. -/
lemma tiles_le_of_le_max {B : Build} (hB : B.Shipped) {n : ℕ} (hn : n ≤ prefillMaxTokens) :
    (n : ℤ) * B.topK / B.blockM + B.numExperts ≤ B.maxTiles := by
  rw [B.topK_eq, B.blockM_eq, B.numExperts_eq, hB.maxTiles_eq]
  unfold prefillMaxTokens at hn
  omega

/-- The launcher takes a launch of a usable plan exactly when its binary indexes all experts and
the chunks are whole vectors of the output. -/
theorem plan_launch_accepted_iff {B : Build} (hB : B.Shipped)
    (h : PlansBuilt cfg enabled inputs plans) {caps : TPCaps} (hcaps : (inputs r).caps = some caps)
    (hreports : Reports B caps) (husable : (plans r).usable = true) {n : ℕ} (hn : 0 < n)
    (hmax : n ≤ prefillMaxTokens) {c : ℤ} (hc : (plans r).chunksFor n = c) (hpos : 0 < c) :
    launcherCheck B ((plans r).launchCall r n) = 0 ↔
      B.epBuild = false ∧ Build.tpMM * c ∣ n * (B.hDim : ℤ) := by
  obtain ⟨hcap, hchunks, hncomm⟩ := h.of_usable husable
  obtain ⟨hcap_le, hgrid⟩ := hcap.bounds hcaps hreports
  have hncomm_pos : 1 ≤ (plans r).ncomm := by
    obtain ⟨entries, henter, -⟩ := h
    rw [hncomm]
    exact rankNcomm_pos (henter r)
  have hc_le : c ≤ B.tpMaxC := by
    unfold FusedTPPlan.chunksFor at hc
    rw [hchunks] at hc
    cases hget : (rankChunks cfg (inputs r)).get? n with
    | none =>
      rw [hget, Option.getD_none] at hc
      omega
    | some c' =>
      rw [hget, Option.getD_some] at hc
      exact hcap_le c (List.mem_map.mpr ⟨(n, c'), Dict.get?_eq_some_iff.mp hget, hc⟩)
  have hfused : ((plans r).launchCall r n).Fused := ⟨rfl, hncomm_pos⟩
  have hrank : (r.val : ℤ) < cfg.world := by exact_mod_cast r.isLt
  rw [launcherCheck_eq_zero_iff, Int.dvd_iff_emod_eq_zero, ← hc]
  constructor
  · intro hacc
    exact ⟨hacc.expertMap.symm, hacc.dvd hfused⟩
  · rintro ⟨hep, hdvd⟩
    exact
      { expertMap := hep.symm
        workspace := ⟨rfl, rfl⟩
        numTokens_pos := Int.natCast_pos.mpr hn
        tiles_le := tiles_le_of_le_max hB hmax
        operands := rfl
        nchunk := fun _ => ⟨hpos.trans_eq hc.symm, hc.trans_le hc_le⟩
        ncomm_lt := fun _ => hncomm.trans_lt hgrid
        rank := fun _ => ⟨show (1 : ℤ) ≤ cfg.world by omega, Int.natCast_nonneg _, hrank⟩
        pads := fun _ => rfl
        dvd := fun _ => hdvd }

end Launch

/-! ### Chunk tables -/

section Examples

/-- The report is that of the build. -/
lemma reports_plainRank : Reports deepseekTP ⟨true, true, some 16, some 1, some 32, some 1,
    some 132, true⟩ :=
  ⟨fun _ hc => (Option.some.inj hc).symm, fun _ hg => (Option.some.inj hg).symm⟩

/-- The plans of two ranks that see the same. -/
def twinPlans (inp : RankInput) : Fin 2 → FusedTPPlan :=
  finishPlan (fun _ => readyEntry inp) fun _ => inp

/-- Two ranks with one input have built their plans. -/
lemma plansBuilt_twinPlans {inp : RankInput}
    (h : enter pairConfig true inp = .ok (readyEntry inp)) :
    PlansBuilt pairConfig (fun _ => true) (fun _ => inp) (twinPlans inp) :=
  ⟨fun _ => readyEntry inp, fun _ => h, rfl⟩

/-- The measured table is launched. -/
theorem plan_launch_accepted_iff_plainRank :
    launcherCheck deepseekTP ((twinPlans plainRank 0).launchCall (0 : Fin 2) 8192) = 0 :=
  (plan_launch_accepted_iff (c := 4) (r := (0 : Fin 2)) (Or.inl rfl)
    (plansBuilt_twinPlans enter_plainRank) rfl reports_plainRank rfl (by decide) (by decide) rfl
    (by decide)).mpr ⟨rfl, by decide⟩

/-- A rank whose table asks for three chunks. -/
def threeChunkRank : RankInput := { plainRank with env := { tpChunks := some "8192:3" } }

/-- Three chunks are below the cap of the binary, so the plan is usable and hands them out, and the
launcher refuses the call. -/
theorem three_chunks_refused :
    PlansBuilt pairConfig (fun _ => true) (fun _ => threeChunkRank) (twinPlans threeChunkRank) ∧
      (∃ caps, threeChunkRank.caps = some caps ∧ Reports deepseekTP caps) ∧
      (twinPlans threeChunkRank 0).usable = true ∧ 8192 ≤ prefillMaxTokens ∧
      (twinPlans threeChunkRank 0).chunksFor 8192 = 3 ∧
      launcherCheck deepseekTP ((twinPlans threeChunkRank 0).launchCall (0 : Fin 2) 8192) =
        -114 :=
  ⟨plansBuilt_twinPlans rfl, ⟨_, rfl, reports_plainRank⟩, rfl, by decide, rfl, rfl⟩

end Examples

end UnimonoMoe
