import Mathlib.Analysis.Complex.Exponential
import UnimonoMoe.Host.Gate
import UnimonoMoe.Kernel.RouterReference
import UnimonoMoe.Lib.GroupedTopK

/-!
# A layer's options and its own router

The kernel has its router, its activation and its bias-free GEMMs compiled in; a layer has all of
these as options.  `ConfiguredLayer` is a layer with the options that the load gate does not look
at, and `getFusedMoeQuantConfig` is how the standard path hands the expert function its share.

The layer's own router is not part of the repository.  `slots` is what its options stand for, and
`RoutesBy` says of a router that it does that.  For a layer that the gate enables, the rest of the
module states the selection of phase 0 in terms of the layer's scores.
-/

namespace UnimonoMoe

open TopK

/-! ## The layer -/

/-- `MoEActivation`, as far as `TritonExperts` names its values. -/
inductive MoEActivation
  | silu
  | gelu
  | geluTanh
  | swigluoai
  | swigluoaiUninterleave
  | swiglustep
  | siluNoMul
  | geluNoMul
  | geluTanhNoMul
  | relu2NoMul
deriving DecidableEq, Repr

/-- A layer with the options of its expert function and of its router. -/
structure ConfiguredLayer extends MoELayer where
  activation : MoEActivation
  swigluLimit : Option ℚ
  swigluAlpha : Option ℚ
  swigluBeta : Option ℚ
  /-- `moe.has_bias` -/
  hasBias : Bool
  /-- `w13_bias is not None` -/
  w13Bias : Bool
  /-- `w2_bias is not None` -/
  w2Bias : Bool
  applyRouterWeightOnInput : Bool
  /-- `num_expert_group` and `topk_group` of a grouped router -/
  groups : Option (ℕ × ℕ)
  /-- a logical-to-physical map is applied to the selected experts -/
  eplb : Bool
  /-- how many experts the router scores beyond those with weights -/
  zeroExperts : ℕ
  /-- `routed_scaling_factor` of the router, `1` for one that takes none -/
  routedScalingFactor : ℚ
  topK_le : topK ≤ globalNumExperts
  groups_dvd : ∀ g ∈ groups, g.1 ∣ globalNumExperts
  topkGroup_le : ∀ g ∈ groups, g.2 ≤ g.1
  /-- the kept groups have enough experts -/
  topK_le_kept : ∀ g ∈ groups, topK ≤ globalNumExperts / g.1 * g.2
  /-- with a correction bias a group is scored by two of its experts -/
  two_le : bias = true → ∀ g ∈ groups, 2 ≤ globalNumExperts / g.1
  groups_zeroExperts : zeroExperts ≠ 0 → groups = none

/-- `FusedMoEQuantConfig`, as far as `get_fused_moe_quant_config` sets it from the options. -/
structure FusedMoEQuantConfig where
  gemm1ClampLimit : Option ℚ
  gemm1Alpha : Option ℚ
  gemm1Beta : Option ℚ
  w1Bias : Bool
  w2Bias : Bool
deriving DecidableEq, Repr

/-- `get_fused_moe_quant_config`. -/
def ConfiguredLayer.getFusedMoeQuantConfig (layer : ConfiguredLayer) : FusedMoEQuantConfig where
  gemm1ClampLimit := layer.swigluLimit
  gemm1Alpha := layer.swigluAlpha
  gemm1Beta := layer.swigluBeta
  w1Bias := layer.hasBias && layer.w13Bias
  w2Bias := layer.hasBias && layer.w2Bias

/-- The options of the expert function that the standard path passes on. -/
structure ExpertOptions where
  activation : MoEActivation
  quantConfig : FusedMoEQuantConfig
  applyRouterWeightOnInput : Bool
deriving DecidableEq, Repr

/-- What the layer is configured to compute in its experts. -/
def ConfiguredLayer.expertOptions (layer : ConfiguredLayer) : ExpertOptions where
  activation := layer.activation
  quantConfig := layer.getFusedMoeQuantConfig
  applyRouterWeightOnInput := layer.applyRouterWeightOnInput

/-- What the kernel computes in its experts: SiLU-and-mul between two GEMMs without bias, and the
router weight on their output. -/
def kernelExpertOptions : ExpertOptions where
  activation := .silu
  quantConfig := ⟨none, none, none, false, false⟩
  applyRouterWeightOnInput := false

/-! ## The layer's own router -/

/-- Exact arithmetic with the constants of the source. -/
noncomputable def realOps : FloatOps ℝ := .exact Real.exp (-((2 ^ 24 - 1) * 2 ^ 104)) (1 / 10 ^ 30)

/-- Real arithmetic is ordered. -/
lemma realOps_ordered : realOps.Ordered := FloatOps.exact_ordered _ _ _

namespace ConfiguredLayer

variable (layer : ConfiguredLayer) (bias : Option (ℕ → ℝ)) (row : ℕ → ℝ)

/-- The experts that the router scores. -/
def width : ℕ := layer.globalNumExperts + layer.zeroExperts

/-- The score of an expert, by `scoring_func`. -/
noncomputable def scores (e : ℕ) : ℝ :=
  if layer.scoringFunc = .softmax then
    Real.exp (row e) / ∑ i ∈ Finset.range layer.width, Real.exp (row i)
  else 1 / (1 + Real.exp (-row e))

/-- What the router selects by: the score, shifted by the correction bias. -/
noncomputable def choiceScores (e : ℕ) : ℝ := layer.scores row e + bias.elim 0 (· e)

/-- The experts the router selects.  A group is scored by the sum of its two best experts under a
correction bias, and by its best one otherwise. -/
noncomputable def topkIds : List ℕ :=
  match layer.groups with
  | none => topK (layer.choiceScores bias row) layer.topK (List.range layer.width)
  | some (numExpertGroup, topkGroup) =>
    groupedTopK (layer.choiceScores bias row) (if bias.isSome then 2 else 1)
      (layer.globalNumExperts / numExpertGroup) numExpertGroup topkGroup layer.topK

/-- The weight of a selected expert.  Renormalization divides by the sum of the selected scores,
clamped as on the host and in the kernel; the scaling factor comes last. -/
noncomputable def topkWeight (e : ℕ) : ℝ :=
  (if layer.renormalize then
    layer.scores row e / max ((layer.topkIds bias row).map (layer.scores row)).sum (1 / 10 ^ 30)
  else layer.scores row e) * layer.routedScalingFactor

/-- The slots of a row: the physical id and the weight of every selected expert.  A slot on a zero
expert leaves nothing to the experts with weights. -/
noncomputable def slots (logicalToPhysical : Option (ℕ → ℕ)) : List (ℕ × ℝ) :=
  (layer.topkIds bias row).map fun e =>
    if e < layer.globalNumExperts then (logicalToPhysical.elim e (· e), layer.topkWeight bias row e)
    else (0, 0)

end ConfiguredLayer

/-- A router: from the correction bias, the logical-to-physical map and a row of logits to the
selected experts with their weights. -/
abbrev SelectExperts : Type := Option (ℕ → ℝ) → Option (ℕ → ℕ) → (ℕ → ℝ) → List (ℕ × ℝ)

/-- The correction bias and the logical-to-physical map that a layer holds. -/
structure ConfiguredLayer.Holds (layer : ConfiguredLayer) (bias : Option (ℕ → ℝ))
    (logicalToPhysical : Option (ℕ → ℕ)) : Prop where
  bias : bias.isSome = layer.bias
  eplb : logicalToPhysical.isSome = layer.eplb
  /-- the map permutes the experts -/
  bijOn : ∀ m ∈ logicalToPhysical,
    Set.BijOn m (Set.Iio layer.globalNumExperts) (Set.Iio layer.globalNumExperts)

/-- `select_experts` does what the options of the layer say, in any order of the slots. -/
def ConfiguredLayer.RoutesBy (layer : ConfiguredLayer) (selectExperts : SelectExperts) : Prop :=
  layer.scoringFunc ≠ .other → ∀ bias logicalToPhysical row, layer.Holds bias logicalToPhysical →
    (selectExperts bias logicalToPhysical row).Perm (layer.slots bias row logicalToPhysical)

/-- What phase 0 selects for a row, by global expert ids. -/
noncomputable def kernelSlots (B : Build) (bias : Option (ℕ → ℝ)) (row : ℕ → ℝ) : List (ℕ × ℝ) :=
  (List.range B.topK).map fun k =>
    ((winner B realOps bias row k 0).bidx, slotWeight B realOps bias row k)

/-! ## The enabled layer -/

/-- What the gate establishes about the router of a layer that it enables. -/
structure Enabled (B : Build) (layer : ConfiguredLayer) : Prop where
  one_lt : 1 < layer.topK
  softmax : B.routerMode = 0 → layer.scoringFunc = .softmax
  sigmoid : B.routerMode ≠ 0 → layer.scoringFunc = .sigmoid ∧ layer.bias = true

/-- An enabled layer with the compiled number of experts and of slots. -/
structure Fits (B : Build) (layer : ConfiguredLayer) : Prop extends Enabled B layer where
  numExperts : layer.globalNumExperts = 256
  topK : layer.topK = 8

/-- The builds have a softmax or a grouped sigmoid router. -/
lemma Build.Shipped.routerMode_eq {B : Build} (h : B.Shipped) :
    B.routerMode = 0 ∨ B.routerMode = 2 := by
  rcases h with rfl | rfl | rfl
  · exact Or.inr rfl
  · exact Or.inl rfl
  · exact Or.inl rfl

section Proofs

variable {B : Build} {layer : ConfiguredLayer}

/-- What the load gate establishes about the router of the layer. -/
lemma enabled_of_loadGate (hB : B.Shipped) {useMonokernel : Bool} {geo : Geometry}
    (hreport : geo.routerMode = some (B.routerMode : ℤ))
    (h : loadGate useMonokernel (some geo) layer.toMoELayer = true) : Enabled B layer := by
  obtain ⟨heligible, hmatched⟩ := loadGate_eq_true_iff.mp h
  have hrouter := hmatched.router
  rw [hreport] at hrouter
  refine ⟨of_decide_eq_true (Bool.and_eq_true_iff.mp heligible).2, fun hmode => ?_,
    fun hmode => ?_⟩
  · rw [hmode] at hrouter
    by_contra hne
    simp [routerOk, hne] at hrouter
  · rw [hB.routerMode_eq.resolve_left hmode] at hrouter
    constructor
    · by_contra hne
      simp [routerOk, hne] at hrouter
    · by_contra hne
      rw [Bool.not_eq_true] at hne
      simp [routerOk, hne] at hrouter

/-- An enabled layer has one of the two scoring functions. -/
lemma Enabled.scoringFunc_ne (h : Enabled B layer) : layer.scoringFunc ≠ .other := by
  by_cases hmode : B.routerMode = 0
  · rw [h.softmax hmode]
    decide
  · rw [(h.sigmoid hmode).1]
    decide

/-! ### Scores -/

variable {bias : Option (ℕ → ℝ)} {row : ℕ → ℝ}

/-- The denominator of the softmax is positive. -/
lemma sum_exp_pos (layer : ConfiguredLayer) (row : ℕ → ℝ) :
    0 < ∑ i ∈ Finset.range layer.width, Real.exp (row i) := by
  have hpos := layer.globalNumExperts_pos
  refine Finset.sum_pos (fun i _ => Real.exp_pos _) ⟨0, Finset.mem_range.mpr ?_⟩
  rw [ConfiguredLayer.width]
  omega

/-- Scores are positive. -/
lemma scores_pos (layer : ConfiguredLayer) (row : ℕ → ℝ) (e : ℕ) : 0 < layer.scores row e := by
  unfold ConfiguredLayer.scores
  split_ifs
  · exact div_pos (Real.exp_pos _) (sum_exp_pos layer row)
  · exact one_div_pos.mpr (add_pos one_pos (Real.exp_pos _))

/-- A higher logit has a higher score. -/
lemma scores_lt_iff {e e' : ℕ} :
    layer.scores row e < layer.scores row e' ↔ row e < row e' := by
  unfold ConfiguredLayer.scores
  split_ifs
  · rw [div_lt_div_iff_of_pos_right (sum_exp_pos layer row), Real.exp_lt_exp]
  · have hpos : ∀ x, 0 < 1 + Real.exp (-row x) := fun x => add_pos one_pos (Real.exp_pos _)
    rw [one_div_lt_one_div (hpos _) (hpos _), add_lt_add_iff_left, Real.exp_lt_exp, neg_lt_neg_iff]

/-- Without zero experts the kernel gives an expert the score of the layer. -/
lemma refWeight_eq_scores (h : Fits B layer) (hzero : layer.zeroExperts = 0) (e : ℕ) :
    refWeight B realOps row e = layer.scores row e := by
  by_cases hmode : B.routerMode = 0
  · have hwidth : layer.width = B.numExperts := by
      rw [ConfiguredLayer.width, hzero, h.numExperts, B.numExperts_eq]
    unfold ConfiguredLayer.scores realOps
    rw [if_pos (h.softmax hmode), refWeight_softmax hmode, softmaxSum, hwidth]
    generalize rowMax B _ row 0 = m
    simp only [Real.exp_sub]
    rw [← Finset.sum_div, div_div_div_cancel_right₀ (Real.exp_pos m).ne']
  · have hne : layer.scoringFunc ≠ .softmax := by
      rw [(h.sigmoid hmode).1]
      decide
    unfold ConfiguredLayer.scores
    rw [if_neg hne, refWeight, if_neg hmode]
    rfl

/-- A sigmoid build selects by what the layer selects by. -/
lemma refScore_eq_choiceScores (h : Enabled B layer) (hmode : B.routerMode ≠ 0) (e : ℕ) :
    refScore B realOps bias row e = layer.choiceScores bias row e := by
  have hne : layer.scoringFunc ≠ .softmax := by
    rw [(h.sigmoid hmode).1]
    decide
  unfold ConfiguredLayer.choiceScores ConfiguredLayer.scores
  rw [if_neg hne, refScore, if_neg hmode]
  rfl

/-! ### Phase 0 -/

/-- The sum of the two largest scores of a group. -/
lemma refGroupScore_eq_topSum (j : ℕ) : refGroupScore B realOps bias row j =
    topSum (refScore B realOps bias row) 2 (group 32 j) := by
  obtain ⟨a, _, b, _, htwo, _⟩ :=
    exists_topK_two (s := refScore B realOps bias row) (nodup_group 32 j)
      (by rw [length_group]; norm_num)
  have hexperts : groupExperts j = group 32 j := rfl
  rw [refGroupScore, hexperts, htwo, topSum, htwo]
  simp [realOps, FloatOps.exact]

/-- A sigmoid build can work with every row if no bias is below `-FLT_MAX / 2`: its scores are
positive before they are biased. -/
lemma aboveLowest_of_bias (h : Enabled B layer) (hmode : B.routerMode ≠ 0)
    (hbias : ∀ b ∈ bias, ∀ e < B.numExperts, realOps.lowest / 2 ≤ b e) :
    AboveLowest B realOps bias row := by
  have hlow : realOps.lowest < 0 := by
    norm_num [realOps, FloatOps.exact]
  have hscore : ∀ e < B.numExperts, realOps.lowest / 2 < refScore B realOps bias row e := by
    intro e he
    rw [refScore_eq_choiceScores h hmode, ConfiguredLayer.choiceScores]
    have hpos := scores_pos layer row e
    cases hb : bias with
    | none =>
      rw [Option.elim_none]
      linarith
    | some b =>
      have hle := hbias b hb e he
      rw [Option.elim_some]
      linarith
  refine .of_forall (fun e he => lt_trans (by linarith) (hscore e he)) fun _ j hj => ?_
  rw [B.logitsPerLane_eq] at hj
  have hexperts := B.numExperts_eq
  have hpair : refScore B realOps bias row (32 * j) + refScore B realOps bias row (32 * j + 1) ≤
      refGroupScore B realOps bias row j := by
    rw [refGroupScore_eq_topSum]
    refine le_topSum_two (nodup_group _ _) ?_ ?_ (by omega)
    · exact (mem_group (by norm_num)).mpr (by omega)
    · exact (mem_group (by norm_num)).mpr (by omega)
  have hfirst := hscore (32 * j) (by omega)
  have hsecond := hscore (32 * j + 1) (by omega)
  linarith

/-- Logits of at least minus one, and biases that are not negative, keep every score above
`-FLT_MAX`. -/
lemma aboveLowest_of_neg_one_le (h : Enabled B layer) (hrow : ∀ e, -1 ≤ row e)
    (hbias : ∀ b ∈ bias, ∀ e, 0 ≤ b e) : AboveLowest B realOps bias row := by
  have hlow : realOps.lowest < -1 := by
    norm_num [realOps, FloatOps.exact]
  by_cases hmode : B.routerMode = 0
  · refine .of_forall (fun e _ => ?_) fun hgrouped => by omega
    rw [refScore, if_pos hmode]
    exact hlow.trans_le (hrow e)
  · exact aboveLowest_of_bias h hmode fun b hb e _ => le_trans (by linarith) (hbias b hb e)

/-- A softmax build selects among all experts, by their logits. -/
lemma refTopK_ungrouped (hmode : B.routerMode = 0) :
    refTopK B realOps bias row = topK row 8 (List.range 256) := by
  have hall : candidates B realOps bias row = List.range B.numExperts := by
    refine List.filter_eq_self.mpr fun e _ => ?_
    simp [hmode]
  have hscore : refScore B realOps bias row = row := funext fun e => by
    rw [refScore, if_pos hmode]
  rw [refTopK, hall, hscore, B.topK_eq, B.numExperts_eq]

/-- The grouped build selects among the experts of its best four groups. -/
lemma refTopK_grouped (hB : B.Shipped) (h : Enabled B layer) (hmode : B.routerMode ≠ 0) :
    refTopK B realOps bias row = groupedTopK (layer.choiceScores bias row) 2 32 8 4 8 := by
  have hscore : refScore B realOps bias row = layer.choiceScores bias row :=
    funext fun e => refScore_eq_choiceScores h hmode e
  have hkept : refGroups B realOps bias row =
      keptGroups (layer.choiceScores bias row) 2 32 8 4 := by
    rw [refGroups, funext refGroupScore_eq_topSum, hscore, hB.topkGroup_eq, B.logitsPerLane_eq]
    rfl
  rw [refTopK, groupedTopK, hscore, B.topK_eq, candidates, B.numExperts_eq, hkept]
  simp only [hB.routerMode_eq.resolve_left hmode, forall_const]

/-- The reference selects experts. -/
lemma lt_of_mem_refTopK {e : ℕ} (he : e ∈ refTopK B realOps bias row) : e < 256 :=
  (mem_candidates.mp (mem_of_mem_topK he)).1.trans_eq B.numExperts_eq

/-- The kernel fills eight slots. -/
lemma kernelSlots_length : (kernelSlots B bias row).length = 8 := by
  rw [kernelSlots, List.length_map, List.length_range, B.topK_eq]

/-- Phase 0 selects the experts of the reference. -/
lemma kernelSlots_fst (hB : B.Shipped) (hrow : AboveLowest B realOps bias row) :
    (kernelSlots B bias row).map Prod.fst = refTopK B realOps bias row := by
  rw [← selected_eq_refTopK hB realOps_ordered (fun _ _ => rfl) hrow, kernelSlots, List.map_map]
  rfl

/-- The weights of phase 0 are positive. -/
lemma kernelSlots_pos (hB : B.Shipped) (hrow : AboveLowest B realOps bias row) :
    ∀ p ∈ kernelSlots B bias row, 0 < p.2 := by
  intro p hp
  obtain ⟨k, hk, rfl⟩ := List.mem_map.mp hp
  have hraw : 0 < rawWeight B realOps bias row k := by
    rw [rawWeight_eq hB realOps_ordered (fun _ _ => rfl) hrow (List.mem_range.mp hk)]
    by_cases hmode : B.routerMode = 0
    · unfold realOps
      rw [refWeight_softmax hmode]
      refine div_pos (Real.exp_pos _) (Finset.sum_pos (fun i _ => Real.exp_pos _) ⟨0, ?_⟩)
      rw [Finset.mem_range, B.numExperts_eq]
      norm_num
    · rw [refWeight, if_neg hmode]
      exact one_div_pos.mpr (add_pos one_pos (Real.exp_pos _))
  have htiny : (0 : ℝ) < max (weightSum B realOps bias row) (1 / 10 ^ 30) :=
    lt_max_of_lt_right (by norm_num)
  exact mul_pos hraw (one_div_pos.mpr htiny)

/-- Phase 0 by the scores of the layer. -/
lemma kernelSlots_eq (hB : B.Shipped) (h : Fits B layer) (hzero : layer.zeroExperts = 0)
    (hrow : AboveLowest B realOps bias row) :
    kernelSlots B bias row = (refTopK B realOps bias row).map fun e =>
      (e, layer.scores row e /
        max ((refTopK B realOps bias row).map (layer.scores row)).sum (1 / 10 ^ 30)) := by
  have hselected := selected_eq_refTopK hB realOps_ordered (fun _ _ => rfl) hrow
  have hraw : ∀ k < B.topK, rawWeight B realOps bias row k =
      layer.scores row (winner B realOps bias row k 0).bidx := fun k hk => by
    rw [rawWeight_eq hB realOps_ordered (fun _ _ => rfl) hrow hk, refWeight_eq_scores h hzero]
  have hsum : weightSum B realOps bias row =
      ((refTopK B realOps bias row).map (layer.scores row)).sum := by
    have hexact : weightSum B realOps bias row =
        ∑ k ∈ Finset.range B.topK, rawWeight B realOps bias row k := weightSum_exact
    rw [hexact, ← hselected, List.map_map,
      Finset.sum_congr rfl fun k hk => hraw k (Finset.mem_range.mp hk)]
    rfl
  rw [← hsum, ← hselected, List.map_map, kernelSlots]
  refine List.map_congr_left fun k hk => ?_
  rw [Function.comp_apply, ← hraw k (List.mem_range.mp hk)]
  exact congrArg (Prod.mk _) (mul_one_div _ _)

/-! ### The layer's router -/

section Layer

variable {n g : ℕ}

/-- The groups divide up the experts. -/
lemma size_mul (hgroups : layer.groups = some (n, g)) :
    layer.globalNumExperts / n * n = layer.globalNumExperts :=
  Nat.div_mul_cancel (layer.groups_dvd _ hgroups)

/-- A grouped router keeps a group, and its groups are not empty. -/
lemma group_pos (h : Enabled B layer) (hgroups : layer.groups = some (n, g)) :
    0 < g ∧ 0 < layer.globalNumExperts / n := by
  have hfits := layer.topK_le_kept _ hgroups
  have hone := h.one_lt
  constructor
  · exact Nat.pos_of_ne_zero fun hg => by simp [hg] at hfits; omega
  · exact Nat.pos_of_ne_zero fun hn => by simp [hn] at hfits; omega

/-- A layer with groups selects within the best groups. -/
lemma topkIds_grouped (hgroups : layer.groups = some (n, g)) :
    layer.topkIds bias row = groupedTopK (layer.choiceScores bias row)
      (if bias.isSome then 2 else 1) (layer.globalNumExperts / n) n g layer.topK := by
  unfold ConfiguredLayer.topkIds
  rw [hgroups]

/-- A layer without groups selects among all experts. -/
lemma topkIds_ungrouped (hgroups : layer.groups = none) : layer.topkIds bias row =
    topK (layer.choiceScores bias row) layer.topK (List.range layer.width) := by
  unfold ConfiguredLayer.topkIds
  rw [hgroups]

/-- The zero experts come behind the others. -/
lemma le_width : layer.globalNumExperts ≤ layer.width := Nat.le_add_right _ _

/-- The router selects among the experts it scores. -/
lemma lt_width_of_mem_topkIds {e : ℕ} (he : e ∈ layer.topkIds bias row) : e < layer.width := by
  cases hgroups : layer.groups with
  | none =>
    rw [topkIds_ungrouped hgroups] at he
    exact List.mem_range.mp (mem_of_mem_topK he)
  | some ng =>
    rw [topkIds_grouped hgroups] at he
    exact ((mem_of_mem_groupedTopK he).1.trans_eq (size_mul hgroups)).trans_le le_width

/-- The router fills every slot. -/
lemma topkIds_length (h : Enabled B layer) : (layer.topkIds bias row).length = layer.topK := by
  cases hgroups : layer.groups with
  | none =>
    rw [topkIds_ungrouped hgroups]
    refine length_topK ?_
    rw [List.length_range]
    exact layer.topK_le.trans le_width
  | some ng =>
    rw [topkIds_grouped hgroups]
    exact length_groupedTopK (group_pos h hgroups).2 (layer.topkGroup_le _ hgroups)
      (layer.topK_le_kept _ hgroups)

/-- The best expert is selected if its group is kept. -/
lemma mem_topkIds_of_best (h : Enabled B layer) {e : ℕ} (he : e < layer.width)
    (hbest : ∀ x < layer.width, x ≠ e →
      layer.choiceScores bias row x < layer.choiceScores bias row e)
    (hkept : ∀ n g, layer.groups = some (n, g) → e < layer.globalNumExperts ∧
      e / (layer.globalNumExperts / n) ∈ keptGroups (layer.choiceScores bias row)
        (if bias.isSome then 2 else 1) (layer.globalNumExperts / n) n g) :
    e ∈ layer.topkIds bias row := by
  have honly : ∀ x < layer.width, Ranks (layer.choiceScores bias row) x e →
      x ∈ ({e} : Finset ℕ) := by
    intro x hx hle
    by_contra hne
    exact absurd hle.le (not_le.mpr (hbest x hx fun heq => hne (Finset.mem_singleton.mpr heq)))
  have hcard : ({e} : Finset ℕ).card ≤ layer.topK := by
    rw [Finset.card_singleton]
    exact h.one_lt.le
  cases hgroups : layer.groups with
  | none =>
    rw [topkIds_ungrouped hgroups]
    exact mem_topK_of_card_le List.nodup_range (List.mem_range.mpr he) {e}
      (fun x hx => honly x (List.mem_range.mp hx)) hcard
  | some ng =>
    obtain ⟨hlt, hmem⟩ := hkept _ _ hgroups
    rw [topkIds_grouped hgroups]
    exact mem_groupedTopK (hlt.trans_eq (size_mul hgroups).symm) hmem {e}
      (fun x hx _ => honly x ((hx.trans_eq (size_mul hgroups)).trans_le le_width)) hcard

/-- The slots when nothing happens to the selected experts afterwards. -/
lemma slots_eq (hzero : layer.zeroExperts = 0) : layer.slots bias row none =
    (layer.topkIds bias row).map fun e => (e, layer.topkWeight bias row e) := by
  refine List.map_congr_left fun e he => ?_
  have hlt := lt_width_of_mem_topkIds he
  rw [ConfiguredLayer.width, hzero, add_zero] at hlt
  rw [if_pos hlt]
  rfl

/-- Without a correction bias the router selects by the logits. -/
lemma topK_choiceScores (k : ℕ) (l : List ℕ) :
    topK (layer.choiceScores none row) k l = topK row k l := by
  refine topK_congr fun a _ b _ => ?_
  simp only [ConfiguredLayer.choiceScores, Option.elim_none, add_zero]
  exact scores_lt_iff

end Layer

end Proofs

end UnimonoMoe
