import Mathlib.Data.Nat.Prime.Basic
import Mathlib.Logic.Equiv.Basic
import UnimonoMoe.Host.LayerRouter

/-!
# What the load gate does not ask

`loadGate` compares the geometry, the scoring function and, for a sigmoid build, the presence of a
correction bias.  It asks neither for the activation and its limits nor for the biases of the
experts, and of the router not for its groups, its renormalization, its scaling factor or what
happens to the selected experts afterwards.

`gate_sound_iff` says for which options an enabled layer is computed by the kernel as it is
configured, and for which rows.  Every option of the router that the kernel does not have shows on
some row of logits, for which the two fill their slots differently: on a row with a peak, on a row
of zeros, on one with eight high logits, or, for the groups of a sigmoid router, on the contested
row.
-/

namespace UnimonoMoe

open TopK

/-! ## Soundness -/

/-- Phase 0 fills the slots of a row as the layer's router does. -/
def RoutesRow (B : Build) (selectExperts : SelectExperts) (bias : Option (ℕ → ℝ))
    (logicalToPhysical : Option (ℕ → ℕ)) (row : ℕ → ℝ) : Prop :=
  (kernelSlots B bias row).Perm (selectExperts bias logicalToPhysical row)

/-- The kernel computes the function that the layer is configured to compute, on all rows that the
selection of phase 0 can work with. -/
structure Sound (B : Build) (layer : ConfiguredLayer) (selectExperts : SelectExperts) : Prop where
  experts : layer.expertOptions = kernelExpertOptions
  routing : ∀ bias logicalToPhysical row, layer.Holds bias logicalToPhysical →
    AboveLowest B realOps bias row → RoutesRow B selectExperts bias logicalToPhysical row

/-- The options that the kernel has compiled in. -/
structure CompiledOptions (B : Build) (layer : ConfiguredLayer) : Prop where
  activation : layer.activation = .silu
  swigluLimit : layer.swigluLimit = none
  swigluAlpha : layer.swigluAlpha = none
  swigluBeta : layer.swigluBeta = none
  biases : layer.hasBias = true → layer.w13Bias = false ∧ layer.w2Bias = false
  weightOnOutput : layer.applyRouterWeightOnInput = false
  numExperts : layer.globalNumExperts = B.numExperts
  topK : layer.topK = B.topK
  renormalize : layer.renormalize = true
  routedScalingFactor : layer.routedScalingFactor = 1
  eplb : layer.eplb = false
  zeroExperts : layer.zeroExperts = 0
  /-- a softmax build takes no correction bias and has no groups, unless enough of them are kept -/
  softmax : B.routerMode = 0 → layer.bias = false ∧ ∀ g ∈ layer.groups, min B.topK g.1 ≤ g.2
  /-- a grouped build has its own groups -/
  grouped : B.routerMode = 2 → layer.groups = some (B.nGroup, B.topkGroup)

section Proofs

variable {B : Build} {layer : ConfiguredLayer} {bias : Option (ℕ → ℝ)} {row : ℕ → ℝ}

/-- An enabled layer whose router scores the compiled experts and leaves the selected ones as they
are. -/
structure Plain (B : Build) (layer : ConfiguredLayer) : Prop extends Fits B layer where
  zeroExperts : layer.zeroExperts = 0
  eplb : layer.eplb = false

/-- An enabled layer without the other options routes over the 256 experts of the build. -/
lemma Plain.width_eq (h : Plain B layer) : layer.width = 256 := by
  rw [ConfiguredLayer.width, h.numExperts, h.zeroExperts]

/-- Such a layer holds any bias of its own and no logical-to-physical map. -/
lemma Plain.holds (h : Plain B layer) (hbias : bias.isSome = layer.bias) :
    layer.Holds bias none := ⟨hbias, h.eplb.symm, by rintro _ ⟨⟩⟩

/-- The compiled options leave none of the others. -/
lemma CompiledOptions.plain (h : Enabled B layer) (hopts : CompiledOptions B layer) :
    Plain B layer :=
  ⟨⟨h, hopts.numExperts.trans B.numExperts_eq, hopts.topK.trans B.topK_eq⟩, hopts.zeroExperts,
    hopts.eplb⟩

/-! ## Routing with the compiled options -/

/-- With the compiled options the router selects what phase 0 selects. -/
lemma topkIds_eq_refTopK (hB : B.Shipped) (h : Enabled B layer) (hopts : CompiledOptions B layer)
    (hbias : bias.isSome = layer.bias) :
    layer.topkIds bias row = refTopK B realOps bias row := by
  have hplain := hopts.plain h
  by_cases hmode : B.routerMode = 0
  · obtain ⟨hnone, hgroups⟩ := hopts.softmax hmode
    obtain rfl : bias = none := by
      rw [hnone] at hbias
      exact Option.isSome_eq_false_iff.mp hbias |> Option.isNone_iff_eq_none.mp
    rw [refTopK_ungrouped hmode]
    cases hlayer : layer.groups with
    | none => rw [topkIds_ungrouped hlayer, topK_choiceScores, hplain.width_eq, hplain.topK]
    | some ng =>
      obtain ⟨n, g⟩ := ng
      have hkept : min layer.topK n ≤ g := hopts.topK ▸ hgroups (n, g) hlayer
      rw [topkIds_grouped hlayer, Option.isSome_none, if_neg Bool.false_ne_true,
        groupedTopK_one (group_pos h hlayer).2 hkept, size_mul hlayer, topK_choiceScores,
        hplain.numExperts, hplain.topK]
  · have hmode' := hB.routerMode_eq.resolve_left hmode
    have hsome : bias.isSome = true := hbias.trans (h.sigmoid hmode).2
    have hgroups : layer.groups = some (8, 4) := by
      rw [hopts.grouped hmode', hB.topkGroup_eq]
      rcases hB with rfl | rfl | rfl <;> rfl
    rw [topkIds_grouped hgroups, if_pos hsome, refTopK_grouped hB h hmode, hplain.numExperts,
      hplain.topK]

/-- With the compiled options the router fills its slots as phase 0 does. -/
lemma slots_eq_kernelSlots (hB : B.Shipped) (h : Enabled B layer) (hopts : CompiledOptions B layer)
    {logicalToPhysical : Option (ℕ → ℕ)} (hholds : layer.Holds bias logicalToPhysical)
    (hrow : AboveLowest B realOps bias row) :
    kernelSlots B bias row = layer.slots bias row logicalToPhysical := by
  have hplain := hopts.plain h
  obtain rfl : logicalToPhysical = none := by
    have heplb := hholds.eplb
    rw [hopts.eplb] at heplb
    exact Option.isSome_eq_false_iff.mp heplb |> Option.isNone_iff_eq_none.mp
  rw [slots_eq hplain.zeroExperts, kernelSlots_eq hB hplain.toFits hplain.zeroExperts hrow,
    ← topkIds_eq_refTopK hB h hopts hholds.bias]
  refine List.map_congr_left fun e _ => ?_
  rw [ConfiguredLayer.topkWeight, if_pos hopts.renormalize, hopts.routedScalingFactor,
    Rat.cast_one, mul_one]

/-! ## Rows that tell the options apart -/

/-- Phase 0 fills the slots of every row as the layer's router does. -/
def Agrees (B : Build) (layer : ConfiguredLayer) : Prop :=
  ∀ bias logicalToPhysical row, layer.Holds bias logicalToPhysical →
    AboveLowest B realOps bias row →
      (kernelSlots B bias row).Perm (layer.slots bias row logicalToPhysical)

/-- A bias that shifts nothing, if the layer has one. -/
noncomputable def restBias (layer : ConfiguredLayer) : Option (ℕ → ℝ) :=
  if layer.bias then some fun _ => 0 else none

/-- The bias at rest is there when the layer has one. -/
lemma restBias_isSome (layer : ConfiguredLayer) : (restBias layer).isSome = layer.bias := by
  unfold restBias
  split_ifs with h <;> simp [h]

/-- A bias of zero leaves the scores. -/
lemma choiceScores_restBias (e : ℕ) :
    layer.choiceScores (restBias layer) row e = layer.scores row e := by
  unfold ConfiguredLayer.choiceScores restBias
  split_ifs <;> exact add_zero _

/-- A bias of zero is not negative. -/
lemma restBias_nonneg (layer : ConfiguredLayer) : ∀ b ∈ restBias layer, ∀ e, 0 ≤ b e := by
  unfold restBias
  split_ifs
  · rintro _ ⟨⟩ e
    exact le_rfl
  · rintro _ ⟨⟩

/-- A map that moves nothing, if the layer has one. -/
lemma exists_holds (hbias : bias.isSome = layer.bias) :
    ∃ m : Option (ℕ → ℕ), layer.Holds bias m ∧ ∀ e, m.elim e (· e) = e := by
  cases heplb : layer.eplb with
  | false => exact ⟨none, ⟨hbias, heplb.symm, by rintro _ ⟨⟩⟩, fun _ => rfl⟩
  | true =>
    refine ⟨some id, ⟨hbias, heplb.symm, ?_⟩, fun _ => rfl⟩
    rintro _ ⟨⟩
    exact Set.bijOn_id _

/-! ### A row with a peak -/

/-- A row in which one expert stands out. -/
def peak (e₀ e : ℕ) : ℝ := if e = e₀ then 1 else -1

/-- The logit of the peak. -/
lemma peak_self (e₀ : ℕ) : peak e₀ e₀ = 1 := if_pos rfl

/-- The logit of every other expert. -/
lemma peak_of_ne {e₀ e : ℕ} (h : e ≠ e₀) : peak e₀ e = -1 := if_neg h

/-- A row with one peak is above the lowest value. -/
lemma aboveLowest_peak (h : Enabled B layer) (e₀ : ℕ) :
    AboveLowest B realOps (restBias layer) (peak e₀) := by
  refine aboveLowest_of_neg_one_le h (fun e => ?_) (restBias_nonneg layer)
  unfold peak
  split_ifs <;> norm_num

/-- The peak has more than twice the score of any other expert. -/
lemma scores_peak {e₀ e : ℕ} (hne : e ≠ e₀) :
    2 * layer.scores (peak e₀) e < layer.scores (peak e₀) e₀ := by
  have hexp : (2 : ℝ) < Real.exp 1 := by
    have := Real.add_one_lt_exp (one_ne_zero : (1 : ℝ) ≠ 0)
    linarith
  have hinv : Real.exp 1 * Real.exp (-1) = 1 := by
    rw [← Real.exp_add, add_neg_cancel, Real.exp_zero]
  have hpos := Real.exp_pos (-1)
  unfold ConfiguredLayer.scores
  rw [peak_self, peak_of_ne hne]
  split_ifs
  · rw [← mul_div_assoc]
    refine (div_lt_div_iff_of_pos_right (sum_exp_pos layer _)).mpr ?_
    nlinarith
  · rw [neg_neg, mul_one_div, div_lt_div_iff₀ (by positivity) (by positivity)]
    nlinarith

/-- The peak has more than twice the score of any other expert, so its group wins. -/
lemma choiceScores_peak (layer : ConfiguredLayer) {e₀ e : ℕ} (hne : e ≠ e₀) :
    2 * layer.choiceScores (restBias layer) (peak e₀) e <
      layer.choiceScores (restBias layer) (peak e₀) e₀ := by
  rw [choiceScores_restBias, choiceScores_restBias]
  exact scores_peak hne

/-- Scores without a bias are not negative. -/
lemma choiceScores_nonneg (layer : ConfiguredLayer) (row : ℕ → ℝ) (e : ℕ) :
    0 ≤ layer.choiceScores (restBias layer) row e := by
  rw [choiceScores_restBias]
  exact (scores_pos layer row e).le

/-- The peak has the best score. -/
lemma choiceScores_peak_lt {e₀ e : ℕ} (hne : e ≠ e₀) :
    layer.choiceScores (restBias layer) (peak e₀) e <
      layer.choiceScores (restBias layer) (peak e₀) e₀ := by
  have hpeak := choiceScores_peak layer hne
  have hnonneg := choiceScores_nonneg layer (peak e₀) e
  linarith

/-- Two experts of another group than that of the peak have less than the peak. -/
lemma choiceScores_peak_pair {size e₀ a b : ℕ} (hab : a / size = b / size)
    (hne : a / size ≠ e₀ / size) : layer.choiceScores (restBias layer) (peak e₀) a +
      layer.choiceScores (restBias layer) (peak e₀) b <
        layer.choiceScores (restBias layer) (peak e₀) e₀ := by
  have ha : a ≠ e₀ := fun heq => hne (by rw [heq])
  have hb : b ≠ e₀ := fun heq => hne (by rw [hab, heq])
  have hpeaka := choiceScores_peak layer ha
  have hpeakb := choiceScores_peak layer hb
  linarith

/-- The layer's router selects the peak. -/
lemma peak_mem_topkIds (h : Enabled B layer) {e₀ : ℕ} (he : e₀ < layer.width)
    (hin : layer.groups ≠ none → e₀ < layer.globalNumExperts) :
    e₀ ∈ layer.topkIds (restBias layer) (peak e₀) := by
  refine mem_topkIds_of_best h he (fun x _ hx => choiceScores_peak_lt hx) fun n g hgroups => ?_
  have hlt := hin (by rw [hgroups]; simp)
  obtain ⟨hg, hsize⟩ := group_pos h hgroups
  refine ⟨hlt, ?_⟩
  rw [restBias_isSome]
  cases hbias : layer.bias with
  | false =>
    rw [if_neg Bool.false_ne_true]
    exact mem_keptGroups_one hsize hg (hlt.trans_eq (size_mul hgroups).symm)
      fun x _ hx => choiceScores_peak_lt hx
  | true =>
    rw [if_pos rfl]
    exact mem_keptGroups_of_pairs hg (layer.two_le hbias _ hgroups) (choiceScores_nonneg layer _)
      (hlt.trans_eq (size_mul hgroups).symm) fun a b hab hne _ => choiceScores_peak_pair hab hne

/-- Phase 0 selects the peak. -/
lemma peak_mem_refTopK (hB : B.Shipped) (h : Enabled B layer) {e₀ : ℕ} (he : e₀ < 256) :
    e₀ ∈ refTopK B realOps (restBias layer) (peak e₀) := by
  by_cases hmode : B.routerMode = 0
  · rw [refTopK_ungrouped hmode]
    refine mem_topK_of_card_le List.nodup_range (List.mem_range.mpr he) {e₀}
      (fun x _ hle => Finset.mem_singleton.mpr ?_) (by simp)
    by_contra hne
    have hle := hle.le
    rw [peak_self, peak_of_ne hne] at hle
    norm_num at hle
  · rw [refTopK_grouped hB h hmode]
    refine mem_groupedTopK he ?_ {e₀} (fun x _ _ hle => Finset.mem_singleton.mpr ?_) (by simp)
    · exact mem_keptGroups_of_pairs (by norm_num) (by norm_num) (choiceScores_nonneg layer _) he
        fun a b hab hne _ => choiceScores_peak_pair hab hne
    · by_contra hne
      exact absurd hle.le (not_le.mpr (choiceScores_peak_lt hne))

/-! ### The experts and the slots -/

/-- The last expert of the kernel, or the first that it does not score, stands out. -/
lemma numExperts_eq (hB : B.Shipped) (h : Enabled B layer) (hagrees : Agrees B layer) :
    layer.globalNumExperts = 256 := by
  obtain ⟨m, hholds, hm⟩ := exists_holds (restBias_isSome layer)
  rcases lt_trichotomy layer.globalNumExperts 256 with hlt | heq | hgt
  · exfalso
    have hrow := aboveLowest_peak h 255
    have hkernel : 255 ∈ (kernelSlots B (restBias layer) (peak 255)).map Prod.fst := by
      rw [kernelSlots_fst hB hrow]
      exact peak_mem_refTopK hB h (by norm_num)
    obtain ⟨slot, hslot, hid⟩ :=
      List.mem_map.mp (((hagrees _ m _ hholds hrow).map Prod.fst).mem_iff.mp hkernel)
    obtain ⟨e, _, rfl⟩ := List.mem_map.mp hslot
    split_ifs at hid with he
    dsimp only at hid
    rw [hm] at hid
    omega
  · exact heq
  · exfalso
    have hrow := aboveLowest_peak h 256
    have hselected := peak_mem_topkIds h (hgt.trans_le le_width) fun _ => hgt
    have hslot : (256, layer.topkWeight (restBias layer) (peak 256) 256) ∈
        layer.slots (restBias layer) (peak 256) m := by
      refine List.mem_map.mpr ⟨256, hselected, ?_⟩
      rw [if_pos hgt, hm]
    have hkernel := (hagrees _ m _ hholds hrow).mem_iff.mpr hslot
    have hmem := List.mem_map_of_mem (f := Prod.fst) hkernel
    rw [kernelSlots_fst hB hrow] at hmem
    exact lt_irrefl _ (lt_of_mem_refTopK hmem)

/-- Both fill all their slots. -/
lemma topK_eq (h : Enabled B layer) (hagrees : Agrees B layer) : layer.topK = 8 := by
  obtain ⟨m, hholds, _⟩ := exists_holds (restBias_isSome layer)
  have hlength := (hagrees _ m _ hholds (aboveLowest_peak h 0)).length_eq
  rw [kernelSlots_length, ConfiguredLayer.slots, List.length_map, topkIds_length h] at hlength
  exact hlength.symm

/-- A zero expert stands out. -/
lemma zeroExperts_eq (hB : B.Shipped) (h : Enabled B layer) (hagrees : Agrees B layer) :
    layer.zeroExperts = 0 := by
  by_contra hzero
  obtain ⟨m, hholds, _⟩ := exists_holds (restBias_isSome layer)
  have hrow := aboveLowest_peak h layer.globalNumExperts
  have hwidth : layer.globalNumExperts < layer.width := by
    rw [ConfiguredLayer.width]
    omega
  have hselected := peak_mem_topkIds h hwidth
    fun hgroups => absurd (layer.groups_zeroExperts hzero) hgroups
  have hslot : ((0, 0) : ℕ × ℝ) ∈ layer.slots (restBias layer) (peak layer.globalNumExperts) m :=
    List.mem_map.mpr ⟨_, hselected, if_neg (lt_irrefl _)⟩
  exact lt_irrefl _ (kernelSlots_pos hB hrow _ ((hagrees _ m _ hholds hrow).mem_iff.mpr hslot))

/-- A map that moves a selected expert to one that phase 0 does not select. -/
lemma eplb_eq (hB : B.Shipped) (h : Enabled B layer) (hagrees : Agrees B layer) :
    layer.eplb = false := by
  have hexperts := numExperts_eq hB h hagrees
  by_contra heplb
  rw [Bool.not_eq_false] at heplb
  have hrow := aboveLowest_peak h 0
  have hx := peak_mem_topkIds h (layer.globalNumExperts_pos.trans_le le_width)
    fun _ => layer.globalNumExperts_pos
  -- phase 0 leaves out most experts
  obtain ⟨y, hy, hnew⟩ : ∃ y ∈ Finset.range 256,
      y ∉ ((kernelSlots B (restBias layer) (peak 0)).map Prod.fst).toFinset := by
    refine Finset.exists_mem_notMem_of_card_lt_card ?_
    refine (List.toFinset_card_le _).trans_lt ?_
    rw [List.length_map, kernelSlots_length, Finset.card_range]
    norm_num
  have hylt := Finset.mem_range.mp hy
  have hmaps : Set.MapsTo (Equiv.swap 0 y) (Set.Iio 256) (Set.Iio 256) := by
    intro z hz
    rw [Equiv.swap_apply_def]
    split_ifs
    · exact Set.mem_Iio.mpr hylt
    · exact Set.mem_Iio.mpr (by norm_num)
    · exact hz
  have hholds : layer.Holds (restBias layer) (some (Equiv.swap 0 y)) := by
    refine ⟨restBias_isSome layer, heplb.symm, ?_⟩
    rintro _ ⟨⟩
    rw [hexperts]
    exact ⟨hmaps, (Equiv.injective _).injOn, fun z hz =>
      ⟨Equiv.swap 0 y z, hmaps hz, Equiv.swap_apply_self 0 y z⟩⟩
  have hslot : (y, layer.topkWeight (restBias layer) (peak 0) 0) ∈
      layer.slots (restBias layer) (peak 0) (some (Equiv.swap 0 y)) := by
    refine List.mem_map.mpr ⟨0, hx, ?_⟩
    rw [if_pos layer.globalNumExperts_pos, Option.elim_some, Equiv.swap_apply_left]
  have hkernel := (hagrees _ _ _ hholds hrow).mem_iff.mpr hslot
  exact hnew (List.mem_toFinset.mpr (List.mem_map.mpr ⟨_, hkernel, rfl⟩))

/-- What agreement says about the experts. -/
lemma Agrees.plain (hB : B.Shipped) (h : Enabled B layer) (hagrees : Agrees B layer) :
    Plain B layer :=
  ⟨⟨h, numExperts_eq hB h hagrees, topK_eq h hagrees⟩, zeroExperts_eq hB h hagrees,
    eplb_eq hB h hagrees⟩

/-- The layer's router selects what phase 0 selects. -/
lemma refTopK_perm (hB : B.Shipped) (h : Plain B layer) (hagrees : Agrees B layer)
    (hbias : bias.isSome = layer.bias) (hrow : AboveLowest B realOps bias row) :
    (refTopK B realOps bias row).Perm (layer.topkIds bias row) := by
  have hperm := (hagrees _ _ row (h.holds hbias) hrow).map Prod.fst
  rw [kernelSlots_fst hB hrow, slots_eq h.zeroExperts, List.map_map] at hperm
  simpa only [Function.comp_def, List.map_id'] using hperm

/-! ### The weights -/

/-- All scores of a row of zeros are equal, and none is an eighth. -/
lemma scores_zero (h : Plain B layer) :
    ∃ c : ℝ, (c = 1 / 256 ∨ c = 1 / 2) ∧ layer.scores (fun _ => 0) = fun _ => c := by
  unfold ConfiguredLayer.scores
  split_ifs
  · refine ⟨1 / 256, Or.inl rfl, funext fun e => ?_⟩
    rw [Finset.sum_const, Finset.card_range, h.width_eq]
    norm_num
  · refine ⟨1 / 2, Or.inr rfl, funext fun e => ?_⟩
    norm_num

/-- A row of zeros is above the lowest value. -/
lemma aboveLowest_zero (h : Enabled B layer) (hbias : ∀ b ∈ bias, ∀ e, 0 ≤ b e) :
    AboveLowest B realOps bias fun _ => 0 :=
  aboveLowest_of_neg_one_le h (fun _ => by norm_num) hbias

/-- The selected scores add up to eight times their common value. -/
lemma sum_scores_of_forall {l : List ℕ} {c : ℝ} (hl : l.length = 8)
    (hc : ∀ e ∈ l, layer.scores row e = c) : (l.map (layer.scores row)).sum = 8 * c := by
  rw [List.map_congr_left hc, List.map_const', List.sum_replicate, hl, nsmul_eq_mul]
  norm_num

/-- On a row whose selected experts all have one score the kernel gives each slot an eighth. -/
lemma weight_of_forall (hB : B.Shipped) (h : Plain B layer) (hagrees : Agrees B layer)
    (hbias : bias.isSome = layer.bias) (hrow : AboveLowest B realOps bias row) {c : ℝ}
    (hle : 1 / 10 ^ 30 ≤ c) (hc : ∀ e ∈ refTopK B realOps bias row, layer.scores row e = c) :
    (if layer.renormalize then 1 / 8 else c) * (layer.routedScalingFactor : ℝ) = 1 / 8 := by
  have hpos : (0 : ℝ) < 1 / 10 ^ 30 := by norm_num
  have hc0 : c ≠ 0 := (hpos.trans_le hle).ne'
  have heighth : c / max (8 * c) (1 / 10 ^ 30) = 1 / 8 := by
    rw [max_eq_left (by linarith), div_mul_cancel_right₀ hc0, one_div]
  have hlength : (refTopK B realOps bias row).length = 8 := by
    rw [refTopK, length_topK (topK_le_length_candidates hB), B.topK_eq]
  have hids := refTopK_perm hB h hagrees hbias hrow
  obtain ⟨e, he⟩ : ∃ e, e ∈ refTopK B realOps bias row :=
    List.exists_mem_of_length_pos (by omega)
  -- some slot of the layer's router has the weight of the kernel's slot of `e`
  have hperm := (hagrees _ _ _ (h.holds hbias) hrow).map Prod.snd
  rw [kernelSlots_eq hB h.toFits h.zeroExperts hrow, slots_eq h.zeroExperts, List.map_map,
    List.map_map] at hperm
  obtain ⟨e', he', heq⟩ := List.mem_map.mp (hperm.mem_iff.mp (List.mem_map.mpr ⟨e, he, rfl⟩))
  have hc' : ∀ x ∈ layer.topkIds bias row, layer.scores row x = c :=
    fun x hx => hc x (hids.mem_iff.mpr hx)
  have hlength' := hids.length_eq.symm.trans hlength
  simp only [Function.comp_apply, ConfiguredLayer.topkWeight, hc e he, hc' e' he',
    sum_scores_of_forall hlength hc, sum_scores_of_forall hlength' hc', heighth] at heq
  exact heq

/-- A row whose first eight logits stand out. -/
def heads (e : ℕ) : ℝ := if e < 8 then 1 else -1

/-- A softmax build selects the experts that stand out. -/
lemma lt_of_mem_refTopK_heads (hmode : B.routerMode = 0) {e : ℕ}
    (he : e ∈ refTopK B realOps bias heads) : e < 8 := by
  rw [refTopK_ungrouped hmode] at he
  refine of_decide_eq_true (forall_mem_topK (p := fun e => decide (e < 8)) List.nodup_range
    (fun a b hab hb => decide_eq_true ?_) (by decide) e he)
  by_contra ha
  have hle := hab.le
  rw [heads, heads, if_pos (of_decide_eq_true hb), if_neg ha] at hle
  norm_num at hle

/-- Under softmax the experts that stand out share more than their part. -/
lemma scores_heads (h : Plain B layer) (hsoftmax : layer.scoringFunc = .softmax) :
    ∃ c, 1 / 256 < c ∧ ∀ e < 8, layer.scores heads e = c := by
  refine ⟨Real.exp 1 / ∑ i ∈ Finset.range layer.width, Real.exp (heads i), ?_, fun e he => ?_⟩
  · have hlt : ∑ i ∈ Finset.range layer.width, Real.exp (heads i) <
        ∑ _i ∈ Finset.range layer.width, Real.exp 1 := by
      refine Finset.sum_lt_sum (fun i _ => Real.exp_le_exp.mpr ?_) ⟨8, ?_, Real.exp_lt_exp.mpr ?_⟩
      · unfold heads
        split_ifs <;> norm_num
      · rw [Finset.mem_range, h.width_eq]
        norm_num
      · norm_num [heads]
    rw [Finset.sum_const, Finset.card_range, h.width_eq, nsmul_eq_mul, Nat.cast_ofNat] at hlt
    rw [div_lt_div_iff₀ (by norm_num) (h.width_eq ▸ sum_exp_pos layer heads), one_mul, h.width_eq]
    linarith
  · rw [ConfiguredLayer.scores, if_pos hsoftmax, heads, if_pos he]

/-- A row on which the selected experts have another score than on a row of zeros. -/
lemma exists_scores_ne (h : Plain B layer) {c₀ : ℝ}
    (hc₀ : layer.scores (fun _ => 0) = fun _ => c₀) : ∃ row c,
      AboveLowest B realOps (restBias layer) row ∧ 1 / 10 ^ 30 ≤ c ∧ c ≠ c₀ ∧
        ∀ e ∈ refTopK B realOps (restBias layer) row, layer.scores row e = c := by
  by_cases hmode : B.routerMode = 0
  · obtain ⟨c, hlt, hc⟩ := scores_heads h (h.softmax hmode)
    have hzero : c₀ = 1 / 256 := by
      rw [← congrFun hc₀ 0, ConfiguredLayer.scores, if_pos (h.softmax hmode), Finset.sum_const,
        Finset.card_range, h.width_eq]
      norm_num
    refine ⟨heads, c, aboveLowest_of_neg_one_le h.toEnabled (fun e => ?_) (restBias_nonneg layer),
      le_trans (by norm_num) hlt.le, ?_, fun e he => hc e (lt_of_mem_refTopK_heads hmode he)⟩
    · unfold heads
      split_ifs <;> norm_num
    · rw [hzero]
      exact hlt.ne'
  · -- a sigmoid router gives each logit a score of its own
    have hne : layer.scoringFunc ≠ .softmax := by
      rw [(h.sigmoid hmode).1]
      decide
    have hscore : ∀ x e, layer.scores (fun _ => x) e = 1 / (1 + Real.exp (-x)) := fun x e => by
      rw [ConfiguredLayer.scores, if_neg hne]
    refine ⟨fun _ => 1, 1 / (1 + Real.exp (-1)),
      aboveLowest_of_neg_one_le h.toEnabled (fun _ => by norm_num) (restBias_nonneg layer), ?_, ?_,
      fun e _ => hscore 1 e⟩
    · have hexp : Real.exp (-1) < Real.exp 0 := Real.exp_lt_exp.mpr (by norm_num)
      rw [Real.exp_zero] at hexp
      rw [div_le_div_iff₀ (by norm_num) (by positivity)]
      linarith
    · rw [← congrFun hc₀ 0, hscore 0]
      refine (one_div_lt_one_div_of_lt (by positivity) (add_lt_add_right ?_ 1)).ne'
      exact Real.exp_lt_exp.mpr (by norm_num)

/-- The kernel renormalizes and scales by nothing. -/
lemma weights_eq (hB : B.Shipped) (h : Plain B layer) (hagrees : Agrees B layer) :
    layer.renormalize = true ∧ layer.routedScalingFactor = 1 := by
  obtain ⟨c₀, hvalue, hc₀⟩ := scores_zero h
  have hle : 1 / 10 ^ 30 ≤ c₀ := by
    rcases hvalue with rfl | rfl <;> norm_num
  have hzero := weight_of_forall hB h hagrees (restBias_isSome layer)
    (aboveLowest_zero h.toEnabled (restBias_nonneg layer)) hle fun e _ => congrFun hc₀ e
  obtain ⟨row, c, hrow, hle', hne, hc⟩ := exists_scores_ne h hc₀
  have hother := weight_of_forall hB h hagrees (restBias_isSome layer) hrow hle' hc
  cases hrenorm : layer.renormalize with
  | false =>
    -- then the factor would make up for two different sums
    rw [hrenorm, if_neg Bool.false_ne_true] at hzero hother
    have hfactor : (layer.routedScalingFactor : ℝ) ≠ 0 := by
      rintro hfactor
      rw [hfactor, mul_zero] at hzero
      norm_num at hzero
    exact absurd (mul_right_cancel₀ hfactor (hother.trans hzero.symm)) hne
  | true =>
    rw [hrenorm, if_pos rfl] at hzero
    have hfactor : (layer.routedScalingFactor : ℝ) = 1 := by linarith
    exact ⟨rfl, by exact_mod_cast hfactor⟩

/-! ### The bias and the groups -/

/-- A biased expert that a softmax build does not see. -/
lemma bias_eq (hB : B.Shipped) (h : Plain B layer) (hagrees : Agrees B layer)
    (hmode : B.routerMode = 0) : layer.bias = false := by
  by_contra hbias
  rw [Bool.not_eq_false] at hbias
  obtain ⟨c, hc, hscores⟩ := scores_zero h
  have hcpos : 0 < c ∧ c < 1 := by
    rcases hc with rfl | rfl <;> norm_num
  let b : ℕ → ℝ := fun e => if e = 255 then 3 else 0
  have hb : ∀ e, 0 ≤ b e := by
    intro e
    dsimp only [b]
    split_ifs <;> norm_num
  have hchoice : layer.choiceScores (some b) (fun _ => 0) = fun e => c + b e := funext fun e => by
    rw [ConfiguredLayer.choiceScores, hscores, Option.elim_some]
  have hrow : AboveLowest B realOps (some b) fun _ => 0 := by
    refine aboveLowest_zero h.toEnabled ?_
    rintro _ ⟨⟩
    exact hb
  have hlast : b 255 = 3 := if_pos rfl
  have hother : ∀ {x}, x ≠ 255 → b x = 0 := fun hx => if_neg hx
  have hin : 255 < layer.globalNumExperts := by
    rw [h.numExperts]
    norm_num
  have hselected : 255 ∈ layer.topkIds (some b) fun _ => 0 := by
    refine mem_topkIds_of_best h.toEnabled (hin.trans_le le_width) (fun x _ hx => ?_)
      fun n g hgroups => ⟨hin, ?_⟩
    · rw [hchoice]
      simp [b, hx]
    · rw [hchoice, Option.isSome_some, if_pos rfl]
      refine mem_keptGroups_of_pairs (group_pos h.toEnabled hgroups).1
        (layer.two_le hbias _ hgroups) (fun e => add_nonneg hcpos.1.le (hb e))
        (hin.trans_eq (size_mul hgroups).symm) fun x y hxy hne _ => ?_
      have hx : x ≠ 255 := fun heq => hne (by rw [heq])
      have hy : y ≠ 255 := fun heq => hne (by rw [hxy, heq])
      rw [hother hx, hother hy, hlast]
      linarith [hcpos.1, hcpos.2]
  have hsome : (some b).isSome = layer.bias := hbias.symm
  have hkernel := (refTopK_perm hB h hagrees hsome hrow).mem_iff.mpr hselected
  rw [refTopK_ungrouped hmode] at hkernel
  -- the nine first experts rank before the last one
  have hcard := card_le_of_mem_topK List.nodup_range hkernel (Finset.range 9) fun x hx => by
    have hx := Finset.mem_range.mp hx
    exact ⟨List.mem_range.mpr (by omega), Or.inr ⟨rfl, by omega⟩⟩
  rw [Finset.card_range] at hcard
  omega

/-- A row whose best experts lie in more groups than are kept. -/
lemma min_le_topkGroup (hB : B.Shipped) (h : Plain B layer) (hagrees : Agrees B layer)
    (hmode : B.routerMode = 0) {n g : ℕ} (hgroups : layer.groups = some (n, g)) :
    min 8 n ≤ g := by
  have hbias := bias_eq hB h hagrees hmode
  have hsize := size_mul hgroups
  have hpos := (group_pos h.toEnabled hgroups).2
  rw [h.numExperts] at hsize hpos
  by_contra hlt
  rw [not_le] at hlt
  obtain ⟨hlt8, hltn⟩ := lt_min_iff.mp hlt
  -- the first expert of each of `g + 1` groups
  let heads : Finset ℕ := (Finset.range (g + 1)).image (256 / n * ·)
  let row : ℕ → ℝ := fun e => if e ∈ heads then 1 else 0
  have hrow : AboveLowest B realOps none row := by
    refine aboveLowest_of_neg_one_le h.toEnabled (fun e => ?_) (by rintro _ ⟨⟩)
    dsimp only [row]
    split_ifs <;> norm_num
  have hheads : heads.card ≤ 8 := by
    refine Finset.card_image_le.trans ?_
    rw [Finset.card_range]
    exact hlt8
  have hkept : Finset.range (g + 1) ⊆
      (keptGroups (layer.choiceScores none row) 1 (256 / n) n g).toFinset := by
    intro j hj
    have hjlt := Finset.mem_range.mp hj
    have hhead : 256 / n * j ∈ heads := Finset.mem_image.mpr ⟨j, hj, rfl⟩
    have hin : 256 / n * j < 256 := by
      have hlt : 256 / n * j < 256 / n * n := Nat.mul_lt_mul_of_pos_left (by omega) hpos
      exact hlt.trans_eq hsize
    have hkernel : 256 / n * j ∈ refTopK B realOps none row := by
      rw [refTopK_ungrouped hmode]
      refine mem_topK_of_card_le List.nodup_range (List.mem_range.mpr hin) heads
        (fun x _ hle => ?_) hheads
      by_contra hx
      have hle := hle.le
      simp only [row, if_pos hhead, if_neg hx] at hle
      norm_num at hle
    have hnone : (none : Option (ℕ → ℝ)).isSome = layer.bias := hbias.symm
    have hselected := (refTopK_perm hB h hagrees hnone hrow).mem_iff.mp hkernel
    rw [topkIds_grouped hgroups, Option.isSome_none, if_neg Bool.false_ne_true, h.numExperts]
      at hselected
    have hown := (mem_of_mem_groupedTopK hselected).2
    rw [Nat.mul_div_cancel_left j hpos] at hown
    exact List.mem_toFinset.mpr hown
  have hcard := (Finset.card_le_card hkept).trans (List.toFinset_card_le _)
  have := hcard.trans length_topK_le
  rw [Finset.card_range] at this
  omega

/-! ### The contested row

Eight experts stand out, two in every other group of 32, and expert 32 beats each of them without a
strong second in its group.  The grouped build selects the eight and drops expert 32. -/

/-- The two experts that stand out in every other group of 32. -/
def Prominent (e : ℕ) : Prop := e % 64 = 0 ∨ e % 64 = 16

instance : DecidablePred Prominent := fun _ => inferInstanceAs (Decidable (_ ∨ _))

/-- The correction bias of the contested row. -/
noncomputable def contestedBias (e : ℕ) : ℝ := if Prominent e then 11 else if e = 32 then 21 else 0

section Contested

variable {s : ℕ → ℝ} {c : ℝ}

/-- The bias of the prominent experts. -/
lemma contestedBias_of_prominent {e : ℕ} (he : Prominent e) : contestedBias e = 11 := if_pos he

/-- The bias of the expert that only a router without groups selects. -/
lemma contestedBias_contested : contestedBias 32 = 21 := by
  have hnot : ¬ Prominent 32 := by decide
  rw [contestedBias, if_neg hnot, if_pos rfl]

/-- All other experts have none. -/
lemma contestedBias_of_not {e : ℕ} (he : ¬ Prominent e) (hne : e ≠ 32) : contestedBias e = 0 := by
  rw [contestedBias, if_neg he, if_neg hne]

/-- The bias is not negative. -/
lemma contestedBias_nonneg (e : ℕ) : 0 ≤ contestedBias e := by
  unfold contestedBias
  split_ifs <;> norm_num

/-- The bias is bounded. -/
lemma contestedBias_le (e : ℕ) : contestedBias e ≤ 21 := by
  unfold contestedBias
  split_ifs <;> norm_num

/-- A group with prominent experts is better than one without. -/
lemma topSum_lt_topSum (hs : ∀ e, s e = c + contestedBias e) {i j : ℕ} (hi : i % 2 = 1)
    (hj : j % 2 = 0) : topSum s 2 (group 32 i) < topSum s 2 (group 32 j) := by
  have hle : topSum s 2 (group 32 i) ≤ 21 + 2 * c := by
    refine topSum_two_le (nodup_group _ _) (by rw [length_group]; norm_num) fun a ha b hb hne => ?_
    rw [mem_group (by norm_num)] at ha hb
    have hnot : ∀ {x}, x / 32 = i → ¬ Prominent x := by
      intro x hx
      unfold Prominent
      omega
    rw [hs, hs]
    by_cases ha32 : a = 32
    · rw [contestedBias_of_not (hnot hb) (fun h => hne (ha32.trans h.symm))]
      have := contestedBias_le a
      linarith
    · rw [contestedBias_of_not (hnot ha) ha32]
      have := contestedBias_le b
      linarith
  have hge : s (32 * j) + s (32 * j + 16) ≤ topSum s 2 (group 32 j) :=
    le_topSum_two (nodup_group _ _) ((mem_group (by norm_num)).mpr (by omega))
      ((mem_group (by norm_num)).mpr (by omega)) (by omega)
  rw [hs, hs, contestedBias_of_prominent (Or.inl (by omega)),
    contestedBias_of_prominent (Or.inr (by omega))] at hge
  linarith

/-- The group of the contested expert is better than those without an expert that stands out. -/
lemma topSum_lt_contested (hs : ∀ e, s e = c + contestedBias e) {j : ℕ} (hodd : j % 2 = 1)
    (hne : j ≠ 1) : topSum s 2 (group 32 j) < topSum s 2 (group 32 1) := by
  have hle : topSum s 2 (group 32 j) ≤ 2 * c := by
    refine topSum_two_le (nodup_group _ _) (by rw [length_group]; norm_num) fun a ha b hb _ => ?_
    rw [mem_group (by norm_num)] at ha hb
    have hrest : ∀ {x}, x / 32 = j → contestedBias x = 0 := by
      intro x hx
      refine contestedBias_of_not ?_ (by omega)
      unfold Prominent
      omega
    rw [hs, hs, hrest ha, hrest hb]
    linarith
  have hge : s 32 + s 33 ≤ topSum s 2 (group 32 1) :=
    le_topSum_two (nodup_group _ _) ((mem_group (by norm_num)).mpr rfl)
      ((mem_group (by norm_num)).mpr rfl) (by norm_num)
  have := contestedBias_nonneg 33
  rw [hs, hs, contestedBias_contested] at hge
  linarith

/-- The grouped build keeps the groups with prominent experts. -/
lemma mem_keptGroups_contested (hs : ∀ e, s e = c + contestedBias e) {j : ℕ} (hj : j < 8) :
    j ∈ keptGroups s 2 32 8 4 ↔ j % 2 = 0 := by
  constructor
  · intro hkept
    by_contra hodd
    have hcard := card_le_of_mem_topK List.nodup_range hkept {0, 2, 4, 6, j} fun x hx => by
      simp only [Finset.mem_insert, Finset.mem_singleton] at hx
      rcases Nat.mod_two_eq_zero_or_one x with heven | hx'
      · exact ⟨List.mem_range.mpr (by omega), Or.inl (topSum_lt_topSum hs (by omega) heven)⟩
      · obtain rfl : x = j := by omega
        exact ⟨List.mem_range.mpr hj, Ranks.refl _⟩
    have hfive : ({0, 2, 4, 6, j} : Finset ℕ).card = 5 := by
      interval_cases j <;> simp_all
    omega
  · intro heven
    refine mem_topK_of_card_le List.nodup_range (List.mem_range.mpr hj) {0, 2, 4, 6}
      (fun x hx hle => ?_) (by decide)
    have hx := List.mem_range.mp hx
    have hxeven : x % 2 = 0 := by
      by_contra hodd
      exact absurd hle.le (not_le.mpr (topSum_lt_topSum hs (by omega) heven))
    simp only [Finset.mem_insert, Finset.mem_singleton]
    omega

/-- The grouped build selects the prominent experts. -/
lemma mem_groupedTopK_contested (hs : ∀ e, s e = c + contestedBias e) {e : ℕ} (he : e < 256)
    (hprominent : Prominent e) : e ∈ groupedTopK s 2 32 8 4 8 := by
  have hgroup : e / 32 ∈ keptGroups s 2 32 8 4 := by
    rw [mem_keptGroups_contested hs (by omega)]
    unfold Prominent at hprominent
    omega
  refine mem_groupedTopK he hgroup ((Finset.range 256).filter Prominent)
    (fun x hx hkept hle => Finset.mem_filter.mpr ⟨Finset.mem_range.mpr hx, ?_⟩) (by decide)
  by_contra hnot
  have hle := hle.le
  rw [hs, hs, contestedBias_of_prominent hprominent] at hle
  by_cases hx32 : x = 32
  · subst hx32
    rw [mem_keptGroups_contested hs (by norm_num)] at hkept
    omega
  · rw [contestedBias_of_not hnot hx32] at hle
    linarith

/-- The contested expert beats every other one. -/
lemma lt_contested (hs : ∀ e, s e = c + contestedBias e) {x : ℕ} (hx : x ≠ 32) : s x < s 32 := by
  rw [hs, hs, contestedBias_contested]
  by_cases hp : Prominent x
  · rw [contestedBias_of_prominent hp]
    linarith
  · rw [contestedBias_of_not hp hx]
    linarith

/-- The groups of two or more experts are wider than those of the grouped build, the same, or too
narrow for two prominent experts. -/
lemma group_sizes {n : ℕ} (hdvd : n ∣ 256) (htwo : 2 ≤ 256 / n) :
    64 ≤ 256 / n ∨ n = 8 ∨ 256 / n ≤ 16 := by
  have hpow : n ∣ 2 ^ 8 := hdvd
  obtain ⟨i, hi, rfl⟩ := (Nat.dvd_prime_pow Nat.prime_two).mp hpow
  interval_cases i <;> omega

/-- A narrow group has one prominent expert at most. -/
lemma eq_of_prominent {size a b : ℕ} (hpos : 0 < size) (hsize : size ≤ 16)
    (hab : a / size = b / size) (ha : Prominent a) (hb : Prominent b) : a = b := by
  have hdiva := Nat.div_add_mod a size
  have hdivb := Nat.div_add_mod b size
  have hmoda := Nat.mod_lt a hpos
  have hmodb := Nat.mod_lt b hpos
  rw [hab] at hdiva
  unfold Prominent at ha hb
  omega

/-- Among narrow groups the one of the contested expert is the best. -/
lemma mem_keptGroups_of_narrow (hs : ∀ e, s e = c + contestedBias e) (hc : 0 ≤ c) (hc' : c ≤ 1)
    {size n g : ℕ} (hg : 0 < g) (htwo : 2 ≤ size) (hnarrow : size ≤ 16) (hn : 32 < size * n) :
    32 / size ∈ keptGroups s 2 size n g := by
  have hspos : ∀ e, 0 ≤ s e := fun e => by
    rw [hs]
    exact add_nonneg hc (contestedBias_nonneg e)
  refine mem_keptGroups_of_pairs hg htwo hspos hn fun a b hab hne hdistinct => ?_
  have ha : a ≠ 32 := fun heq => hne (by rw [heq])
  have hb : b ≠ 32 := fun heq => hne (by rw [hab, heq])
  rw [hs, hs, hs, contestedBias_contested]
  by_cases hpa : Prominent a
  · have hpb : ¬ Prominent b := fun hpb =>
      hdistinct (eq_of_prominent (by omega) hnarrow hab hpa hpb)
    rw [contestedBias_of_prominent hpa, contestedBias_of_not hpb hb]
    linarith
  · rw [contestedBias_of_not hpa ha]
    have hle : contestedBias b ≤ 11 := by
      by_cases hpb : Prominent b
      · exact (contestedBias_of_prominent hpb).le
      · rw [contestedBias_of_not hpb hb]
        norm_num
    linarith

/-- Among the groups of the grouped build that of the contested expert comes fifth. -/
lemma topkGroup_eq_four (hs : ∀ e, s e = c + contestedBias e) {g : ℕ}
    (hkept : ∀ j < 8, j % 2 = 0 → j ∈ keptGroups s 2 32 8 g) (hleft : 1 ∉ keptGroups s 2 32 8 g) :
    g = 4 := by
  refine le_antisymm (not_lt.mp fun hlt => hleft ?_) ?_
  · -- only the groups with prominent experts come before it
    refine mem_topK_of_card_le List.nodup_range (List.mem_range.mpr (by norm_num))
      {0, 1, 2, 4, 6} (fun j hj hle => ?_) (le_trans (by decide) hlt)
    have hj := List.mem_range.mp hj
    by_contra hother
    have hodd : j % 2 = 1 ∧ j ≠ 1 := by
      simp only [Finset.mem_insert, Finset.mem_singleton] at hother
      omega
    exact absurd hle.le (not_le.mpr (topSum_lt_contested hs hodd.1 hodd.2))
  · have hfour : ({0, 2, 4, 6} : Finset ℕ) ⊆ (keptGroups s 2 32 8 g).toFinset := by
      intro j hj
      simp only [Finset.mem_insert, Finset.mem_singleton] at hj
      exact List.mem_toFinset.mpr (hkept j (by omega) (by omega))
    have hcard := (Finset.card_le_card hfour).trans (List.toFinset_card_le _)
    exact hcard.trans length_topK_le

/-- Groups that keep every prominent expert and drop the contested one are eight, and four of them
are kept. -/
lemma eq_of_contested (hs : ∀ e, s e = c + contestedBias e) (hc : 0 ≤ c) (hc' : c ≤ 1) {n g : ℕ}
    (hsize : 256 / n * n = 256) (hg : 0 < g) (htwo : 2 ≤ 256 / n)
    (hkept : ∀ e < 256, Prominent e → e / (256 / n) ∈ keptGroups s 2 (256 / n) n g)
    (hleft : 32 / (256 / n) ∉ keptGroups s 2 (256 / n) n g) : n = 8 ∧ g = 4 := by
  rcases group_sizes (Dvd.intro_left _ hsize) htwo with hwide | rfl | hnarrow
  · -- the contested expert shares the group of a prominent one
    have hsame : 32 / (256 / n) = 0 / (256 / n) := by
      rw [Nat.div_eq_of_lt (show 32 < 256 / n by omega), Nat.zero_div]
    exact absurd (hsame ▸ hkept 0 (by norm_num) (Or.inl rfl)) hleft
  · refine ⟨rfl, topkGroup_eq_four hs (fun j hj heven => ?_) hleft⟩
    have hmem := hkept (32 * j) (by omega) (Or.inl (by omega))
    rwa [show 32 * j / (256 / 8) = j by omega] at hmem
  · exact absurd (mem_keptGroups_of_narrow hs hc hc' hg htwo hnarrow (by omega)) hleft

end Contested

/-- Only the groups of the grouped build settle the contested row its way. -/
lemma groups_eq (hB : B.Shipped) (h : Plain B layer) (hagrees : Agrees B layer)
    (hmode : B.routerMode ≠ 0) : layer.groups = some (8, 4) := by
  have hbias := (h.sigmoid hmode).2
  obtain ⟨c, hc, hscores⟩ := scores_zero h
  have hcpos : 0 < c ∧ c < 1 := by
    rcases hc with rfl | rfl <;> norm_num
  let s : ℕ → ℝ := layer.choiceScores (some contestedBias) fun _ => 0
  have hs : ∀ e, s e = c + contestedBias e := fun e => by
    rw [← congrFun hscores e]
    rfl
  have hrow : AboveLowest B realOps (some contestedBias) fun _ => 0 := by
    refine aboveLowest_zero h.toEnabled ?_
    rintro _ ⟨⟩
    exact contestedBias_nonneg
  have hsome : (some contestedBias).isSome = layer.bias := hbias.symm
  have hperm := refTopK_perm hB h hagrees hsome hrow
  rw [refTopK_grouped hB h.toEnabled hmode] at hperm
  -- the layer selects the prominent experts and drops the contested one
  have hprominent : ∀ e < 256, Prominent e → e ∈ layer.topkIds (some contestedBias) fun _ => 0 :=
    fun e he hp => hperm.mem_iff.mp (mem_groupedTopK_contested hs he hp)
  have hdropped : 32 ∉ layer.topkIds (some contestedBias) fun _ => 0 := by
    intro hselected
    have hkept := (mem_of_mem_groupedTopK (hperm.mem_iff.mpr hselected)).2
    exact absurd ((mem_keptGroups_contested hs (by norm_num)).mp hkept) (by norm_num)
  have hin : 32 < layer.globalNumExperts := by
    rw [h.numExperts]
    norm_num
  have hbest : ∀ x < layer.width, x ≠ 32 → s x < s 32 := fun x _ hx => lt_contested hs hx
  cases hgroups : layer.groups with
  | none =>
    refine absurd (mem_topkIds_of_best h.toEnabled (hin.trans_le le_width) hbest
      fun n g hng => ?_) hdropped
    rw [hgroups] at hng
    cases hng
  | some ng =>
    obtain ⟨n, g⟩ := ng
    have hsize := size_mul hgroups
    have htwo := layer.two_le hbias _ hgroups
    have hselected : ∀ e < 256, Prominent e →
        e / (layer.globalNumExperts / n) ∈ keptGroups s 2 (layer.globalNumExperts / n) n g := by
      intro e he hp
      have hmem := hprominent e he hp
      rw [topkIds_grouped hgroups] at hmem
      exact (mem_of_mem_groupedTopK hmem).2
    have hleft : 32 / (layer.globalNumExperts / n) ∉
        keptGroups s 2 (layer.globalNumExperts / n) n g := by
      intro hkept
      refine hdropped (mem_topkIds_of_best h.toEnabled (hin.trans_le le_width) hbest
        fun n' g' hng => ⟨hin, ?_⟩)
      rw [hgroups] at hng
      cases hng
      exact hkept
    rw [h.numExperts] at hsize htwo hselected hleft
    obtain ⟨rfl, rfl⟩ := eq_of_contested hs hcpos.1.le hcpos.2.le hsize
      (group_pos h.toEnabled hgroups).1 htwo hselected hleft
    rfl

/-! ## The gate -/

variable {selectExperts : SelectExperts}

/-- When the gate is sound, phase 0 fills the slots as the router of the layer does. -/
lemma Sound.agrees (h : Enabled B layer) (hrouter : layer.RoutesBy selectExperts)
    (hsound : Sound B layer selectExperts) : Agrees B layer :=
  fun bias m row hholds hrow => (hsound.routing bias m row hholds hrow).trans
    (hrouter h.scoringFunc_ne bias m row hholds)

/-- A layer that the kernel computes has the compiled options. -/
lemma Sound.compiledOptions (hB : B.Shipped) (h : Enabled B layer)
    (hrouter : layer.RoutesBy selectExperts) (hsound : Sound B layer selectExperts) :
    CompiledOptions B layer := by
  have hagrees := hsound.agrees h hrouter
  have hplain := hagrees.plain hB h
  have hexperts := hsound.experts
  simp only [ConfiguredLayer.expertOptions, ConfiguredLayer.getFusedMoeQuantConfig,
    kernelExpertOptions, ExpertOptions.mk.injEq, FusedMoEQuantConfig.mk.injEq] at hexperts
  obtain ⟨hactivation, ⟨hlimit, halpha, hbeta, hw13, hw2⟩, hinput⟩ := hexperts
  refine ⟨hactivation, hlimit, halpha, hbeta, fun hbias => ?_, hinput,
    hplain.numExperts.trans B.numExperts_eq.symm, hplain.topK.trans B.topK_eq.symm,
    (weights_eq hB hplain hagrees).1, (weights_eq hB hplain hagrees).2, hplain.eplb,
    hplain.zeroExperts,
    fun hmode => ⟨bias_eq hB hplain hagrees hmode, fun ng hgroups => ?_⟩, fun hmode => ?_⟩
  · rw [hbias, Bool.true_and] at hw13 hw2
    exact ⟨hw13, hw2⟩
  · rw [B.topK_eq]
    exact min_le_topkGroup hB hplain hagrees hmode hgroups
  · rw [groups_eq hB hplain hagrees (by omega), hB.topkGroup_eq]
    rcases hB with rfl | rfl | rfl <;> rfl

/-- The kernel computes a layer with the compiled options. -/
lemma CompiledOptions.sound (hB : B.Shipped) (h : Enabled B layer)
    (hrouter : layer.RoutesBy selectExperts) (hopts : CompiledOptions B layer) :
    Sound B layer selectExperts := by
  constructor
  · have hw13 : (layer.hasBias && layer.w13Bias) = false := by
      cases hbias : layer.hasBias with
      | false => rfl
      | true => exact (hopts.biases hbias).1
    have hw2 : (layer.hasBias && layer.w2Bias) = false := by
      cases hbias : layer.hasBias with
      | false => rfl
      | true => exact (hopts.biases hbias).2
    simp only [ConfiguredLayer.expertOptions, ConfiguredLayer.getFusedMoeQuantConfig,
      kernelExpertOptions, hopts.activation, hopts.swigluLimit, hopts.swigluAlpha,
      hopts.swigluBeta, hw13, hw2, hopts.weightOnOutput]
  · intro bias m row hholds hrow
    rw [RoutesRow, slots_eq_kernelSlots hB h hopts hholds hrow]
    exact (hrouter h.scoringFunc_ne bias m row hholds).symm

/-- A softmax build with the compiled options routes a row as the layer does only if at least
`TOP_K` of its logits are above `-FLT_MAX`. -/
lemma RoutesRow.aboveLowest (h : Enabled B layer) (hopts : CompiledOptions B layer)
    (hrouter : layer.RoutesBy selectExperts) (hmode : B.routerMode = 0)
    {logicalToPhysical : Option (ℕ → ℕ)} (hholds : layer.Holds bias logicalToPhysical)
    (hroutes : RoutesRow B selectExperts bias logicalToPhysical row) :
    AboveLowest B realOps bias row := by
  have hplain := hopts.plain h
  obtain rfl : logicalToPhysical = none := by
    have heplb := hholds.eplb
    rw [hopts.eplb] at heplb
    exact Option.isSome_eq_false_iff.mp heplb |> Option.isNone_iff_eq_none.mp
  have hperm := hroutes.trans (hrouter h.scoringFunc_ne bias none row hholds)
  rw [slots_eq hplain.zeroExperts] at hperm
  -- the layer's router selects experts for all slots
  refine aboveLowest_of_winner_lt realOps_ordered hmode fun k hk => ?_
  have hslot : ((winner B realOps bias row k 0).bidx, slotWeight B realOps bias row k) ∈
      kernelSlots B bias row := List.mem_map.mpr ⟨k, List.mem_range.mpr hk, rfl⟩
  obtain ⟨e, he, heq⟩ := List.mem_map.mp (hperm.mem_iff.mp hslot)
  have hid : e = (winner B realOps bias row k 0).bidx := congrArg Prod.fst heq
  rw [← hid]
  exact ((lt_width_of_mem_topkIds he).trans_eq hplain.width_eq).trans_eq B.numExperts_eq.symm

/-- A layer that the gate enables is computed as it is configured exactly when it has the options
that the kernel has compiled in.  With these options a softmax build routes exactly the rows that
have at least `TOP_K` logits above `-FLT_MAX`, and a grouped build every row unless a bias is below
`-FLT_MAX / 2`. -/
theorem gate_sound_iff (hB : B.Shipped) {useMonokernel : Bool} {geo : Geometry}
    (hreport : geo.routerMode = some (B.routerMode : ℤ))
    (hgate : loadGate useMonokernel (some geo) layer.toMoELayer = true)
    (hrouter : layer.RoutesBy selectExperts) :
    (Sound B layer selectExperts ↔ CompiledOptions B layer) ∧
      (CompiledOptions B layer → ∀ bias logicalToPhysical row,
        layer.Holds bias logicalToPhysical →
          (B.routerMode = 0 → (RoutesRow B selectExperts bias logicalToPhysical row ↔
            B.topK ≤ (aboveLowest B realOps bias row).card)) ∧
          (B.routerMode = 2 → (∀ b ∈ bias, ∀ e < B.numExperts, realOps.lowest / 2 ≤ b e) →
            RoutesRow B selectExperts bias logicalToPhysical row)) := by
  have h := enabled_of_loadGate hB hreport hgate
  refine ⟨⟨Sound.compiledOptions hB h hrouter, CompiledOptions.sound hB h hrouter⟩,
    fun hopts bias m row hholds => ⟨fun hmode => ⟨fun hroutes => ?_, fun henough => ?_⟩,
      fun hmode hbias => ?_⟩⟩
  · exact (hroutes.aboveLowest h hopts hrouter hmode hholds).enough
  · refine (hopts.sound hB h hrouter).routing bias m row hholds ⟨henough, ?_, ?_⟩ <;>
      exact fun hgrouped => by omega
  · exact (hopts.sound hB h hrouter).routing bias m row hholds
      (aboveLowest_of_bias h (by omega) hbias)

end Proofs

section Examples

/-- `prefill_monokernel_geometry()` for a binary built from this source.  Only the expert-parallel
source has the symbols of the local experts. -/
def Build.geometry (B : Build) : Geometry where
  numExperts := some B.numExperts
  numExpertsLocal := if B.epBuild then some B.eLocal else none
  epCapable := if B.epBuild then some 1 else none
  topK := some B.topK
  kDim := some B.kDim
  hDim := some B.hDim
  nUp := some B.nUp
  nHalf := some B.nHalf
  routerMode := some B.routerMode
  fusedRenorm := some 1
  hasRouterEntry := true

/-- A router that fills its slots in the order of the options. -/
noncomputable def ConfiguredLayer.orderedRouter (layer : ConfiguredLayer) : SelectExperts :=
  fun bias logicalToPhysical row => layer.slots bias row logicalToPhysical

/-- The router in the order of the scores is one that the layer may have. -/
lemma ConfiguredLayer.orderedRouter_routesBy (layer : ConfiguredLayer) :
    layer.RoutesBy layer.orderedRouter := fun _ _ _ _ _ => List.Perm.rfl

/-- A DeepSeek-V3 layer on one of eight ranks. -/
def deepseekLayer : ConfiguredLayer where
  toMoELayer :=
    { qwenLayer with
      nUp := 512
      kDim := 7168
      hDim := 7168
      nHalf := 256
      scoringFunc := .sigmoid
      bias := true }
  activation := .silu
  swigluLimit := none
  swigluAlpha := none
  swigluBeta := none
  hasBias := false
  w13Bias := false
  w2Bias := false
  applyRouterWeightOnInput := false
  groups := some (8, 4)
  eplb := false
  zeroExperts := 0
  routedScalingFactor := 1
  topK_le := by decide
  groups_dvd := by rintro _ ⟨⟩; decide
  topkGroup_le := by rintro _ ⟨⟩; decide
  topK_le_kept := by rintro _ ⟨⟩; decide
  two_le := by rintro _ _ ⟨⟩; decide
  groups_zeroExperts h := absurd rfl h

/-- The layer and its own binary. -/
theorem gate_sound_iff_deepseekLayer :
    loadGate true (some deepseekTP.geometry) deepseekLayer.toMoELayer = true ∧
      Sound deepseekTP deepseekLayer deepseekLayer.orderedRouter := by
  have hgate : loadGate true (some deepseekTP.geometry) deepseekLayer.toMoELayer = true := by
    decide
  refine ⟨hgate,
    (gate_sound_iff (Or.inl rfl) rfl hgate deepseekLayer.orderedRouter_routesBy).1.mpr ?_⟩
  exact ⟨rfl, rfl, rfl, rfl, fun h => absurd h (by decide), rfl, rfl, rfl, rfl, rfl, rfl, rfl,
    fun h => absurd h (by decide), fun _ => rfl⟩

/-- The same layer with a router that has no groups. -/
def ungroupedLayer : ConfiguredLayer :=
  { deepseekLayer with
    groups := none
    groups_dvd := by rintro _ ⟨⟩
    topkGroup_le := by rintro _ ⟨⟩
    topK_le_kept := by rintro _ ⟨⟩
    two_le := by rintro _ _ ⟨⟩
    groups_zeroExperts := fun h => absurd rfl h }

/-- The gate enables the layer without groups, and the kernel routes it by its own four of eight. -/
theorem ungrouped_layer_enabled :
    loadGate true (some deepseekTP.geometry) ungroupedLayer.toMoELayer = true ∧
      ¬ Sound deepseekTP ungroupedLayer ungroupedLayer.orderedRouter := by
  have hgate : loadGate true (some deepseekTP.geometry) ungroupedLayer.toMoELayer = true := by
    decide
  refine ⟨hgate, fun hsound => ?_⟩
  have hB : deepseekTP.Shipped := Or.inl rfl
  have h := enabled_of_loadGate hB rfl hgate
  have hagrees := hsound.agrees h ungroupedLayer.orderedRouter_routesBy
  have hgroups := groups_eq hB (hagrees.plain hB h) hagrees (by decide)
  exact absurd hgroups (by decide)

end Examples

end UnimonoMoe
