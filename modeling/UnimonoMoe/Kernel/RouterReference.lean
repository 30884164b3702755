import Mathlib.Algebra.BigOperators.Field
import Mathlib.Algebra.Order.BigOperators.Group.Finset
import Mathlib.Order.Bounds.Basic
import Mathlib.Tactic.Linarith
import UnimonoMoe.Kernel.Router
import UnimonoMoe.Lib.TopK

/-!
# The router against the reference router

The reference works on whole lists of experts.  Under softmax it sorts all experts by their
logits; in the grouped mode it scores every group by the sum of its two largest biased scores,
keeps the `TOPK_GROUP` best groups and sorts their experts by biased score.  Ties go to the lower
index everywhere.

The warp computes the same list (`selected_eq_refTopK`) without any list: a group score is two
butterfly reductions (`groupScore_eq`), a kept group a bit in every lane (`groupKeep_iff`) and a
retired expert a bit in its own lane.  In exact arithmetic the weights before renormalization are
the softmax probabilities (`refWeight_softmax`) and the stored ones sum to one
(`sum_slotWeight`).
-/

namespace UnimonoMoe

open Butterfly TopK

/-! ## The reference -/

section Reference

variable {F : Type*} (B : Build) (ops : FloatOps F) (bias : Option (ℕ → F)) (row : ℕ → F)

/-- The sigmoid score of a logit. -/
def sigmoid (x : F) : F := ops.div ops.one (ops.add ops.one (ops.exp (ops.neg x)))

/-- What experts are selected by: the logit under softmax, the biased sigmoid score otherwise. -/
def refScore (e : ℕ) : F :=
  if B.routerMode = 0 then row e
  else ops.add (sigmoid ops (row e)) (bias.elim ops.zero fun b => b e)

/-- The weight of expert `e` before renormalization: its softmax probability or its unbiased
sigmoid score. -/
def refWeight (e : ℕ) : F :=
  if B.routerMode = 0 then
    ops.div (ops.exp (ops.sub (row e) (rowMax B ops row 0))) (rowSum B ops row 0)
  else sigmoid ops (row e)

/-- The experts of group `g`. -/
def groupExperts (g : ℕ) : List ℕ := List.range' (32 * g) 32

variable [LinearOrder F]

/-- The sum of the two largest biased scores of group `g`. -/
def refGroupScore (g : ℕ) : F :=
  match topK (refScore B ops bias row) 2 (groupExperts g) with
  | [a, b] => ops.add (refScore B ops bias row a) (refScore B ops bias row b)
  | _ => ops.zero

/-- The groups that are kept. -/
def refGroups : List ℕ :=
  topK (refGroupScore B ops bias row) B.topkGroup (List.range B.logitsPerLane)

/-- The experts that can be selected: in the grouped mode those of the kept groups. -/
def candidates : List ℕ :=
  (List.range B.numExperts).filter fun e =>
    decide (B.routerMode = 2 → e / 32 ∈ refGroups B ops bias row)

/-- The experts the reference selects, the best first. -/
def refTopK : List ℕ := topK (refScore B ops bias row) B.topK (candidates B ops bias row)

end Reference

/-! ## Groups -/

/-- A lane holds eight logits, in every build. -/
lemma Build.logitsPerLane_eq (B : Build) : B.logitsPerLane = 8 := by
  unfold Build.logitsPerLane
  rw [B.numExperts_eq]

/-- A group has 32 experts. -/
lemma mem_groupExperts {g e : ℕ} : e ∈ groupExperts g ↔ e / 32 = g := by
  unfold groupExperts
  rw [List.mem_range'_1]
  omega

section Groups

variable {F : Type*} [LinearOrder F] {B : Build} {ops : FloatOps F} {bias : Option (ℕ → F)}
  {row : ℕ → F}

omit [LinearOrder F] in
/-- Register `j` of a lane holds the score of expert `lane + 32 * j`. -/
lemma biased_eq (lane j : ℕ) :
    biased B ops bias row lane j = refScore B ops bias row (lane + 32 * j) := by
  unfold biased refScore unbiased
  split_ifs <;> rfl

/-- The top score of a group: all lanes have the best expert, the lowest among equals. -/
lemma groupTop_spec (hops : ops.Ordered) (B : Build) (bias : Option (ℕ → F)) (row : ℕ → F)
    (j : ℕ) :
    ∃ i < 32, (∀ lane < 32, groupTop B ops bias row j lane = (biased B ops bias row i j, i)) ∧
      ∀ i' < 32, biased B ops bias row i' j < biased B ops bias row i j ∨
        (biased B ops bias row i' j = biased B ops bias row i j ∧ i ≤ i') := by
  -- a pair of a score and a lane is a candidate whose weight nobody reads
  have hcandidate : ∀ lane, (⟨(groupTop B ops bias row j lane).1,
      (groupTop B ops bias row j lane).2, ops.zero⟩ : Candidate F) =
        butterfly (Candidate.merge ops) 5 (fun i => ⟨biased B ops bias row i j, i, ops.zero⟩)
          lane := by
    refine butterfly_map (f := fun p : F × ℕ => (⟨p.1, p.2, ops.zero⟩ : Candidate F)) ?_ 5 _
    intro a o
    unfold Candidate.merge
    split_ifs <;> rfl
  have hone : ∀ lane < 32, ∃ i < 32,
      groupTop B ops bias row j lane = (biased B ops bias row i j, i) ∧
        ∀ i' < 32, biased B ops bias row i' j < biased B ops bias row i j ∨
          (biased B ops bias row i' j = biased B ops bias row i j ∧ i ≤ i') := by
    intro lane hlane
    obtain ⟨i, hi, heq⟩ : ∃ i < 2 ^ 5,
        groupTop B ops bias row j lane = (biased B ops bias row i j, i) :=
      butterfly_mem (fun a o => by split_ifs <;> simp) hlane
    refine ⟨i, hi, heq, fun i' hi' => ?_⟩
    have hle : (⟨biased B ops bias row i' j, i', ops.zero⟩ : Candidate F).Le
        (butterfly (Candidate.merge ops) 5 (fun i => ⟨biased B ops bias row i j, i, ops.zero⟩)
          lane) :=
      le_butterfly (n := 5) (x := fun i => ⟨biased B ops bias row i j, i, ops.zero⟩)
        Candidate.Le.trans (Candidate.le_merge_left hops) (Candidate.le_merge_right hops)
        Candidate.Le.refl hlane hi'
    rw [← hcandidate lane, heq] at hle
    exact hle
  obtain ⟨i, hi, _, hbest⟩ := hone 0 (by norm_num)
  refine ⟨i, hi, fun lane hlane => ?_, hbest⟩
  obtain ⟨i', hi', heq', hbest'⟩ := hone lane hlane
  have hsame : i' = i := by
    rcases hbest i' hi' with h | ⟨h, h'⟩ <;> rcases hbest' i hi with k | ⟨k, k'⟩
    · exact absurd k h.asymm
    · exact absurd k h.ne'
    · exact absurd h k.ne'
    · exact le_antisymm k' h'
  rw [heq', hsame]

/-- The second score of a group is the largest one outside the lane of the top score. -/
lemma groupSecond_spec (hmax : ∀ a b, ops.max a b = max a b) {i j : ℕ}
    (htop : ∀ lane < 32, groupTop B ops bias row j lane = (biased B ops bias row i j, i))
    (hlow : ∀ lane < 32, ops.lowest < biased B ops bias row lane j) {lane : ℕ} (hlane : lane < 32) :
    ∃ i' < 32, i' ≠ i ∧ groupSecond B ops bias row j lane = biased B ops bias row i' j ∧
      ∀ l < 32, l ≠ i → biased B ops bias row l j ≤ biased B ops bias row i' j := by
  have hvalue : ∀ l < 32, (if l = (groupTop B ops bias row j l).2 then ops.lowest
      else biased B ops bias row l j) =
        if l = i then ops.lowest else biased B ops bias row l j := by
    intro l hl
    rw [htop l hl]
  have hleft : ∀ a b, a ≤ ops.max a b := fun a b => hmax a b ▸ le_max_left a b
  have hright : ∀ a b, b ≤ ops.max a b := fun a b => hmax a b ▸ le_max_right a b
  have hle : ∀ l < 32, l ≠ i →
      biased B ops bias row l j ≤ groupSecond B ops bias row j lane := by
    intro l hl hne
    have h : (if l = (groupTop B ops bias row j l).2 then ops.lowest
        else biased B ops bias row l j) ≤ groupSecond B ops bias row j lane :=
      le_butterfly_of_le (n := 5) (x := fun l => if l = (groupTop B ops bias row j l).2 then
        ops.lowest else biased B ops bias row l j) hleft hright hlane hl
    rwa [hvalue l hl, if_neg hne] at h
  obtain ⟨i', hi', heq⟩ : ∃ i' < 2 ^ 5, groupSecond B ops bias row j lane =
      if i' = (groupTop B ops bias row j i').2 then ops.lowest else biased B ops bias row i' j :=
    butterfly_mem (fun a b => by rw [hmax]; exact max_choice a b) hlane
  rw [hvalue i' hi'] at heq
  by_cases hne : i' = i
  · -- some other lane has a score above `-FLT_MAX`
    exfalso
    rw [if_pos hne] at heq
    obtain ⟨l, hl, hli⟩ : ∃ l < 32, l ≠ i := by
      by_cases h0 : i = 0
      · exact ⟨1, by norm_num, by omega⟩
      · exact ⟨0, by norm_num, by omega⟩
    exact ((hlow l hl).trans_le (hle l hl hli)).ne heq.symm
  · rw [if_neg hne] at heq
    exact ⟨i', hi', hne, heq, fun l hl hli => heq ▸ hle l hl hli⟩

/-- Every lane has the group scores of the reference. -/
theorem groupScore_eq (hops : ops.Ordered) (hmax : ∀ a b, ops.max a b = max a b)
    (hscore : ∀ e < B.numExperts, ops.lowest < refScore B ops bias row e) {lane j : ℕ}
    (hlane : lane < 32) (hj : j < B.logitsPerLane) :
    groupScore B ops bias row lane j = refGroupScore B ops bias row j := by
  have hlow : ∀ l < 32, ops.lowest < biased B ops bias row l j := by
    intro l hl
    rw [biased_eq]
    refine hscore _ ?_
    rw [B.logitsPerLane_eq] at hj
    rw [B.numExperts_eq]
    omega
  obtain ⟨i, hi, htop, hbest⟩ := groupTop_spec hops B bias row j
  obtain ⟨i', hi', hne, hsecond, hrest⟩ := groupSecond_spec hmax htop hlow hlane
  simp only [biased_eq] at hbest hrest hsecond
  have hmem : ∀ l < 32, l + 32 * j ∈ groupExperts j := fun l hl => by
    rw [mem_groupExperts]
    omega
  have hnodup : (groupExperts j).Nodup := List.nodup_range'
  obtain ⟨a, ha, b, hb, htwo, hab, hfirst, hnext⟩ :=
    exists_topK_two (s := refScore B ops bias row) hnodup (by simp [groupExperts])
  obtain ⟨la, hla, rfl⟩ : ∃ l < 32, a = l + 32 * j := by
    rw [mem_groupExperts] at ha
    exact ⟨a % 32, Nat.mod_lt _ (by norm_num), by omega⟩
  obtain ⟨lb, hlb, rfl⟩ : ∃ l < 32, b = l + 32 * j := by
    rw [mem_groupExperts] at hb
    exact ⟨b % 32, Nat.mod_lt _ (by norm_num), by omega⟩
  have hfirst' : la = i := by
    have hranks : Ranks (refScore B ops bias row) (i + 32 * j) (la + 32 * j) := by
      rcases hbest la hla with h | ⟨h, h'⟩
      · exact Or.inl h
      · exact Or.inr ⟨h, by omega⟩
    have heq := (hfirst _ (hmem i hi)).antisymm hranks
    omega
  subst hfirst'
  have hvalue : refScore B ops bias row (lb + 32 * j) = refScore B ops bias row (i' + 32 * j) := by
    refine le_antisymm (hrest lb hlb (by omega)) ?_
    rcases hnext _ (hmem i' hi') (by omega) with h | ⟨h, _⟩
    · exact h.le
    · exact h.le
  unfold groupScore refGroupScore
  rw [htwo, htop lane hlane, hsecond, biased_eq, ← hvalue]

/-- After `r` rounds every lane has kept the `r` best groups. -/
theorem groupKeep_iff (hops : ops.Ordered) (hmax : ∀ a b, ops.max a b = max a b)
    (hscore : ∀ e < B.numExperts, ops.lowest < refScore B ops bias row e)
    (hgroup : ∀ g < B.logitsPerLane, ops.lowest < refGroupScore B ops bias row g) {lane r : ℕ}
    (hlane : lane < 32) (hr : r ≤ B.logitsPerLane) (g : ℕ) :
    groupKeep B ops bias row lane r g = true ↔
      g ∈ topK (refGroupScore B ops bias row) r (List.range B.logitsPerLane) := by
  induction r generalizing g with
  | zero => simp [groupKeep, topK]
  | succ r ih =>
    have hkeep := ih (Nat.le_of_succ_le hr)
    have hlength : r < (List.range B.logitsPerLane).length := by rwa [List.length_range]
    have hlength' : r < (ranking (refGroupScore B ops bias row)
        (List.range B.logitsPerLane)).length := by rwa [length_ranking]
    have hfree : ∀ j, groupKeep B ops bias row lane r j = false ↔
        j ∉ topK (refGroupScore B ops bias row) r (List.range B.logitsPerLane) := fun j => by
      rw [← hkeep j, Bool.not_eq_true]
    have hspec := maskedArgmax_spec hops (groupKeep B ops bias row lane r)
      (groupScore B ops bias row lane) B.logitsPerLane
    -- the next group of the ranking is still free
    have hnext := getElem_notMem_topK (s := refGroupScore B ops bias row) List.nodup_range hlength'
    have hmem := (ranking_perm (refGroupScore B ops bias row)
      (List.range B.logitsPerLane)).mem_iff.mp (List.getElem_mem hlength')
    generalize hround : maskedArgmax ops (groupKeep B ops bias row lane r)
      (groupScore B ops bias row lane) B.logitsPerLane = acc at hspec
    obtain ⟨best, bj⟩ := acc
    cases bj with
    | none =>
      have hlt := List.mem_range.mp hmem
      have hle := hspec.2 _ hlt ((hfree _).mpr hnext)
      rw [groupScore_eq hops hmax hscore hlane hlt] at hle
      exact absurd (hgroup _ hlt) hle.not_gt
    | some i =>
      obtain ⟨_, hi, hifree, _, hbest⟩ := hspec
      have hstep : topK (refGroupScore B ops bias row) (r + 1) (List.range B.logitsPerLane) =
          topK (refGroupScore B ops bias row) r (List.range B.logitsPerLane) ++ [i] := by
        refine topK_succ_of_best List.nodup_range hlength (List.mem_range.mpr hi)
          ((hfree i).mp hifree) fun x hx hnew => ?_
        have hx' := List.mem_range.mp hx
        have h := hbest x hx' ((hfree x).mpr hnew)
        rwa [groupScore_eq hops hmax hscore hlane hx', groupScore_eq hops hmax hscore hlane hi] at h
      rw [hstep, List.mem_append, List.mem_singleton, ← hkeep g, groupKeep, hround,
        Bool.or_eq_true, decide_eq_true_iff]
      exact or_congr_right (Option.some_inj.trans eq_comm)

end Groups

/-! ## The selected experts -/

/-- Four groups are kept. -/
lemma Build.Shipped.topkGroup_eq {B : Build} (h : B.Shipped) : B.topkGroup = 4 := by
  rcases h with rfl | rfl | rfl <;> rfl

section Selected

variable {F : Type*} [LinearOrder F]

/-- The experts whose score is above `-FLT_MAX`. -/
def aboveLowest (B : Build) (ops : FloatOps F) (bias : Option (ℕ → F)) (row : ℕ → F) : Finset ℕ :=
  (Finset.range B.numExperts).filter fun e => ops.lowest < refScore B ops bias row e

/-- A row the selection can work with: at least `TOP_K` experts have a score above `-FLT_MAX`, and
in the grouped mode all scores and all group scores are above it. -/
structure AboveLowest (B : Build) (ops : FloatOps F) (bias : Option (ℕ → F)) (row : ℕ → F) :
    Prop where
  enough : B.topK ≤ (aboveLowest B ops bias row).card
  score : B.routerMode = 2 → ∀ e < B.numExperts, ops.lowest < refScore B ops bias row e
  group : B.routerMode = 2 → ∀ g < B.logitsPerLane, ops.lowest < refGroupScore B ops bias row g

/-- A row all of whose scores are above `-FLT_MAX`. -/
lemma AboveLowest.of_forall {B : Build} {ops : FloatOps F} {bias : Option (ℕ → F)} {row : ℕ → F}
    (hscore : ∀ e < B.numExperts, ops.lowest < refScore B ops bias row e)
    (hgroup : B.routerMode = 2 →
      ∀ g < B.logitsPerLane, ops.lowest < refGroupScore B ops bias row g) :
    AboveLowest B ops bias row := by
  refine ⟨?_, fun _ => hscore, hgroup⟩
  have hall : aboveLowest B ops bias row = Finset.range B.numExperts :=
    Finset.filter_true_of_mem fun e he => hscore e (Finset.mem_range.mp he)
  rw [hall, Finset.card_range, B.topK_eq, B.numExperts_eq]
  norm_num

variable {B : Build} {ops : FloatOps F} {bias : Option (ℕ → F)} {row : ℕ → F}

/-- The candidates are the experts, with groups those of the kept ones. -/
lemma mem_candidates {e : ℕ} : e ∈ candidates B ops bias row ↔
    e < B.numExperts ∧ (B.routerMode = 2 → e / 32 ∈ refGroups B ops bias row) := by
  unfold candidates
  rw [List.mem_filter, List.mem_range, decide_eq_true_iff]

/-- No expert is a candidate twice. -/
lemma nodup_candidates : (candidates B ops bias row).Nodup := List.nodup_range.filter _

/-- There are enough experts to fill every slot, because a kept group has 32 of them. -/
lemma topK_le_length_candidates (hB : B.Shipped) :
    B.topK ≤ (candidates B ops bias row).length := by
  have hgroups : (refGroups B ops bias row).length = 4 := by
    unfold refGroups
    rw [hB.topkGroup_eq]
    exact length_topK (by rw [List.length_range, B.logitsPerLane_eq]; norm_num)
  obtain ⟨g, hg⟩ : ∃ g, g ∈ refGroups B ops bias row :=
    List.exists_mem_of_length_pos (by omega)
  have hlt : g < 8 := by
    have h := List.mem_range.mp (mem_of_mem_topK hg)
    rwa [B.logitsPerLane_eq] at h
  have hsub : groupExperts g ⊆ candidates B ops bias row := by
    intro e he
    rw [mem_groupExperts] at he
    rw [mem_candidates, he, B.numExperts_eq]
    exact ⟨by omega, fun _ => hg⟩
  have hnodup : (groupExperts g).Nodup := List.nodup_range'
  have hlength := (List.subperm_of_subset hnodup hsub).length_le
  rw [groupExperts, List.length_range'] at hlength
  rw [B.topK_eq]
  omega

/-- The candidates whose score is above `-FLT_MAX`. -/
def eligible (B : Build) (ops : FloatOps F) (bias : Option (ℕ → F)) (row : ℕ → F) : List ℕ :=
  (candidates B ops bias row).filter fun e => decide (ops.lowest < refScore B ops bias row e)

/-- An eligible expert is a candidate that scores above the lowest value. -/
lemma mem_eligible {e : ℕ} : e ∈ eligible B ops bias row ↔
    e ∈ candidates B ops bias row ∧ ops.lowest < refScore B ops bias row e := by
  unfold eligible
  rw [List.mem_filter, decide_eq_true_iff]

/-- No expert is eligible twice. -/
lemma nodup_eligible : (eligible B ops bias row).Nodup := nodup_candidates.filter _

/-- There is an eligible expert for every slot. -/
lemma topK_le_length_eligible (hB : B.Shipped) (hrow : AboveLowest B ops bias row) :
    B.topK ≤ (eligible B ops bias row).length := by
  by_cases hmode : B.routerMode = 2
  · -- in the grouped mode all candidates are eligible
    have hall : eligible B ops bias row = candidates B ops bias row :=
      List.filter_eq_self.mpr fun e he =>
        decide_eq_true (hrow.score hmode e (mem_candidates.mp he).1)
    rw [hall]
    exact topK_le_length_candidates hB
  · -- otherwise all experts are candidates
    have hsub : aboveLowest B ops bias row ⊆ (eligible B ops bias row).toFinset := by
      intro e he
      obtain ⟨he, hlow⟩ := Finset.mem_filter.mp he
      rw [List.mem_toFinset, mem_eligible, mem_candidates]
      exact ⟨⟨Finset.mem_range.mp he, fun h => absurd h hmode⟩, hlow⟩
    have hcard := Finset.card_le_card hsub
    rw [List.toFinset_card_of_nodup nodup_eligible] at hcard
    exact hrow.enough.trans hcard

/-- The reference selects eligible experts only. -/
lemma refTopK_eq_topK_eligible (hB : B.Shipped) (hrow : AboveLowest B ops bias row) :
    refTopK B ops bias row =
      topK (refScore B ops bias row) B.topK (eligible B ops bias row) := by
  refine (topK_filter (forall_mem_topK nodup_candidates (fun a b hab hb => ?_)
    (topK_le_length_eligible hB hrow))).symm
  exact decide_eq_true ((of_decide_eq_true hb).trans_le hab.le)

section Rounds

variable (hB : B.Shipped) (hops : ops.Ordered) (hmax : ∀ a b, ops.max a b = max a b)
  (hrow : AboveLowest B ops bias row)

include hB hops hmax hrow

/-- The selection loop scores the candidates as the reference does and everything else
`-FLT_MAX`. -/
lemma score_eq {e : ℕ} (he : e < B.numExperts) : score B ops bias row e =
    if e ∈ candidates B ops bias row then refScore B ops bias row e else ops.lowest := by
  have hexpert : e % 32 + 32 * (e / 32) = e := Nat.mod_add_div e 32
  have hmasked : (B.routerMode = 2 ∧
      groupKeep B ops bias row (e % 32) B.topkGroup (e / 32) = false) ↔
        e ∉ candidates B ops bias row := by
    rw [mem_candidates, not_and, Classical.not_imp, ← Bool.not_eq_true]
    constructor
    · rintro ⟨hmode, hkeep⟩ _
      rw [groupKeep_iff hops hmax (hrow.score hmode) (hrow.group hmode) (Nat.mod_lt _ (by norm_num))
        (by rw [hB.topkGroup_eq, B.logitsPerLane_eq]; norm_num)] at hkeep
      exact ⟨hmode, hkeep⟩
    · intro h
      obtain ⟨hmode, hgroup⟩ := h he
      rw [groupKeep_iff hops hmax (hrow.score hmode) (hrow.group hmode) (Nat.mod_lt _ (by norm_num))
        (by rw [hB.topkGroup_eq, B.logitsPerLane_eq]; norm_num)]
      exact ⟨hmode, hgroup⟩
  unfold score selScore
  rw [biased_eq, hexpert, if_congr hmasked rfl rfl, ite_not]

/-- An expert is available as long as it is eligible and no earlier round selected it. -/
lemma available_iff {k e : ℕ} : Available B ops bias row k e ↔
    e ∈ eligible B ops bias row ∧ ∀ i < k, (winner B ops bias row i 0).bidx ≠ e := by
  unfold Available
  rw [mem_eligible]
  constructor
  · rintro ⟨he, hlow, hfresh⟩
    rw [score_eq hB hops hmax hrow he] at hlow
    by_cases hmem : e ∈ candidates B ops bias row
    · rw [if_pos hmem] at hlow
      exact ⟨⟨hmem, hlow⟩, hfresh⟩
    · rw [if_neg hmem] at hlow
      exact absurd hlow (lt_irrefl _)
  · rintro ⟨⟨hmem, hlow⟩, hfresh⟩
    have he := (mem_candidates.mp hmem).1
    refine ⟨he, ?_, hfresh⟩
    rw [score_eq hB hops hmax hrow he, if_pos hmem]
    exact hlow

/-- A round in which some expert is available selects the best candidate that is left. -/
lemma winner_of_available {k e₀ : ℕ} (he₀ : Available B ops bias row k e₀) :
    ∃ e, Available B ops bias row k e ∧ winner B ops bias row k 0 =
        ⟨refScore B ops bias row e, e, unbiased B ops row (e % 32) (e / 32)⟩ ∧
      ∀ e', Available B ops bias row k e' → Ranks (refScore B ops bias row) e e' := by
  have hscore : ∀ e, Available B ops bias row k e →
      score B ops bias row e = refScore B ops bias row e := by
    intro e he
    rw [score_eq hB hops hmax hrow he.1,
      if_pos (mem_eligible.mp ((available_iff hB hops hmax hrow).mp he).1).1]
  obtain ⟨e, he, hwin, hbest⟩ := winner_spec hops he₀
  refine ⟨e, he, by rw [hwin, hscore e he], fun e' he' => ?_⟩
  have h := hbest e' he'
  rwa [hscore e he, hscore e' he'] at h

/-- After `k` rounds the `k` best eligible experts have been selected. -/
theorem map_winner_eq_topK {k : ℕ} (hk : k ≤ (eligible B ops bias row).length) :
    (List.range k).map (fun i => (winner B ops bias row i 0).bidx) =
      topK (refScore B ops bias row) k (eligible B ops bias row) := by
  induction k with
  | zero => simp [topK]
  | succ k ih =>
    have hbefore := ih (Nat.le_of_succ_le hk)
    have havail : ∀ e, Available B ops bias row k e ↔ e ∈ eligible B ops bias row ∧
        e ∉ topK (refScore B ops bias row) k (eligible B ops bias row) := by
      intro e
      rw [available_iff hB hops hmax hrow, ← hbefore]
      simp
    have hlength : k < (ranking (refScore B ops bias row)
        (eligible B ops bias row)).length := by rwa [length_ranking]
    obtain ⟨e, he, hwin, hbest⟩ := winner_of_available hB hops hmax hrow
      ((havail _).mpr ⟨(ranking_perm _ _).mem_iff.mp (List.getElem_mem hlength),
        getElem_notMem_topK nodup_eligible hlength⟩)
    rw [topK_succ_of_best nodup_eligible hk ((havail e).mp he).1 ((havail e).mp he).2
      fun x hx hnew => hbest x ((havail x).mpr ⟨hx, hnew⟩)]
    rw [List.range_succ, List.map_append, hbefore, List.map_singleton, hwin]

/-- Round by round the warp selects the experts of the reference. -/
theorem selected_eq_refTopK :
    (List.range B.topK).map (fun k => (winner B ops bias row k 0).bidx) =
      refTopK B ops bias row :=
  (map_winner_eq_topK hB hops hmax hrow (topK_le_length_eligible hB hrow)).trans
    (refTopK_eq_topK_eligible hB hrow).symm

/-- The winner of a slot is a candidate, with its own score and its own unbiased score. -/
lemma exists_winner_of_lt {k : ℕ} (hk : k < B.topK) : ∃ e, e ∈ candidates B ops bias row ∧
    winner B ops bias row k 0 =
      ⟨refScore B ops bias row e, e, unbiased B ops row (e % 32) (e / 32)⟩ := by
  have hle : B.topK ≤ (eligible B ops bias row).length := topK_le_length_eligible hB hrow
  have hlength : k < (ranking (refScore B ops bias row)
      (eligible B ops bias row)).length := by
    rw [length_ranking]
    omega
  have hbefore := map_winner_eq_topK hB hops hmax hrow (k := k) (by omega)
  have hnext := getElem_notMem_topK (s := refScore B ops bias row) nodup_eligible hlength
  rw [← hbefore] at hnext
  have hav : Available B ops bias row k _ := (available_iff hB hops hmax hrow).mpr
    ⟨(ranking_perm _ _).mem_iff.mp (List.getElem_mem hlength), fun i hi heq =>
      hnext (List.mem_map.mpr ⟨i, List.mem_range.mpr hi, heq⟩)⟩
  obtain ⟨e, he, hwin, _⟩ := winner_of_available hB hops hmax hrow hav
  exact ⟨e, (mem_eligible.mp ((available_iff hB hops hmax hrow).mp he).1).1, hwin⟩

/-- All lanes agree on the winner of a slot and on what travels with it. -/
theorem winner_lane_eq {k lane : ℕ} (hk : k < B.topK) (hlane : lane < 32) :
    winner B ops bias row k lane = winner B ops bias row k 0 := by
  obtain ⟨e, he, hwin⟩ := exists_winner_of_lt hB hops hmax hrow hk
  have hexpert : e < 256 := (mem_candidates.mp he).1.trans_eq B.numExperts_eq
  have hidx : (winner B ops bias row k lane).bidx = e := by
    rw [winner_agree hops k hlane, hwin]
  obtain ⟨i, hi, hlaneWin⟩ : ∃ i < 2 ^ 5, winner B ops bias row k lane =
      laneCandidate B ops bias row (usedBefore B ops bias row k) i :=
    butterfly_mem Candidate.merge_eq_or hlane
  rw [hlaneWin] at hidx
  rcases laneCandidate_spec hops B bias row k hi with ⟨hnone, _, _⟩ | ⟨e', _, _, hcand, _⟩
  · rw [hnone] at hidx
    unfold int32Max at hidx
    omega
  · obtain rfl : e' = e := by rw [← hidx, hcand]
    rw [hlaneWin, hwin, hcand, score_eq hB hops hmax hrow (mem_candidates.mp he).1, if_pos he]

/-- The weight of a slot before renormalization is that of its own expert. -/
theorem rawWeight_eq {k : ℕ} (hk : k < B.topK) : rawWeight B ops bias row k =
    refWeight B ops row (winner B ops bias row k 0).bidx := by
  obtain ⟨e, _, hwin⟩ := exists_winner_of_lt hB hops hmax hrow hk
  have hexpert : e % 32 + 32 * (e / 32) = e := Nat.mod_add_div e 32
  unfold rawWeight refWeight
  rw [hwin]
  by_cases hmode : B.routerMode = 0
  · rw [if_pos hmode, if_pos hmode, refScore, if_pos hmode]
  · rw [if_neg hmode, if_neg hmode]
    simp only [unbiased, if_neg hmode, laneLogit, hexpert, sigmoid]

end Rounds

/-- Under softmax a row whose slots all get an expert has enough logits above `-FLT_MAX`. -/
theorem aboveLowest_of_winner_lt (hops : ops.Ordered) (hmode : B.routerMode = 0)
    (h : ∀ k < B.topK, (winner B ops bias row k 0).bidx < B.numExperts) :
    AboveLowest B ops bias row := by
  have hmodes : B.routerMode ≠ 2 := by omega
  refine ⟨((winners_lt_iff hops.ranked B.topK).mp h).trans (Finset.card_le_card fun e he => ?_),
    fun hgrouped => absurd hgrouped hmodes, fun hgrouped => absurd hgrouped hmodes⟩
  obtain ⟨hlt, hlow⟩ := (mem_offered hops.ranked).mp he
  refine Finset.mem_filter.mpr ⟨Finset.mem_range.mpr hlt, ?_⟩
  rw [refScore, if_pos hmode]
  rwa [id, id, score_of_softmax hmode] at hlow

/-! ## The row maximum -/

/-- Every lane has the maximum of the row. -/
theorem rowMax_isGreatest (hmax : ∀ a b, ops.max a b = max a b) {lane : ℕ} (hlane : lane < 32) :
    IsGreatest (row '' Set.Iio B.numExperts) (rowMax B ops row lane) := by
  have hop : ops.max = max := funext fun a => funext fun b => hmax a b
  have hexperts := B.numExperts_eq
  have hslots := B.logitsPerLane_eq
  unfold rowMax
  rw [hop]
  constructor
  · obtain ⟨i, hi, heq⟩ := butterfly_mem (n := 5) (x := fun lane =>
      (List.range' 1 (B.logitsPerLane - 1)).foldl (fun m j => max m (laneLogit row lane j))
        (laneLogit row lane 0)) max_choice hlane
    rw [heq]
    rcases Loops.foldl_max_mem (laneLogit row i) (List.range' 1 (B.logitsPerLane - 1))
      (laneLogit row i 0) with h | ⟨j, hj, h⟩
    · exact ⟨i + 32 * 0, Set.mem_Iio.mpr (by omega), h.symm⟩
    · rw [List.mem_range'_1] at hj
      exact ⟨i + 32 * j, Set.mem_Iio.mpr (by omega), h.symm⟩
  · rintro _ ⟨e, he, rfl⟩
    have he' : e < B.numExperts := Set.mem_Iio.mp he
    have hown := Loops.le_foldl_max (laneLogit row (e % 32))
      (List.range' 1 (B.logitsPerLane - 1)) (laneLogit row (e % 32) 0)
    have hexpert : laneLogit row (e % 32) (e / 32) = row e :=
      congrArg row (Nat.mod_add_div e 32)
    refine le_trans ?_ (le_butterfly_of_le (n := 5) (x := fun lane =>
      (List.range' 1 (B.logitsPerLane - 1)).foldl (fun m j => max m (laneLogit row lane j))
        (laneLogit row lane 0)) le_max_left le_max_right hlane (Nat.mod_lt e (by norm_num)))
    rw [← hexpert]
    by_cases hslot : e / 32 = 0
    · rw [hslot]
      exact hown.1
    · exact hown.2 _ (List.mem_range'_1.mpr (by omega))

end Selected

/-! ## Exact arithmetic -/

section Exact

variable {K : Type*} [Field K] [LinearOrder K] {B : Build} {exp : K → K} {lowest tiny : K}
  {bias : Option (ℕ → K)} {row : ℕ → K}

omit [LinearOrder K] in
/-- An accumulating loop computes the sum. -/
lemma foldl_add_eq_sum (f : ℕ → K) (n : ℕ) :
    (List.range n).foldl (fun s j => s + f j) 0 = ∑ j ∈ Finset.range n, f j := by
  induction n with
  | zero => rfl
  | succ n ih => rw [List.range_succ, List.foldl_concat, ih, Finset.sum_range_succ]

omit [LinearOrder K] in
/-- The registers of all lanes hold every expert once. -/
lemma sum_lanes (f : ℕ → K) (n : ℕ) :
    ∑ lane ∈ Finset.range 32, ∑ j ∈ Finset.range n, f (lane + 32 * j) =
      ∑ e ∈ Finset.range (32 * n), f e := by
  induction n with
  | zero => simp
  | succ n ih =>
    simp only [Finset.sum_range_succ _ n, Finset.sum_add_distrib, ih, Nat.mul_succ,
      Finset.sum_range_add]
    exact congrArg _ (Finset.sum_congr rfl fun lane _ => by rw [Nat.add_comm])

/-- The softmax denominator of a row. -/
def softmaxSum (B : Build) (exp : K → K) (row : ℕ → K) (m : K) : K :=
  ∑ e ∈ Finset.range B.numExperts, exp (row e - m)

/-- Every lane has the softmax denominator. -/
lemma rowSum_exact {lane : ℕ} (hlane : lane < 32) :
    rowSum B (.exact exp lowest tiny) row lane =
      softmaxSum B exp row (rowMax B (.exact exp lowest tiny) row 0) := by
  have hmaxima : ∀ l < 32, rowMax B (.exact exp lowest tiny) row l =
      rowMax B (.exact exp lowest tiny) row 0 := fun l hl =>
    (rowMax_isGreatest (fun _ _ => rfl) hl).unique
      (rowMax_isGreatest (fun _ _ => rfl) (by norm_num))
  have hlane' : ∀ l ∈ Finset.range (2 ^ 5),
      (List.range B.logitsPerLane).foldl
        (fun s j => s + exp (laneLogit row l j - rowMax B (.exact exp lowest tiny) row l)) 0 =
      ∑ j ∈ Finset.range B.logitsPerLane,
        exp (row (l + 32 * j) - rowMax B (.exact exp lowest tiny) row 0) := by
    intro l hl
    rw [foldl_add_eq_sum, hmaxima l (Finset.mem_range.mp hl)]
    rfl
  have hsum := butterfly_add (n := 5) (fun l => (List.range B.logitsPerLane).foldl
    (fun s j => s + exp (laneLogit row l j - rowMax B (.exact exp lowest tiny) row l)) 0) hlane
  rw [Finset.sum_congr rfl hlane'] at hsum
  refine Eq.trans hsum ?_
  rw [softmaxSum, B.numExperts_eq, B.logitsPerLane_eq]
  exact sum_lanes (fun e => exp (row e - rowMax B (.exact exp lowest tiny) row 0)) 8

/-- Under softmax the weight of an expert is its probability. -/
theorem refWeight_softmax (hmode : B.routerMode = 0) (e : ℕ) :
    refWeight B (.exact exp lowest tiny) row e =
      exp (row e - rowMax B (.exact exp lowest tiny) row 0) /
        softmaxSum B exp row (rowMax B (.exact exp lowest tiny) row 0) := by
  rw [← rowSum_exact (show 0 < 32 by norm_num), refWeight, if_pos hmode]
  rfl

/-- `wsum` is the sum of the weights of the slots. -/
lemma weightSum_exact : weightSum B (.exact exp lowest tiny) bias row =
    ∑ k ∈ Finset.range B.topK, rawWeight B (.exact exp lowest tiny) bias row k :=
  foldl_add_eq_sum _ _

/-- Sorting by logits is sorting by softmax probabilities. -/
theorem refTopK_softmax [IsStrictOrderedRing K] (hmode : B.routerMode = 0) (hexp : StrictMono exp)
    (hpos : ∀ x, 0 < exp x) :
    refTopK B (.exact exp lowest tiny) bias row =
      topK (refWeight B (.exact exp lowest tiny) row) B.topK (List.range B.numExperts) := by
  have hall : candidates B (.exact exp lowest tiny) bias row = List.range B.numExperts := by
    refine List.filter_eq_self.mpr fun e _ => ?_
    simp [hmode]
  have hsum : 0 < softmaxSum B exp row (rowMax B (.exact exp lowest tiny) row 0) := by
    refine Finset.sum_pos (fun e _ => hpos _) ⟨0, Finset.mem_range.mpr ?_⟩
    rw [B.numExperts_eq]
    norm_num
  unfold refTopK
  rw [hall]
  refine topK_congr fun a _ b _ => ?_
  rw [refWeight_softmax hmode, refWeight_softmax hmode, div_lt_div_iff_of_pos_right hsum,
    hexp.lt_iff_lt, sub_lt_sub_iff_right, refScore, refScore, if_pos hmode, if_pos hmode]

/-- The stored weights of a token sum to one. -/
theorem sum_slotWeight (htiny : 0 < tiny)
    (hsum : tiny ≤ weightSum B (.exact exp lowest tiny) bias row) :
    ∑ k ∈ Finset.range B.topK, slotWeight B (.exact exp lowest tiny) bias row k = 1 := by
  have hpos : weightSum B (.exact exp lowest tiny) bias row ≠ 0 := (htiny.trans_le hsum).ne'
  have hslot : ∀ k, slotWeight B (.exact exp lowest tiny) bias row k =
      rawWeight B (.exact exp lowest tiny) bias row k *
        (1 / weightSum B (.exact exp lowest tiny) bias row) := by
    intro k
    have hmax : (FloatOps.exact exp lowest tiny).max
        (weightSum B (.exact exp lowest tiny) bias row) tiny =
          weightSum B (.exact exp lowest tiny) bias row := max_eq_left hsum
    exact congrArg (fun d => rawWeight B (.exact exp lowest tiny) bias row k * (1 / d)) hmax
  rw [Finset.sum_congr rfl fun k _ => hslot k, ← Finset.sum_mul, ← weightSum_exact]
  exact mul_one_div_cancel hpos

end Exact

/-! ## Phase 0 -/

/-- Phase 0 routes row `t` of the logits as the reference does. -/
structure RowRouted {F : Type*} [LinearOrder F] (B : Build) (ops : FloatOps F)
    (bias : Option (ℕ → F)) (expertMap : Option (ℕ → ℤ)) (logits : ℕ → ℕ → F) (t : ℕ) : Prop where
  /-- The winners are the experts of the reference, in its order. -/
  selected : (List.range B.topK).map (fun k => (winner B ops bias (logits t) k 0).bidx) =
    refTopK B ops bias (logits t)
  /-- All lanes agree on a winner. -/
  agree : ∀ k < B.topK, ∀ lane < 32,
    winner B ops bias (logits t) k lane = winner B ops bias (logits t) k 0
  /-- There are `TOP_K` winners, and they are distinct. -/
  length : (refTopK B ops bias (logits t)).length = B.topK
  nodup : (refTopK B ops bias (logits t)).Nodup
  /-- A slot stores the id its winner has on this rank. -/
  ids : (List.range B.topK).map (fun k =>
      (router B ops bias expertMap logits).ids (t * B.topK + k)) =
    (refTopK B ops bias (logits t)).map (remap B expertMap)
  /-- Before renormalization a slot has the weight of its own expert. -/
  weight : ∀ k < B.topK, rawWeight B ops bias (logits t) k =
    refWeight B ops (logits t) (winner B ops bias (logits t) k 0).bidx
  /-- The maximum the softmax subtracts is that of the row. -/
  rowMax : IsGreatest (logits t '' Set.Iio B.numExperts) (rowMax B ops (logits t) 0)

/-- In exact arithmetic the weights of row `t` are those of the softmax or sum to one. -/
structure RowExact {K : Type*} [Field K] [LinearOrder K] (B : Build) (exp : K → K)
    (lowest tiny : K) (bias : Option (ℕ → K)) (expertMap : Option (ℕ → ℤ)) (logits : ℕ → ℕ → K)
    (t : ℕ) : Prop where
  /-- Under softmax the weight of an expert is its probability. -/
  softmax : B.routerMode = 0 → ∀ e, refWeight B (.exact exp lowest tiny) (logits t) e =
    exp (logits t e - UnimonoMoe.rowMax B (.exact exp lowest tiny) (logits t) 0) /
      softmaxSum B exp (logits t)
        (UnimonoMoe.rowMax B (.exact exp lowest tiny) (logits t) 0)
  /-- Under softmax the reference sorts by probability. -/
  sorted : B.routerMode = 0 → refTopK B (.exact exp lowest tiny) bias (logits t) =
    topK (refWeight B (.exact exp lowest tiny) (logits t)) B.topK (List.range B.numExperts)
  /-- The stored weights sum to one. -/
  sum_one : tiny ≤ weightSum B (.exact exp lowest tiny) bias (logits t) →
    ∑ k ∈ Finset.range B.topK,
      (router B (.exact exp lowest tiny) bias expertMap logits).weights (t * B.topK + k) = 1

/-- Slot `k` of row `t`. -/
lemma slot_div_mod {B : Build} {t k : ℕ} (hk : k < B.topK) :
    (t * B.topK + k) / B.topK = t ∧ (t * B.topK + k) % B.topK = k :=
  ⟨Loops.rowMajor_div hk, Loops.rowMajor_mod hk⟩

/-- Phase 0 selects exactly the experts of the reference router, with their weights: for
comparisons of any linear order and in every mode and build, and in exact arithmetic with an
abstract exponential the weights are normalized. -/
theorem router_topK_reference {F : Type*} [LinearOrder F] {B : Build} (hB : B.Shipped)
    {ops : FloatOps F} (hops : ops.Ordered) (hmax : ∀ a b, ops.max a b = max a b)
    {bias : Option (ℕ → F)} (expertMap : Option (ℕ → ℤ)) {logits : ℕ → ℕ → F} {t : ℕ}
    (hrow : AboveLowest B ops bias (logits t))
    {K : Type*} [Field K] [LinearOrder K] [IsStrictOrderedRing K] {exp : K → K}
    (hexp : StrictMono exp) (hpos : ∀ x, 0 < exp x) (lowest : K) {tiny : K} (htiny : 0 < tiny)
    (bias' : Option (ℕ → K)) (logits' : ℕ → ℕ → K) :
    RowRouted B ops bias expertMap logits t ∧
      RowExact B exp lowest tiny bias' expertMap logits' t := by
  have hselected := selected_eq_refTopK hB hops hmax hrow
  refine ⟨⟨hselected, fun k hk lane hlane => winner_lane_eq hB hops hmax hrow hk hlane,
    length_topK (topK_le_length_candidates hB), nodup_topK nodup_candidates, ?_,
    fun k hk => rawWeight_eq hB hops hmax hrow hk, rowMax_isGreatest hmax (by norm_num)⟩,
    ⟨refWeight_softmax, fun hmode => refTopK_softmax hmode hexp hpos, fun hsum => ?_⟩⟩
  · rw [← hselected, List.map_map]
    refine List.map_congr_left fun k hk => ?_
    obtain ⟨hdiv, hmod⟩ := slot_div_mod (t := t) (List.mem_range.mp hk)
    simp only [router, hdiv, hmod, Function.comp_apply]
  · rw [← sum_slotWeight htiny hsum]
    refine Finset.sum_congr rfl fun k hk => ?_
    obtain ⟨hdiv, hmod⟩ := slot_div_mod (t := t) (Finset.mem_range.mp hk)
    simp only [router, hdiv, hmod]

/-! ### A grouped row -/

section Examples

/-- A strictly monotone positive stand-in for the exponential. -/
def ratExp (x : ℚ) : ℚ := if x < 0 then 1 / (1 - x) else 1 + x

/-- The sample exponential is positive. -/
lemma ratExp_pos (x : ℚ) : 0 < ratExp x := by
  unfold ratExp
  split_ifs with h
  · exact one_div_pos.mpr (by linarith)
  · linarith

/-- And strictly increasing. -/
lemma ratExp_strictMono : StrictMono ratExp := by
  intro x y hxy
  unfold ratExp
  split_ifs with hx hy hy
  · exact one_div_lt_one_div_of_lt (by linarith) (by linarith)
  · have hle : 1 / (1 - x) < 1 := (div_lt_one (by linarith)).mpr (by linarith)
    linarith
  · linarith
  · linarith

/-- Exact arithmetic with `ratExp` and the constants of the source. -/
def groupedOps : FloatOps ℚ := .exact ratExp (-((2 ^ 24 - 1) * 2 ^ 104)) (1 / 10 ^ 30)

/-- Three classes of equally good experts, so that every group ties with others. -/
def tiedLogits (_ e : ℕ) : ℚ := (e % 3 : ℕ)

/-- The tied logits are above the lowest value. -/
lemma groupedOps_aboveLowest : AboveLowest deepseekTP groupedOps none (tiedLogits 0) := by
  have hlow : groupedOps.lowest < 0 := by
    norm_num [groupedOps, FloatOps.exact]
  have hpos : ∀ e, 0 < refScore deepseekTP groupedOps none (tiedLogits 0) e := by
    intro e
    have h : (0 : ℚ) < 1 / (1 + ratExp (-tiedLogits 0 e)) :=
      one_div_pos.mpr (add_pos one_pos (ratExp_pos _))
    exact h.trans_eq (add_zero _).symm
  refine .of_forall (fun e _ => hlow.trans (hpos e)) fun _ g _ => hlow.trans ?_
  have hnodup : (groupExperts g).Nodup := List.nodup_range'
  obtain ⟨a, _, b, _, htwo, _⟩ :=
    exists_topK_two (s := refScore deepseekTP groupedOps none (tiedLogits 0)) hnodup
      (by simp [groupExperts])
  unfold refGroupScore
  rw [htwo]
  exact add_pos (hpos a) (hpos b)

/-- The grouped build on a row full of ties. -/
theorem router_topK_reference_tied :
    RowRouted deepseekTP groupedOps none none tiedLogits 0 ∧
      RowExact deepseekTP ratExp (-((2 ^ 24 - 1) * 2 ^ 104)) (1 / 10 ^ 30) none none tiedLogits 0 :=
  router_topK_reference (Or.inl rfl) (FloatOps.exact_ordered _ _ _) (fun _ _ => rfl) none
    groupedOps_aboveLowest ratExp_strictMono ratExp_pos _ (by norm_num) none tiedLogits

/-- A row whose logits are all `-FLT_MAX`: the first slot gets `INT32_MAX` and no expert. -/
theorem router_topK_lowest_row :
    (router qwenTP groupedOps none none fun _ _ => groupedOps.lowest).ids 0 = 2147483647 ∧
      ¬ RowRouted qwenTP groupedOps none none (fun _ _ => groupedOps.lowest) 0 := by
  have hops : groupedOps.Ordered := FloatOps.exact_ordered _ _ _
  have hnone : ∀ e, ¬ Available qwenTP groupedOps none (fun _ => groupedOps.lowest) 0 e := by
    rintro e ⟨_, hlow, _⟩
    rw [score_of_softmax rfl] at hlow
    exact absurd hlow (lt_irrefl _)
  have hfirst : (winner qwenTP groupedOps none (fun _ => groupedOps.lowest) 0 0).bidx = int32Max :=
    winner_eq_int32Max hops hnone
  refine ⟨?_, fun hrouted => ?_⟩
  · exact congrArg Nat.cast hfirst
  · -- the reference has an expert for every slot
    have hmem : int32Max ∈ refTopK qwenTP groupedOps none fun _ => groupedOps.lowest := by
      rw [← hrouted.selected, ← hfirst]
      exact List.mem_map.mpr ⟨0, by decide, rfl⟩
    exact absurd (mem_candidates.mp (mem_of_mem_topK hmem)).1 (by decide)

end Examples

end UnimonoMoe
