import Mathlib.Algebra.BigOperators.Group.List.Basic
import Mathlib.Algebra.Order.Monoid.Defs
import Mathlib.Data.Finset.Prod
import UnimonoMoe.Lib.TopK

/-!
# Selecting from the best groups

The entries `0, ..., size * n - 1` form `n` groups of `size` consecutive entries.  A group is scored
by the sum of its best `m` scores; `groupedTopK` keeps the best `g` groups and selects the best `k`
entries of these.

Scored by their best entry, the groups do not change what is selected as soon as there are as many
kept ones as there are entries to select, or as there are groups (`groupedTopK_one`).  Scored by its
two best entries, a group is kept if one of its entries outweighs every pair of another group
(`mem_keptGroups_of_pairs`).
-/

namespace TopK

variable {F : Type*} [LinearOrder F]

/-- The entries of group `j`. -/
def group (size j : ℕ) : List ℕ := List.range' (size * j) size

/-- The sum of the best `m` scores of a list. -/
def topSum [AddMonoid F] (s : ℕ → F) (m : ℕ) (l : List ℕ) : F := ((topK s m l).map s).sum

/-- The groups that are kept. -/
def keptGroups [AddMonoid F] (s : ℕ → F) (m size n g : ℕ) : List ℕ :=
  topK (fun j => topSum s m (group size j)) g (List.range n)

/-- The best `k` entries of the kept groups. -/
def groupedTopK [AddMonoid F] (s : ℕ → F) (m size n g k : ℕ) : List ℕ :=
  topK s k ((List.range (size * n)).filter fun e => decide (e / size ∈ keptGroups s m size n g))

section Groups

variable {size n g k : ℕ}

/-- A group is an interval of indices. -/
lemma mem_group (hsize : 0 < size) {j e : ℕ} : e ∈ group size j ↔ e / size = j := by
  unfold group
  rw [List.mem_range'_1, Nat.div_eq_iff hsize, Nat.mul_comm size j]
  omega

/-- It has no repetition. -/
lemma nodup_group (size j : ℕ) : (group size j).Nodup := List.nodup_range'

/-- It has `size` members. -/
@[simp] lemma length_group {j : ℕ} : (group size j).length = size := List.length_range'

variable {s : ℕ → F}

/-- The best two scores of a list outweigh any other two. -/
lemma le_topSum_two [AddCommMonoid F] [IsOrderedAddMonoid F] {l : List ℕ} (hnodup : l.Nodup)
    {a b : ℕ} (ha : a ∈ l) (hb : b ∈ l) (hne : a ≠ b) : s a + s b ≤ topSum s 2 l := by
  have hl : 2 ≤ l.length := by
    have hcard := Finset.card_le_card (s := {a, b}) (t := l.toFinset) (by
      intro x hx
      rcases Finset.mem_insert.mp hx with rfl | hx
      · exact List.mem_toFinset.mpr ha
      · exact List.mem_toFinset.mpr (Finset.mem_singleton.mp hx ▸ hb))
    rw [Finset.card_pair hne, List.toFinset_card_of_nodup hnodup] at hcard
    exact hcard
  obtain ⟨x, _, y, _, htwo, _, hx, hy⟩ := exists_topK_two (s := s) hnodup hl
  have hsum : topSum s 2 l = s x + s y := by
    simp [topSum, htwo]
  rw [hsum]
  by_cases hax : a = x
  · subst hax
    exact add_le_add le_rfl (hy b hb hne.symm).le
  · rw [add_comm (s x)]
    exact add_le_add (hy a ha hax).le (hx b hb).le

/-- The best two scores of a list are scores of two entries. -/
lemma topSum_two_le [AddCommMonoid F] {l : List ℕ} (hnodup : l.Nodup) (hl : 2 ≤ l.length) {c : F}
    (h : ∀ a ∈ l, ∀ b ∈ l, a ≠ b → s a + s b ≤ c) : topSum s 2 l ≤ c := by
  obtain ⟨x, hx, y, hy, htwo, hne, _⟩ := exists_topK_two (s := s) hnodup hl
  have hsum : topSum s 2 l = s x + s y := by
    simp [topSum, htwo]
  exact hsum.trans_le (h x hx y hy hne)

/-- The group of an entry that outweighs every pair of another group is kept. -/
lemma mem_keptGroups_of_pairs [AddCommMonoid F] [IsOrderedAddMonoid F] (hg : 0 < g)
    (htwo : 2 ≤ size) (hs : ∀ e, 0 ≤ s e) {e : ℕ} (he : e < size * n)
    (hpairs : ∀ a b, a / size = b / size → a / size ≠ e / size → a ≠ b → s a + s b < s e) :
    e / size ∈ keptGroups s 2 size n g := by
  have hpos : 0 < size := by omega
  refine mem_topK_of_card_le List.nodup_range (List.mem_range.mpr (Nat.div_lt_of_lt_mul he))
    {e / size} (fun j _ hle => Finset.mem_singleton.mpr ?_) ((Finset.card_singleton _).trans_le hg)
  by_contra hne
  have hle := hle.le
  -- the two best of the other group
  obtain ⟨a, ha, b, hb, hbest, hab, _⟩ :=
    exists_topK_two (s := s) (nodup_group size j) (by rwa [length_group])
  have hsum : topSum s 2 (group size j) = s a + s b := by
    simp [topSum, hbest]
  rw [mem_group hpos] at ha hb
  have hother := hpairs a b (ha.trans hb.symm) (ha ▸ hne) hab
  -- the entry and another one of its group
  obtain ⟨x, hx, hxe⟩ : ∃ x ∈ group size (e / size), x ≠ e := by
    obtain ⟨x, hx, y, hy, _, hxy, _⟩ := exists_topK_two (s := s)
      (nodup_group size (e / size)) (by rwa [length_group])
    by_cases hxe : x = e
    · exact ⟨y, hy, fun hye => hxy (hxe.trans hye.symm)⟩
    · exact ⟨x, hx, hxe⟩
  have hown : s e + s x ≤ topSum s 2 (group size (e / size)) :=
    le_topSum_two (nodup_group _ _) ((mem_group hpos).mpr rfl) hx hxe.symm
  have hbelow : topSum s 2 (group size j) < topSum s 2 (group size (e / size)) := calc
    topSum s 2 (group size j) = s a + s b := hsum
    _ < s e := hother
    _ ≤ s e + s x := le_add_of_nonneg_right (hs x)
    _ ≤ topSum s 2 (group size (e / size)) := hown
  exact absurd hle (not_le.mpr hbelow)

/-- The best score of a list is that of the entry that ranks first. -/
lemma exists_topSum_one [AddMonoid F] {l : List ℕ} (hl : 0 < l.length) :
    ∃ a ∈ l, topSum s 1 l = s a ∧ ∀ x ∈ l, Ranks s a x := by
  have h0 : 0 < (ranking s l).length := by rwa [length_ranking]
  have hone : topK s 1 l = [(ranking s l)[0]] := topK_succ h0
  refine ⟨_, (ranking_perm s l).mem_iff.mp (List.getElem_mem h0), by simp [topSum, hone],
    fun x hx => getElem_ranks h0 hx (by simp [topK])⟩

variable [AddMonoid F]

/-- What is selected lies in a kept group. -/
lemma mem_of_mem_groupedTopK {m e : ℕ} (h : e ∈ groupedTopK s m size n g k) :
    e < size * n ∧ e / size ∈ keptGroups s m size n g := by
  obtain ⟨he, hkept⟩ := List.mem_filter.mp (mem_of_mem_topK h)
  exact ⟨List.mem_range.mp he, of_decide_eq_true hkept⟩

/-- A group that is kept is a group. -/
lemma lt_of_mem_keptGroups {m j : ℕ} (h : j ∈ keptGroups s m size n g) : j < n :=
  List.mem_range.mp (mem_of_mem_topK h)

/-- A best entry is selected if its group is kept. -/
lemma mem_groupedTopK {m e : ℕ} (he : e < size * n) (hkept : e / size ∈ keptGroups s m size n g)
    (T : Finset ℕ) (hT : ∀ x < size * n, x / size ∈ keptGroups s m size n g → Ranks s x e → x ∈ T)
    (hcard : T.card ≤ k) : e ∈ groupedTopK s m size n g k := by
  refine mem_topK_of_card_le (List.nodup_range.filter _)
    (List.mem_filter.mpr ⟨List.mem_range.mpr he, decide_eq_true hkept⟩) T (fun x hx hle => ?_)
    hcard
  obtain ⟨hx, hxkept⟩ := List.mem_filter.mp hx
  exact hT x (List.mem_range.mp hx) (of_decide_eq_true hxkept) hle

/-- As many entries are selected as asked for, if the kept groups have that many. -/
lemma length_groupedTopK {m : ℕ} (hsize : 0 < size) (hg : g ≤ n) (hk : k ≤ size * g) :
    (groupedTopK s m size n g k).length = k := by
  refine length_topK (hk.trans ?_)
  have hkept : (keptGroups s m size n g).toFinset.card = g :=
    (List.toFinset_card_of_nodup (nodup_topK List.nodup_range)).trans
      (length_topK (by rwa [List.length_range]))
  have hinj : Set.InjOn (fun p : ℕ × ℕ => size * p.1 + p.2)
      ((keptGroups s m size n g).toFinset ×ˢ Finset.range size : Finset (ℕ × ℕ)) := by
    rintro ⟨i, a⟩ hia ⟨j, b⟩ hjb heq
    have ha := Finset.mem_range.mp (Finset.mem_product.mp hia).2
    have hb := Finset.mem_range.mp (Finset.mem_product.mp hjb).2
    have hdiv := congrArg (· / size) heq
    have hmod := congrArg (· % size) heq
    simp only [Nat.mul_add_div hsize, Nat.div_eq_of_lt ha, Nat.div_eq_of_lt hb, Nat.mul_add_mod,
      Nat.mod_eq_of_lt ha, Nat.mod_eq_of_lt hb, add_zero] at hdiv hmod
    rw [hdiv, hmod]
  rw [← List.toFinset_card_of_nodup (List.nodup_range.filter _)]
  calc size * g
      = ((keptGroups s m size n g).toFinset ×ˢ Finset.range size).card := by
        rw [Finset.card_product, hkept, Finset.card_range, Nat.mul_comm]
    _ ≤ _ := by
        rw [← Finset.card_image_of_injOn hinj]
        refine Finset.card_le_card fun e he => ?_
        obtain ⟨⟨j, a⟩, hja, rfl⟩ := Finset.mem_image.mp he
        obtain ⟨hj, ha⟩ := Finset.mem_product.mp hja
        have ha := Finset.mem_range.mp ha
        have hj := List.mem_toFinset.mp hj
        have hdiv : (size * j + a) / size = j := by
          rw [Nat.mul_add_div hsize, Nat.div_eq_of_lt ha, add_zero]
        rw [List.mem_toFinset, List.mem_filter, List.mem_range, decide_eq_true_iff, hdiv]
        refine ⟨?_, hj⟩
        calc size * j + a < size * j + size := Nat.add_lt_add_left ha _
          _ = size * (j + 1) := (Nat.mul_succ _ _).symm
          _ ≤ size * n := Nat.mul_le_mul_left _ (lt_of_mem_keptGroups hj)

/-- Scored by their best entry, enough kept groups contain all that is selected. -/
theorem groupedTopK_one (hsize : 0 < size) (hg : min k n ≤ g) :
    groupedTopK s 1 size n g k = topK s k (List.range (size * n)) := by
  refine topK_filter fun e he => decide_eq_true ?_
  have hlt : e < size * n := List.mem_range.mp (mem_of_mem_topK he)
  have hgroup : e / size < n := Nat.div_lt_of_lt_mul hlt
  -- the best entry of every group
  choose best hbest hsum hrank using fun j =>
    exists_topSum_one (s := s) (l := group size j) (by rwa [length_group])
  have hown : ∀ j, best j / size = j := fun j => (mem_group hsize).mp (hbest j)
  let better : Finset ℕ := (Finset.range n).filter fun j =>
    Ranks (fun j => topSum s 1 (group size j)) j (e / size)
  have hinj : Set.InjOn best better := by
    intro i _ j _ heq
    rw [← hown i, ← hown j, heq]
  have hcard : better.card ≤ k := by
    rw [← Finset.card_image_of_injOn hinj]
    refine card_le_of_mem_topK List.nodup_range he _ fun x hx => ?_
    obtain ⟨j, hj, rfl⟩ := Finset.mem_image.mp hx
    obtain ⟨hj, hle⟩ := Finset.mem_filter.mp hj
    have hjn := Finset.mem_range.mp hj
    refine ⟨List.mem_range.mpr ?_, ?_⟩
    · have h := hown j
      rw [← h] at hjn
      exact (Nat.div_lt_iff_lt_mul hsize).mp hjn |>.trans_eq (Nat.mul_comm _ _)
    · have hfirst : Ranks s (best (e / size)) e := hrank _ e ((mem_group hsize).mpr rfl)
      rw [funext hsum] at hle
      rcases hle with hlt | ⟨heq, hjle⟩
      · exact Ranks.trans (Or.inl hlt) hfirst
      · rcases Nat.eq_or_lt_of_le hjle with rfl | hjlt
        · exact hfirst
        · refine Ranks.trans (Or.inr ⟨heq, ?_⟩) hfirst
          have h1 := hown j
          have h2 := hown (e / size)
          by_contra hgt
          have := Nat.div_le_div_right (c := size) (not_le.mp hgt).le
          omega
  refine mem_topK_of_card_le List.nodup_range (List.mem_range.mpr hgroup) better
    (fun j hj hle => Finset.mem_filter.mpr ⟨Finset.mem_range.mpr (List.mem_range.mp hj), hle⟩) ?_
  refine le_trans (le_min hcard ?_) hg
  exact (Finset.card_filter_le _ _).trans_eq (Finset.card_range n)

/-- Scored by its best entry, the group of the best entry is kept. -/
lemma mem_keptGroups_one (hsize : 0 < size) (hg : 0 < g) {e : ℕ} (he : e < size * n)
    (hbest : ∀ x < size * n, x ≠ e → s x < s e) : e / size ∈ keptGroups s 1 size n g := by
  have hselected : e ∈ groupedTopK s 1 size n g 1 := by
    rw [groupedTopK_one hsize ((min_le_left _ _).trans hg)]
    refine mem_topK_of_card_le List.nodup_range (List.mem_range.mpr he) {e}
      (fun x hx hle => Finset.mem_singleton.mpr ?_) (Finset.card_singleton _).le
    by_contra hne
    exact absurd hle.le (not_le.mpr (hbest x (List.mem_range.mp hx) hne))
  exact (mem_of_mem_groupedTopK hselected).2

end Groups

end TopK
