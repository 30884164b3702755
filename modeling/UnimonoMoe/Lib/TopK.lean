import Mathlib.Data.Finset.Card
import Mathlib.Data.List.Sort
import Mathlib.Order.Basic

/-!
# The best `k` entries of a list

Entries are ranked by score, the higher first, and among equal scores by the entry itself, the
lower first.  `topK s k l` sorts a list by this ranking and keeps the first `k` entries.

Selecting the best of what is left extends the list by one entry (`topK_succ_of_best`), only the
order of the scores matters (`topK_congr`), and an entry is among the best `k` exactly when at most
`k` entries rank no later than it (`mem_topK_iff`).
-/

namespace TopK

variable {ι F G : Type*} [LinearOrder ι] [LinearOrder F] [LinearOrder G]

/-- Entry `a` ranks no later than entry `b`. -/
def Ranks (s : ι → F) (a b : ι) : Prop := s b < s a ∨ (s b = s a ∧ a ≤ b)

instance (s : ι → F) : DecidableRel (Ranks s) := fun _ _ => inferInstanceAs (Decidable (_ ∨ _))

section Ranks

variable {s : ι → F} {a b c : ι}

/-- Every index ranks above itself. -/
lemma Ranks.refl (a : ι) : Ranks s a a := Or.inr ⟨rfl, le_rfl⟩

/-- A score is at most that of any index ranked above. -/
lemma Ranks.le (hab : Ranks s a b) : s b ≤ s a := hab.elim le_of_lt fun h => h.1.le

/-- Ranking is transitive. -/
lemma Ranks.trans (hab : Ranks s a b) (hbc : Ranks s b c) : Ranks s a c := by
  rcases hab with h | ⟨h, h'⟩ <;> rcases hbc with k | ⟨k, k'⟩
  · exact Or.inl (k.trans h)
  · exact Or.inl (k ▸ h)
  · exact Or.inl (h ▸ k)
  · exact Or.inr ⟨k.trans h, h'.trans k'⟩

/-- Of two indices one ranks above the other. -/
lemma Ranks.total (a b : ι) : Ranks s a b ∨ Ranks s b a := by
  rcases lt_trichotomy (s a) (s b) with h | h | h
  · exact Or.inr (Or.inl h)
  · rcases le_total a b with h' | h'
    · exact Or.inl (Or.inr ⟨h.symm, h'⟩)
    · exact Or.inr (Or.inr ⟨h, h'⟩)
  · exact Or.inl (Or.inl h)

/-- Indices ranked above each other are the same, since ties go by the index. -/
lemma Ranks.antisymm (hab : Ranks s a b) (hba : Ranks s b a) : a = b := by
  rcases hab with h | ⟨h, h'⟩ <;> rcases hba with k | ⟨k, k'⟩
  · exact absurd k h.asymm
  · exact absurd h (k ▸ lt_irrefl _)
  · exact absurd k (h ▸ lt_irrefl _)
  · exact le_antisymm h' k'

instance (s : ι → F) : Std.Total (Ranks s) := ⟨Ranks.total⟩

instance (s : ι → F) : IsTrans ι (Ranks s) := ⟨fun _ _ _ => Ranks.trans⟩

end Ranks

/-- A list in the order of the ranking. -/
def ranking (s : ι → F) (l : List ι) : List ι := l.insertionSort (Ranks s)

/-- The best `k` entries of a list, the best first. -/
def topK (s : ι → F) (k : ℕ) (l : List ι) : List ι := (ranking s l).take k

variable {s : ι → F} {k : ℕ} {l : List ι}

/-- The ranking lists the same indices. -/
lemma ranking_perm (s : ι → F) (l : List ι) : (ranking s l).Perm l := List.perm_insertionSort _ l

/-- The ranking is as long as the list. -/
@[simp] lemma length_ranking : (ranking s l).length = l.length := (ranking_perm s l).length_eq

/-- What is selected comes from the list. -/
lemma mem_of_mem_topK {a : ι} (h : a ∈ topK s k l) : a ∈ l :=
  (ranking_perm s l).mem_iff.mp (List.mem_of_mem_take h)

/-- The best entries are as many as asked for, if there are that many. -/
lemma length_topK (hk : k ≤ l.length) : (topK s k l).length = k := by
  unfold topK
  rw [List.length_take, length_ranking]
  exact Nat.min_eq_left hk

/-- Along the ranking every entry ranks no later than those after it. -/
lemma ranks_of_le {i j : ℕ} (hij : i ≤ j) (hj : j < (ranking s l).length) :
    Ranks s ((ranking s l).get ⟨i, hij.trans_lt hj⟩) (ranking s l)[j] := by
  rcases Nat.eq_or_lt_of_le hij with rfl | hlt
  · exact Ranks.refl _
  · have hsorted : (ranking s l).Pairwise (Ranks s) := List.pairwise_insertionSort _ l
    exact List.pairwise_iff_getElem.mp hsorted i j (hij.trans_lt hj) hj hlt

/-- One more of the best entries is the next one of the ranking. -/
lemma topK_succ (hk : k < (ranking s l).length) :
    topK s (k + 1) l = topK s k l ++ [(ranking s l)[k]] :=
  List.take_succ_eq_append_getElem hk

/-- The next entry of the ranking ranks no later than whatever has not been taken. -/
lemma getElem_ranks (hk : k < (ranking s l).length) {a : ι} (ha : a ∈ l) (hnew : a ∉ topK s k l) :
    Ranks s (ranking s l)[k] a := by
  obtain ⟨m, hm, rfl⟩ := List.mem_iff_getElem.mp ((ranking_perm s l).mem_iff.mpr ha)
  have hge : k ≤ m := by
    by_contra hlt
    exact hnew (List.mem_take_iff_getElem.mpr ⟨m, by omega, rfl⟩)
  exact ranks_of_le hge hm

/-- The next entry of the ranking has not been taken. -/
lemma getElem_notMem_topK (hnodup : l.Nodup) (hk : k < (ranking s l).length) :
    (ranking s l)[k] ∉ topK s k l := by
  intro hmem
  have hranking : (ranking s l).Nodup := (ranking_perm s l).nodup_iff.mpr hnodup
  obtain ⟨i, hi, heq⟩ := List.mem_take_iff_getElem.mp hmem
  have hik : i = k := (hranking.getElem_inj_iff).mp heq
  omega

/-- At most `k` indices are selected. -/
lemma length_topK_le : (topK s k l).length ≤ k := List.length_take_le _ _

/-- No index is selected twice. -/
lemma nodup_topK (hnodup : l.Nodup) : (topK s k l).Nodup :=
  ((ranking_perm s l).nodup_iff.mpr hnodup).sublist (List.take_sublist _ _)

/-- The best of what has not been taken is the next one of the best entries. -/
theorem topK_succ_of_best (hnodup : l.Nodup) (hk : k < l.length) {a : ι} (ha : a ∈ l)
    (hnew : a ∉ topK s k l) (hbest : ∀ x ∈ l, x ∉ topK s k l → Ranks s a x) :
    topK s (k + 1) l = topK s k l ++ [a] := by
  have hk' : k < (ranking s l).length := by rwa [length_ranking]
  have hmem : (ranking s l)[k] ∈ l := (ranking_perm s l).mem_iff.mp (List.getElem_mem hk')
  have hle : Ranks s a (ranking s l)[k] := hbest _ hmem (getElem_notMem_topK hnodup hk')
  rw [topK_succ hk', (getElem_ranks hk' ha hnew).antisymm hle]

/-- The best two of a list, by what the first of them and the second of them are best of. -/
theorem exists_topK_two (hnodup : l.Nodup) (hl : 2 ≤ l.length) :
    ∃ a ∈ l, ∃ b ∈ l, topK s 2 l = [a, b] ∧ a ≠ b ∧ (∀ x ∈ l, Ranks s a x) ∧
      ∀ x ∈ l, x ≠ a → Ranks s b x := by
  have h0 : 0 < (ranking s l).length := by
    rw [length_ranking]
    omega
  have h1 : 1 < (ranking s l).length := by
    rw [length_ranking]
    omega
  have hone : topK s 1 l = [(ranking s l)[0]] := topK_succ h0
  have htwo : topK s 2 l = [(ranking s l)[0], (ranking s l)[1]] := by
    rw [topK_succ h1, hone]
    rfl
  have hfresh : (ranking s l)[1] ∉ topK s 1 l := getElem_notMem_topK hnodup h1
  rw [hone, List.mem_singleton] at hfresh
  refine ⟨_, (ranking_perm s l).mem_iff.mp (List.getElem_mem h0), _,
    (ranking_perm s l).mem_iff.mp (List.getElem_mem h1), htwo, Ne.symm hfresh, fun x hx => ?_,
    fun x hx hne => ?_⟩
  · exact getElem_ranks h0 hx (by simp [topK])
  · refine getElem_ranks h1 hx ?_
    rwa [hone, List.mem_singleton]

/-- Only the order of the scores matters. -/
theorem topK_congr {s' : ι → G} (h : ∀ a ∈ l, ∀ b ∈ l, s a < s b ↔ s' a < s' b) :
    topK s k l = topK s' k l := by
  have hranks : ∀ a ∈ l, ∀ b ∈ l, Ranks s a b ↔ Ranks s' a b := by
    intro a ha b hb
    have heq : s b = s a ↔ s' b = s' a := by
      constructor
      · intro heq
        refine le_antisymm (not_lt.mp fun hlt => ?_) (not_lt.mp fun hlt => ?_)
        · exact lt_irrefl _ (heq ▸ (h a ha b hb).mpr hlt)
        · exact lt_irrefl _ (heq ▸ (h b hb a ha).mpr hlt)
      · intro heq
        refine le_antisymm (not_lt.mp fun hlt => ?_) (not_lt.mp fun hlt => ?_)
        · exact lt_irrefl _ (heq ▸ (h a ha b hb).mp hlt)
        · exact lt_irrefl _ (heq ▸ (h b hb a ha).mp hlt)
    unfold Ranks
    rw [h b hb a ha, heq]
  have hsorted : (ranking s l).Pairwise (Ranks s) := List.pairwise_insertionSort _ l
  have hsorted' : (ranking s' l).Pairwise (Ranks s') := List.pairwise_insertionSort _ l
  have hsorted'' : (ranking s l).Pairwise (Ranks s') := by
    refine hsorted.imp_of_mem fun {a b} ha hb hab => ?_
    exact (hranks a ((ranking_perm s l).mem_iff.mp ha) b ((ranking_perm s l).mem_iff.mp hb)).mp hab
  have hperm : (ranking s l).Perm (ranking s' l) :=
    (ranking_perm s l).trans (ranking_perm s' l).symm
  unfold topK
  rw [hperm.eq_of_pairwise (fun a b _ _ => Ranks.antisymm) hsorted'' hsorted']

/-! ## Ranks -/

/-- An entry is among the best `k` when at most `k` entries, itself included, rank no later. -/
theorem mem_topK_iff (hnodup : l.Nodup) {a : ι} :
    a ∈ topK s k l ↔ a ∈ l ∧ l.countP (fun x => decide (Ranks s x a)) ≤ k := by
  rw [← (ranking_perm s l).mem_iff, ← (ranking_perm s l).countP_eq]
  have hranking : (ranking s l).Nodup := (ranking_perm s l).nodup_iff.mpr hnodup
  -- an entry at position `m` has rank `m + 1`
  have hrank : ∀ (m : ℕ) (hm : m < (ranking s l).length),
      (ranking s l).countP (fun x => decide (Ranks s x (ranking s l)[m])) = m + 1 := by
    intro m hm
    have hsplit := List.take_append_drop (m + 1) (ranking s l)
    have hbefore : ((ranking s l).take (m + 1)).countP
        (fun x => decide (Ranks s x (ranking s l)[m])) = m + 1 := by
      rw [List.countP_eq_length.mpr, List.length_take_of_le hm]
      intro x hx
      obtain ⟨i, hi, rfl⟩ := List.mem_take_iff_getElem.mp hx
      exact decide_eq_true (ranks_of_le (by omega) hm)
    have hafter : ((ranking s l).drop (m + 1)).countP
        (fun x => decide (Ranks s x (ranking s l)[m])) = 0 := by
      rw [List.countP_eq_zero]
      intro x hx
      obtain ⟨i, hi, rfl⟩ := List.mem_drop_iff_getElem.mp hx
      rw [decide_eq_true_iff]
      intro hle
      have heq := hle.antisymm (ranks_of_le (by omega : m ≤ m + 1 + i) (by omega))
      have := hranking.getElem_inj_iff.mp heq
      omega
    calc (ranking s l).countP (fun x => decide (Ranks s x (ranking s l)[m]))
        = ((ranking s l).take (m + 1) ++ (ranking s l).drop (m + 1)).countP
            (fun x => decide (Ranks s x (ranking s l)[m])) := by rw [hsplit]
      _ = m + 1 := by rw [List.countP_append, hbefore, hafter]
  constructor
  · intro ha
    obtain ⟨m, hm, rfl⟩ := List.mem_take_iff_getElem.mp ha
    refine ⟨List.getElem_mem _, ?_⟩
    rw [hrank m (by omega)]
    omega
  · rintro ⟨ha, hcount⟩
    obtain ⟨m, hm, rfl⟩ := List.mem_iff_getElem.mp ha
    rw [hrank m hm] at hcount
    exact List.mem_take_iff_getElem.mpr ⟨m, by omega, rfl⟩

/-- Entries that are not among the best can be left out. -/
theorem topK_filter {p : ι → Bool} (h : ∀ a ∈ topK s k l, p a = true) :
    topK s k (l.filter p) = topK s k l := by
  have hsorted : (ranking s l).Pairwise (Ranks s) := List.pairwise_insertionSort _ l
  have hranking : ranking s (l.filter p) = (ranking s l).filter p :=
    ((ranking_perm s (l.filter p)).trans ((ranking_perm s l).filter p).symm).eq_of_pairwise
      (fun a b _ _ => Ranks.antisymm) (List.pairwise_insertionSort _ _) (hsorted.filter p)
  have hsplit : (ranking s l).filter p = topK s k l ++ ((ranking s l).drop k).filter p := by
    have hkept : ((ranking s l).take k).filter p = topK s k l := List.filter_eq_self.mpr h
    rw [← hkept, ← List.filter_append, List.take_append_drop]
  rw [topK, hranking, hsplit]
  rcases le_or_gt k (ranking s l).length with hk | hk
  · exact List.take_left' (List.length_take_of_le hk)
  · rw [List.drop_of_length_le hk.le, List.filter_nil, List.append_nil, topK, List.take_take,
      min_self]

/-- An entry is among the best when few entries rank no later. -/
lemma mem_topK_of_card_le (hnodup : l.Nodup) {a : ι} (ha : a ∈ l) (T : Finset ι)
    (hT : ∀ x ∈ l, Ranks s x a → x ∈ T) (hcard : T.card ≤ k) : a ∈ topK s k l := by
  refine (mem_topK_iff hnodup).mpr ⟨ha, le_trans ?_ hcard⟩
  rw [List.countP_eq_length_filter, ← List.toFinset_card_of_nodup (hnodup.filter _)]
  refine Finset.card_le_card fun x hx => ?_
  obtain ⟨hx, hle⟩ := List.mem_filter.mp (List.mem_toFinset.mp hx)
  exact hT x hx (of_decide_eq_true hle)

/-- The entries that rank no later than one of the best are few. -/
lemma card_le_of_mem_topK (hnodup : l.Nodup) {a : ι} (ha : a ∈ topK s k l) (T : Finset ι)
    (hT : ∀ x ∈ T, x ∈ l ∧ Ranks s x a) : T.card ≤ k := by
  refine le_trans ?_ ((mem_topK_iff hnodup).mp ha).2
  rw [List.countP_eq_length_filter, ← List.toFinset_card_of_nodup (hnodup.filter _)]
  refine Finset.card_le_card fun x hx => ?_
  exact List.mem_toFinset.mpr (List.mem_filter.mpr ⟨(hT x hx).1, decide_eq_true (hT x hx).2⟩)

/-- If enough entries pass a test that every entry ranking before a passing one passes too, the
best entries pass it. -/
lemma forall_mem_topK (hnodup : l.Nodup) {p : ι → Bool}
    (hup : ∀ a b, Ranks s a b → p b = true → p a = true) (hk : k ≤ (l.filter p).length) :
    ∀ a ∈ topK s k l, p a = true := by
  intro a ha
  by_contra hnot
  -- all that passes ranks before `a`, so `a` is at place `k + 1` at the earliest
  have hbefore : ∀ x ∈ l.filter p, x ∈ l ∧ Ranks s x a := by
    intro x hx
    obtain ⟨hx, hpass⟩ := List.mem_filter.mp hx
    exact ⟨hx, (Ranks.total x a).resolve_right fun hax => hnot (hup a x hax hpass)⟩
  have hfresh : a ∉ (l.filter p).toFinset := fun h =>
    hnot (List.mem_filter.mp (List.mem_toFinset.mp h)).2
  have hcard := card_le_of_mem_topK hnodup ha (insert a (l.filter p).toFinset) fun x hx => by
    rcases Finset.mem_insert.mp hx with rfl | hx
    · exact ⟨mem_of_mem_topK ha, Ranks.refl x⟩
    · exact hbefore x (List.mem_toFinset.mp hx)
  rw [Finset.card_insert_of_notMem hfresh, List.toFinset_card_of_nodup (hnodup.filter p)] at hcard
  omega

end TopK
