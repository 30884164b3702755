import Mathlib.Algebra.BigOperators.Intervals
import Mathlib.Algebra.BigOperators.Ring.Finset
import Mathlib.Data.Int.Notation
import Mathlib.Data.List.GetD

/-!
# Stable partitions

A stable partition moves the entries that satisfy `p` to the front and keeps their order.  Two ways
to compute one are a stable sort by the key `p` (`mergeSort_key`) and a selection by ranks: the
`j`-th entry of the front part is the one whose inclusive prefix count is `j + 1`
(`sum_select_eq`).
-/

namespace StablePartition

/-! ## By sorting -/

section Sorting

variable {α : Type*} (p : α → Bool)

/-- The key of a sort that moves the entries satisfying `p` to the front. -/
def key (a : α) : ℕ := if p a then 0 else 1

/-- A list sorted by the key has the entries that satisfy `p` in front. -/
lemma eq_filter_append_of_pairwise {l : List α}
    (h : l.Pairwise fun a b => decide (key p a ≤ key p b) = true) :
    l = l.filter p ++ l.filter fun a => !p a := by
  induction l with
  | nil => rfl
  | cons a l ih =>
    obtain ⟨ha, hl⟩ := List.pairwise_cons.mp h
    cases hp : p a with
    | true =>
      rw [List.filter_cons_of_pos hp, List.filter_cons_of_neg (by simp [hp]), List.cons_append,
        ← ih hl]
    | false =>
      -- nothing behind `a` satisfies `p`
      have hnone : ∀ b ∈ l, p b = false := fun b hb => by
        have hle := of_decide_eq_true (ha b hb)
        by_contra hpb
        rw [Bool.not_eq_false] at hpb
        simp [key, hp, hpb] at hle
      have hfront : l.filter p = [] := List.filter_eq_nil_iff.mpr fun b hb => by simp [hnone b hb]
      rw [List.filter_cons_of_neg (by simp [hp]), List.filter_cons_of_pos (by simp [hp]), hfront,
        List.nil_append, List.filter_eq_self.mpr fun b hb => by simp [hnone b hb]]

/-- A stable sort by the key is the stable partition. -/
theorem mergeSort_key (l : List α) :
    l.mergeSort (fun a b => decide (key p a ≤ key p b)) =
      l.filter p ++ l.filter fun a => !p a := by
  have htrans : ∀ a b c : α, decide (key p a ≤ key p b) = true →
      decide (key p b ≤ key p c) = true → decide (key p a ≤ key p c) = true := fun a b c hab hbc =>
    decide_eq_true ((of_decide_eq_true hab).trans (of_decide_eq_true hbc))
  have htotal : ∀ a b : α, (decide (key p a ≤ key p b) || decide (key p b ≤ key p a)) = true :=
    fun a b => by simpa using le_total (key p a) (key p b)
  -- entries of one key keep their order
  have hkeep : ∀ q : α → Bool, (∀ a, q a = true → ∀ b, q b = true → key p a = key p b) →
      (l.mergeSort fun a b => decide (key p a ≤ key p b)).filter q = l.filter q := by
    intro q hq
    have hsorted : (l.filter q).Pairwise fun a b => decide (key p a ≤ key p b) = true :=
      List.pairwise_of_forall_mem_list fun a ha b hb => decide_eq_true
        (hq a (List.of_mem_filter ha) b (List.of_mem_filter hb)).le
    have hsub := (List.sublist_mergeSort htrans htotal hsorted List.filter_sublist).filter q
    simp only [List.filter_filter, Bool.and_self] at hsub
    exact (hsub.eq_of_length ((List.mergeSort_perm l _).filter q).length_eq.symm).symm
  rw [eq_filter_append_of_pairwise p (List.pairwise_mergeSort htrans htotal l), hkeep p, hkeep]
  · intro a ha b hb
    rw [Bool.not_eq_true'] at ha hb
    simp [key, ha, hb]
  · intro a ha b hb
    simp [key, ha, hb]

end Sorting

/-! ## By ranks -/

section Ranks

variable {W : Type*} (p : ℕ → Bool)

/-- The inclusive prefix count of `p`, less one: the rank of an entry that satisfies `p`. -/
def rank (c : ℕ) : ℤ := (∑ i ∈ Finset.range (c + 1), if p i then 1 else 0) - 1

/-- Counting the entries of the front part. -/
lemma sum_one_eq_length (n : ℕ) :
    (∑ i ∈ Finset.range n, if p i then 1 else 0) = ((List.range n).filter p).length := by
  induction n with
  | zero => rfl
  | succ n ih =>
    rw [Finset.sum_range_succ, ih, List.range_succ, List.filter_append, List.length_append]
    cases hp : p n <;> simp [hp]

/-- The prefix counts are lengths of front parts. -/
lemma rank_eq (c : ℕ) : rank p c = (((List.range (c + 1)).filter p).length : ℤ) - 1 := by
  rw [rank, ← sum_one_eq_length]
  push_cast
  rfl

/-- The entry of rank `j`, in the front part or not there. -/
theorem sum_select_eq [AddCommMonoid W] (f : ℕ → W) (n j : ℕ) :
    (∑ c ∈ Finset.range n, if rank p c = j ∧ p c = true then f c else 0) =
      (((List.range n).filter p).map f).getD j 0 := by
  induction n with
  | zero => rfl
  | succ n ih =>
    rw [Finset.sum_range_succ, ih, List.range_succ, List.filter_append, List.map_append]
    cases hp : p n with
    | false => simp [hp]
    | true =>
      have hrank : rank p n = ((List.range n).filter p).length := by
        rw [rank_eq, List.range_succ, List.filter_append]
        simp [hp]
      rw [hrank, List.filter_singleton, hp, cond_true, List.map_singleton]
      rcases lt_trichotomy j ((List.range n).filter p).length with hj | hj | hj
      · rw [List.getD_append _ _ _ _ (by rwa [List.length_map]), if_neg (by omega), add_zero]
      · subst hj
        rw [List.getD_append_right _ _ _ _ (by rw [List.length_map]), if_pos ⟨rfl, rfl⟩,
          List.getD_eq_default _ _ (by rw [List.length_map]), zero_add, List.length_map,
          Nat.sub_self]
        rfl
      · have hlen : ((List.range n).filter p).length + 1 ≤ j := hj
        rw [List.getD_eq_default _ _ (by rw [List.length_map]; omega), if_neg (by omega), add_zero,
          List.getD_eq_default _ _ (by simpa using hlen)]

end Ranks

end StablePartition
