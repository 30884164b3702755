import Mathlib.Algebra.BigOperators.Group.Finset.Basic
import Mathlib.Data.Nat.Bitwise
import Mathlib.Data.Nat.Notation

/-!
# Butterfly reductions

A warp combines the values of its lanes in rounds: in the round with offset `2 ^ k` every lane
combines its value with that of the lane whose number differs in bit `k`.  `butterfly op n x` is
the family of values after the rounds with offsets `2 ^ (n - 1), ..., 2, 1`.

For an operation that picks one of its arguments, and picks one that is at least as good as both,
every lane ends up with the best value among all lanes (`butterfly_mem`, `le_butterfly`).  For a
commutative addition every lane ends up with the sum over all lanes (`butterfly_add`).
-/

namespace Butterfly

variable {α β : Type*}

/-- The values of the lanes after the rounds with offsets `2 ^ (n - 1), ..., 2, 1`. -/
def butterfly (op : α → α → α) : ℕ → (ℕ → α) → ℕ → α
  | 0, x => x
  | n + 1, x => butterfly op n fun lane => op (x lane) (x (lane ^^^ 2 ^ n))

/-- A map that respects the operations can be applied before the rounds or after them. -/
lemma butterfly_map {op : α → α → α} {op' : β → β → β} {f : α → β}
    (hf : ∀ a b, f (op a b) = op' (f a) (f b)) (n : ℕ) (x : ℕ → α) (lane : ℕ) :
    f (butterfly op n x lane) = butterfly op' n (fun i => f (x i)) lane := by
  induction n generalizing x with
  | zero => rfl
  | succ n ih =>
    have hround := ih fun i => op (x i) (x (i ^^^ 2 ^ n))
    simp only [hf] at hround
    exact hround

/-- Flipping the top bit of a number that has it leaves a smaller number. -/
lemma xor_two_pow_lt {n s : ℕ} (hlo : 2 ^ n ≤ s) (hhi : s < 2 ^ (n + 1)) : s ^^^ 2 ^ n < 2 ^ n := by
  refine Nat.lt_pow_two_of_testBit _ fun i hi => ?_
  rw [Nat.testBit_xor]
  rcases Nat.eq_or_lt_of_le hi with rfl | hlt
  · have htop : s.testBit n = true := by
      obtain ⟨t, rfl⟩ := Nat.exists_eq_add_of_le hlo
      rw [Nat.testBit_two_pow_add_eq, Nat.testBit_lt_two_pow (by omega)]
      rfl
    rw [htop, Nat.testBit_two_pow_self]
    rfl
  · have hs : s.testBit i = false :=
      Nat.testBit_lt_two_pow (hhi.trans_le (Nat.pow_le_pow_right Nat.two_pos hlt))
    rw [hs, Nat.testBit_two_pow_of_ne (by omega)]
    rfl

section Select

variable {op : α → α → α} {n : ℕ} {x : ℕ → α} {lane : ℕ}

/-- A selecting reduction yields the value of some lane, up to bit flips below `n`. -/
lemma exists_butterfly_eq (hsel : ∀ a b, op a b = a ∨ op a b = b) :
    ∃ s < 2 ^ n, butterfly op n x lane = x (lane ^^^ s) := by
  induction n generalizing x with
  | zero => exact ⟨0, Nat.one_pos, by rw [Nat.xor_zero]; rfl⟩
  | succ n ih =>
    obtain ⟨s, hs, heq⟩ := ih (x := fun lane => op (x lane) (x (lane ^^^ 2 ^ n)))
    have hpow : 2 ^ n < 2 ^ (n + 1) := Nat.pow_lt_pow_right Nat.one_lt_two (Nat.lt_succ_self n)
    rcases hsel (x (lane ^^^ s)) (x (lane ^^^ s ^^^ 2 ^ n)) with h | h
    · exact ⟨s, hs.trans hpow, heq.trans h⟩
    · refine ⟨s ^^^ 2 ^ n, Nat.xor_lt_two_pow (hs.trans hpow) hpow, ?_⟩
      rw [← Nat.xor_assoc]
      exact heq.trans h

/-- A selecting reduction yields the value of some lane. -/
theorem butterfly_mem (hsel : ∀ a b, op a b = a ∨ op a b = b) (hlane : lane < 2 ^ n) :
    ∃ i < 2 ^ n, butterfly op n x lane = x i := by
  obtain ⟨s, hs, heq⟩ : ∃ s < 2 ^ n, butterfly op n x lane = x (lane ^^^ s) :=
    exists_butterfly_eq hsel
  exact ⟨lane ^^^ s, Nat.xor_lt_two_pow hlane hs, heq⟩

variable {le : α → α → Prop}

/-- The result at a lane is at least as good as every lane reachable by bit flips below `n`. -/
lemma le_butterfly_xor (htrans : ∀ a b c, le a b → le b c → le a c)
    (hleft : ∀ a b, le a (op a b)) (hright : ∀ a b, le b (op a b)) (hrefl : ∀ a, le a a) {s : ℕ}
    (hs : s < 2 ^ n) : le (x (lane ^^^ s)) (butterfly op n x lane) := by
  induction n generalizing x s with
  | zero =>
    obtain rfl : s = 0 := by simpa using hs
    rw [Nat.xor_zero]
    exact hrefl _
  | succ n ih =>
    rcases Nat.lt_or_ge s (2 ^ n) with hlt | hge
    · exact htrans _ _ _ (hleft _ _) (ih (x := fun lane => op (x lane) (x (lane ^^^ 2 ^ n))) hlt)
    · have hflip := ih (x := fun lane => op (x lane) (x (lane ^^^ 2 ^ n))) (xor_two_pow_lt hge hs)
      refine htrans _ _ _ ?_ hflip
      have hback : lane ^^^ (s ^^^ 2 ^ n) ^^^ 2 ^ n = lane ^^^ s := by
        rw [← Nat.xor_assoc, Nat.xor_assoc, Nat.xor_self, Nat.xor_zero]
      have hr := hright (x (lane ^^^ (s ^^^ 2 ^ n))) (x (lane ^^^ (s ^^^ 2 ^ n) ^^^ 2 ^ n))
      rw [hback] at hr ⊢
      exact hr

/-- The result at a lane is at least as good as the value of every lane. -/
theorem le_butterfly (htrans : ∀ a b c, le a b → le b c → le a c)
    (hleft : ∀ a b, le a (op a b)) (hright : ∀ a b, le b (op a b)) (hrefl : ∀ a, le a a) {i : ℕ}
    (hlane : lane < 2 ^ n) (hi : i < 2 ^ n) : le (x i) (butterfly op n x lane) := by
  have h : le (x (lane ^^^ (lane ^^^ i))) (butterfly op n x lane) :=
    le_butterfly_xor htrans hleft hright hrefl (Nat.xor_lt_two_pow hlane hi)
  rwa [← Nat.xor_assoc, Nat.xor_self, Nat.zero_xor] at h

/-- The result of an operation above both of its arguments is above the value of every lane. -/
lemma le_butterfly_of_le [Preorder α] (hleft : ∀ a b, a ≤ op a b) (hright : ∀ a b, b ≤ op a b)
    {i : ℕ} (hlane : lane < 2 ^ n) (hi : i < 2 ^ n) : x i ≤ butterfly op n x lane :=
  @le_butterfly α op n x lane (· ≤ ·) (fun _ _ _ => le_trans) hleft hright le_refl i hlane hi

end Select

/-! ## Sums -/

section Sum

variable [AddCommMonoid α]

/-- Setting the next bit of a number below `2 ^ n` adds `2 ^ n`. -/
lemma xor_two_pow_of_lt {n s : ℕ} (hs : s < 2 ^ n) : s ^^^ 2 ^ n = 2 ^ n + s := by
  have hge : 2 ^ n ≤ 2 ^ n + s := Nat.le_add_right _ _
  refine Nat.eq_of_testBit_eq fun i => ?_
  rw [Nat.testBit_xor]
  rcases Nat.lt_trichotomy i n with hlt | rfl | hgt
  · rw [Nat.testBit_two_pow_of_ne (by omega), Bool.xor_false,
      Nat.testBit_two_pow_add_gt hlt]
  · rw [Nat.testBit_two_pow_self, Nat.testBit_two_pow_add_eq, Bool.xor_true]
  · have hpow : 2 ^ (n + 1) ≤ 2 ^ i := Nat.pow_le_pow_right Nat.two_pos hgt
    have hsum : 2 ^ n + s < 2 ^ i := by
      have hdouble : 2 ^ (n + 1) = 2 ^ n * 2 := Nat.pow_succ 2 n
      omega
    rw [Nat.testBit_lt_two_pow hsum, Nat.testBit_lt_two_pow (by omega),
      Nat.testBit_two_pow_of_ne (by omega)]
    rfl

/-- The sum at a lane runs over the lanes reachable by bit flips below `n`. -/
lemma butterfly_add_xor (n : ℕ) (x : ℕ → α) (lane : ℕ) :
    butterfly (· + ·) n x lane = ∑ s ∈ Finset.range (2 ^ n), x (lane ^^^ s) := by
  induction n generalizing x with
  | zero => simp [butterfly]
  | succ n ih =>
    have hround := ih fun i => x i + x (i ^^^ 2 ^ n)
    have htop : ∑ s ∈ Finset.range (2 ^ n), x (lane ^^^ s ^^^ 2 ^ n) =
        ∑ s ∈ Finset.range (2 ^ n), x (lane ^^^ (2 ^ n + s)) := by
      refine Finset.sum_congr rfl fun s hs => ?_
      rw [Nat.xor_assoc, xor_two_pow_of_lt (Finset.mem_range.mp hs)]
    rw [Nat.pow_succ, Nat.mul_two, Finset.sum_range_add, ← htop, ← Finset.sum_add_distrib]
    exact hround

/-- Every lane ends up with the sum over all lanes. -/
theorem butterfly_add {n lane : ℕ} (x : ℕ → α) (hlane : lane < 2 ^ n) :
    butterfly (· + ·) n x lane = ∑ i ∈ Finset.range (2 ^ n), x i := by
  have hmem : ∀ s ∈ Finset.range (2 ^ n), lane ^^^ s ∈ Finset.range (2 ^ n) := fun s hs =>
    Finset.mem_range.mpr (Nat.xor_lt_two_pow hlane (Finset.mem_range.mp hs))
  have hback : ∀ s ∈ Finset.range (2 ^ n), lane ^^^ (lane ^^^ s) = s := fun s _ => by
    rw [← Nat.xor_assoc, Nat.xor_self, Nat.zero_xor]
  rw [butterfly_add_xor]
  exact Finset.sum_nbij' (lane ^^^ ·) (lane ^^^ ·) hmem hmem hback hback fun _ _ => rfl

end Sum

end Butterfly
