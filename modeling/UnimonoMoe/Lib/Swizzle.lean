import Mathlib.Algebra.Group.Nat.Defs
import Mathlib.Data.Nat.Notation
import Mathlib.Logic.Function.Basic
import Mathlib.Tactic.Set

/-!
# XOR swizzles of byte addresses, and packed bit fields

Shared memory is laid out with the rows of a tile against each other's banks: the `b` address bits
from bit `m` on are combined with the `b` bits that lie `s` higher.  `swizzle b m s` is this map.
It changes only the `b` bits, and they by a value that it does not change (`swizzle_mid`,
`swizzle_div`, `swizzle_mod`), so it is its own inverse (`swizzle_swizzle`) and permutes every
aligned window of addresses.

A descriptor packs several fields into one word with shifts and `|`, which is the sum of the shifted
fields (`packed_eq`).
-/

namespace Swizzles

/-- The `b` bits of an address from bit `m` on, combined with the `b` bits that lie `s` higher. -/
def swizzle (b m s a : ℕ) : ℕ := a ^^^ (a / 2 ^ (m + s) % 2 ^ b * 2 ^ m)

variable {b m s : ℕ}

/-- The bits below stay. -/
lemma swizzle_mod (a : ℕ) : swizzle b m s a % 2 ^ m = a % 2 ^ m := by
  unfold swizzle
  rw [Nat.xor_mod_two_pow, Nat.mul_mod_left, Nat.xor_zero]

/-- The swizzled bits. -/
lemma swizzle_mid (a : ℕ) : swizzle b m s a / 2 ^ m % 2 ^ b =
    (a / 2 ^ m % 2 ^ b) ^^^ (a / 2 ^ (m + s) % 2 ^ b) := by
  unfold swizzle
  rw [Nat.xor_div_two_pow, Nat.mul_div_cancel _ (Nat.two_pow_pos m), Nat.xor_mod_two_pow,
    Nat.mod_mod]

/-- The bits above stay. -/
lemma swizzle_div (a : ℕ) : swizzle b m s a / 2 ^ (m + b) = a / 2 ^ (m + b) := by
  have hlt : a / 2 ^ (m + s) % 2 ^ b * 2 ^ m < 2 ^ (m + b) := by
    rw [Nat.add_comm m b, Nat.pow_add 2 b m]
    exact Nat.mul_lt_mul_of_pos_right (Nat.mod_lt _ (Nat.two_pow_pos b)) (Nat.two_pow_pos m)
  unfold swizzle
  rw [Nat.xor_div_two_pow, Nat.div_eq_of_lt hlt, Nat.xor_zero]

/-- What a swizzle reads of an address, it does not change. -/
lemma swizzle_key (hs : b ≤ s) (a : ℕ) : swizzle b m s a / 2 ^ (m + s) = a / 2 ^ (m + s) := by
  obtain ⟨k, rfl⟩ := Nat.exists_eq_add_of_le hs
  rw [← Nat.add_assoc, Nat.pow_add, ← Nat.div_div_eq_div_mul, swizzle_div,
    Nat.div_div_eq_div_mul]

/-- A swizzle is its own inverse. -/
theorem swizzle_swizzle (hs : b ≤ s) (a : ℕ) : swizzle b m s (swizzle b m s a) = a := by
  have hkey := swizzle_key (m := m) hs a
  unfold swizzle at hkey ⊢
  rw [hkey, Nat.xor_assoc, Nat.xor_self, Nat.xor_zero]

/-- The swizzle is injective, since it is its own inverse. -/
lemma swizzle_injective (hs : b ≤ s) : Function.Injective (swizzle b m s) :=
  Function.LeftInverse.injective (swizzle_swizzle hs)

/-- The swizzle of an address that is given by its three parts. -/
lemma swizzle_parts {hi mid lo : ℕ} (hmid : mid < 2 ^ b) (hlo : lo < 2 ^ m) :
    swizzle b m s ((hi * 2 ^ b + mid) * 2 ^ m + lo) =
      (hi * 2 ^ b + (mid ^^^ (((hi * 2 ^ b + mid) * 2 ^ m + lo) / 2 ^ (m + s) % 2 ^ b))) * 2 ^ m +
        lo := by
  set a := (hi * 2 ^ b + mid) * 2 ^ m + lo with ha
  have hdiv : a / 2 ^ m = hi * 2 ^ b + mid := by
    rw [ha, Nat.add_comm, Nat.add_mul_div_right _ _ (Nat.two_pow_pos m), Nat.div_eq_of_lt hlo,
      Nat.zero_add]
  have hmod : a % 2 ^ m = lo := by
    rw [ha, Nat.add_comm, Nat.add_mul_mod_self_right, Nat.mod_eq_of_lt hlo]
  have hupper : a / 2 ^ (m + b) = hi := by
    rw [Nat.pow_add, ← Nat.div_div_eq_div_mul, hdiv, Nat.add_comm,
      Nat.add_mul_div_right _ _ (Nat.two_pow_pos b), Nat.div_eq_of_lt hmid, Nat.zero_add]
  have hmiddle : a / 2 ^ m % 2 ^ b = mid := by
    rw [hdiv, Nat.add_comm, Nat.add_mul_mod_self_right, Nat.mod_eq_of_lt hmid]
  -- an address is put together from what is above, in and below the swizzled bits
  have hsplit : ∀ x : ℕ, x = (x / 2 ^ (m + b) * 2 ^ b + x / 2 ^ m % 2 ^ b) * 2 ^ m + x % 2 ^ m := by
    intro x
    rw [Nat.pow_add, ← Nat.div_div_eq_div_mul, Nat.div_add_mod', Nat.div_add_mod']
  rw [hsplit (swizzle b m s a), swizzle_div, swizzle_mid, swizzle_mod, hupper, hmiddle, hmod]

/-! ## Packed fields -/

/-- Two fields side by side in a word. -/
lemma packed_eq {lo hi k : ℕ} (hlo : lo < 2 ^ k) : lo ||| hi <<< k = hi * 2 ^ k + lo := by
  rw [Nat.or_comm, ← Nat.shiftLeft_add_eq_or_of_lt hlo, Nat.shiftLeft_eq]

end Swizzles
