import Mathlib.Algebra.BigOperators.Intervals
import Mathlib.Algebra.Order.BigOperators.Group.Finset
import UnimonoMoe.Lib.Loops

/-!
# Prefix sums, scans and packed regions

`scanLoop` is the Hillis–Steele scan: in each round every position adds what lies `d` positions
below it, and `d` doubles.  After the loop every position holds the sum of all values up to it
(`scanLoop_eq`).

`offset c e` is the exclusive prefix sum.  The regions `[offset c e, offset c (e + 1))`, packed one
after the other, hold `c e` places each, and every place below the total lies in exactly one of
them (`exists_unique_region`).
-/

namespace PrefixSum

open Finset

variable {c x : ℕ → ℕ} {d e n fuel : ℕ}

/-! ## The scan -/

/-- One round of the scan: all positions read before any writes. -/
def scanStep (d : ℕ) (x : ℕ → ℕ) : ℕ → ℕ := fun e => x e + if d ≤ e then x (e - d) else 0

/-- `for (d = ...; d < n; d <<= 1)`, one round of the scan each. -/
def scanLoop (n : ℕ) : ℕ → ℕ → (ℕ → ℕ) → ℕ → ℕ
  | 0, _, x => x
  | fuel + 1, d, x => if d < n then scanLoop n fuel (2 * d) (scanStep d x) else x

/-- The sum of the last `d` values up to position `e`. -/
def window (c : ℕ → ℕ) (d : ℕ) (e : ℕ) : ℕ := ∑ j ∈ Ico (e + 1 - d) (e + 1), c j

/-- A window of one value. -/
lemma window_one (c : ℕ → ℕ) : window c 1 = c := by
  ext e
  simp [window]

/-- A round doubles the width of the windows. -/
lemma scanStep_window (c : ℕ → ℕ) (d : ℕ) : scanStep d (window c d) = window c (2 * d) := by
  ext e
  unfold scanStep window
  split_ifs with hd
  · rw [show e - d + 1 - d = e + 1 - 2 * d by omega, show e - d + 1 = e + 1 - d by omega,
      Nat.add_comm, sum_Ico_consecutive _ (by omega) (by omega)]
  · rw [show e + 1 - d = 0 by omega, show e + 1 - 2 * d = 0 by omega, Nat.add_zero]

/-- A window that is wide enough is the whole prefix. -/
lemma window_of_le (h : e < d) : window c d e = ∑ j ∈ range (e + 1), c j := by
  unfold window
  rw [show e + 1 - d = 0 by omega, range_eq_Ico]

/-- The loop invariant: at stride `d` every position holds its window of width `d`. -/
lemma scanLoop_window (hd : 0 < d) (hfuel : n ≤ d + fuel) (he : e < n) :
    scanLoop n fuel d (window c d) e = ∑ j ∈ range (e + 1), c j := by
  induction fuel generalizing d with
  | zero => exact window_of_le (by omega)
  | succ fuel ih =>
    unfold scanLoop
    split_ifs with hdn
    · rw [scanStep_window]
      exact ih (by omega) (by omega)
    · exact window_of_le (by omega)

/-- After the scan every position below `n` holds the sum of all values up to it. -/
theorem scanLoop_eq (c : ℕ → ℕ) (he : e < n) :
    scanLoop n n 1 c e = ∑ j ∈ range (e + 1), c j := by
  have h : scanLoop n n 1 (window c 1) e = ∑ j ∈ range (e + 1), c j :=
    scanLoop_window Nat.one_pos (by omega) he
  rwa [window_one] at h

/-! ## Packed regions -/

/-- The exclusive prefix sum. -/
def offset (c : ℕ → ℕ) (e : ℕ) : ℕ := ∑ j ∈ range e, c j

/-- The first offset. -/
@[simp] lemma offset_zero : offset c 0 = 0 := rfl

/-- The next offset. -/
lemma offset_succ : offset c (e + 1) = offset c e + c e := sum_range_succ _ _

/-- The offsets do not decrease. -/
lemma offset_mono : Monotone (offset c) :=
  monotone_nat_of_le_succ fun _ => by rw [offset_succ]; exact Nat.le_add_right _ _

/-- The values after `k` rounds of the scan. -/
def scanRounds (x : ℕ → ℕ) : ℕ → ℕ → ℕ
  | 0 => x
  | k + 1 => scanStep (2 ^ k) (scanRounds x k)

/-- After `k` rounds an entry is the sum of the `2 ^ k` values up to it. -/
lemma scanRounds_eq_window (c : ℕ → ℕ) (k : ℕ) : scanRounds c k = window c (2 ^ k) := by
  induction k with
  | zero => exact (window_one c).symm
  | succ k ih =>
    rw [scanRounds, ih, scanStep_window, Nat.pow_succ']

/-- No value of the scan exceeds the total of the values up to its position. -/
lemma scanRounds_le (c : ℕ → ℕ) (k e : ℕ) : scanRounds c k e ≤ offset c (e + 1) := by
  rw [scanRounds_eq_window]
  refine sum_le_sum_of_subset fun j hj => ?_
  rw [mem_range]
  exact (mem_Ico.mp hj).2

/-- The inclusive prefix sum less the own value is the exclusive one. -/
lemma sum_range_succ_sub (c : ℕ → ℕ) (e : ℕ) : ∑ j ∈ range (e + 1), c j - c e = offset c e := by
  rw [sum_range_succ]
  exact Nat.add_sub_cancel _ _

/-- The places of region `e`. -/
def InRegion (c : ℕ → ℕ) (e x : ℕ) : Prop := offset c e ≤ x ∧ x < offset c e + c e

/-- Every place below the total lies in exactly one region. -/
theorem exists_unique_region {x : ℕ} (hx : x < offset c n) :
    ∃! e, e < n ∧ InRegion c e x := by
  obtain ⟨e, ⟨he, hlo, hhi⟩, huniq⟩ :=
    Loops.exists_unique_piece (offset_mono (c := c)) (Nat.zero_le x) hx
  refine ⟨e, ⟨he, hlo, by rwa [← offset_succ]⟩, fun e' ⟨he', hlo', hhi'⟩ => ?_⟩
  exact huniq e' ⟨he', hlo', by rwa [offset_succ]⟩

/-- Two regions that share a place are the same. -/
lemma region_unique {e' x : ℕ} (h : InRegion c e x) (h' : InRegion c e' x) : e = e' := by
  rcases Nat.lt_trichotomy e e' with hlt | heq | hgt
  · have : offset c (e + 1) ≤ offset c e' := offset_mono hlt
    rw [offset_succ] at this
    have := h.2
    have := h'.1
    omega
  · exact heq
  · have : offset c (e' + 1) ≤ offset c e := offset_mono hgt
    rw [offset_succ] at this
    have := h'.2
    have := h.1
    omega

/-- A place of a region below `n` lies below the total. -/
lemma InRegion.lt_total {x : ℕ} (h : InRegion c e x) (he : e < n) : x < offset c n := by
  have hle : offset c (e + 1) ≤ offset c n := offset_mono he
  rw [offset_succ] at hle
  exact h.2.trans_le hle

/-! ## Tiles -/

/-- The tiles of height `m` that region `e` needs. -/
def tiles (c : ℕ → ℕ) (m : ℕ) (e : ℕ) : ℕ := (c e + m - 1) / m

/-- A row of a region lies in one of its tiles. -/
lemma div_lt_tiles {m k : ℕ} (hm : 0 < m) (hk : k < c e) : k / m < tiles c m e := by
  unfold tiles
  rw [Nat.div_lt_iff_lt_mul hm]
  have h := Nat.div_add_mod (c e + m - 1) m
  have hmod := Nat.mod_lt (c e + m - 1) hm
  rw [Nat.mul_comm] at h
  omega

/-- A tile of a region has a row. -/
lemma mul_lt_of_lt_tiles {m i : ℕ} (hm : 0 < m) (hi : i < tiles c m e) : i * m < c e := by
  unfold tiles at hi
  rw [Nat.lt_div_iff_mul_lt hm] at hi
  omega

/-- The tiles of all regions are at most one a region more than the places would fill. -/
theorem offset_tiles_le {m : ℕ} (hm : 0 < m) (c : ℕ → ℕ) (n : ℕ) :
    offset (tiles c m) n ≤ offset c n / m + n := by
  rw [← Nat.add_mul_div_right _ _ hm, Nat.le_div_iff_mul_le hm]
  induction n with
  | zero => simp
  | succ n ih =>
    have htile : tiles c m n * m ≤ c n + m := by
      have := Nat.div_mul_le_self (c n + m - 1) m
      unfold tiles
      omega
    rw [offset_succ, offset_succ, Nat.add_mul, Nat.add_mul, Nat.one_mul]
    omega

end PrefixSum
