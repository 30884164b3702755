import Mathlib

/-!
# The order of the binary32 numbers

`Float32` is IEEE binary32 with its logical model.  Its comparisons `<` and `==` are false as soon
as one side is not a number, and identify the two zeros.  `Binary32.rank` sends a number to a
linearly ordered key, by class, exponent and significand, and what is not a number below all of
them; the comparisons are those of the keys (`lt_iff`, `beq_iff`).
-/

namespace Binary32

open Float.Model Float.Model.UnpackedFloat

/-- The keys: class, exponent, significand. -/
abbrev Key : Type := ℤ ×ₗ ℤ ×ₗ ℤ

/-- A key from its parts. -/
def key (c e m : ℤ) : Key := toLex (c, toLex (e, m))

/-- Keys are compared like their parts, the class first. -/
lemma key_lt_key {c e m c' e' m' : ℤ} : key c e m < key c' e' m' ↔
    c < c' ∨ (c = c' ∧ (e < e' ∨ (e = e' ∧ m < m'))) := by
  simp only [key, Prod.Lex.toLex_lt_toLex]

/-- A key determines its parts. -/
lemma key_inj {c e m c' e' m' : ℤ} : key c e m = key c' e' m' ↔ c = c' ∧ e = e' ∧ m = m' := by
  simp only [key, EmbeddingLike.apply_eq_iff_eq, Prod.mk.injEq]

/-- The key of an unpacked number. -/
def unpackedKey : UnpackedFloat → Key
  | .notANumber => key (-3) 0 0
  | .infinity .negative => key (-2) 0 0
  | .finite .negative m e _ => key (-1) (-e) (-m)
  | .zero _ => key 0 0 0
  | .finite .positive m e _ => key 1 e m
  | .infinity .positive => key 2 0 0

/-- The key of a number. -/
def rank (x : Float32) : Key := unpackedKey x.toModel.unpack

/-- `x` is not a number. -/
def IsNaN (x : Float32) : Prop := x.toModel.unpack = .notANumber

/-- What is not a number is below everything else. -/
lemma unpackedKey_notANumber_lt {u : UnpackedFloat} (h : u ≠ .notANumber) :
    unpackedKey .notANumber < unpackedKey u := by
  rcases u with (_ | _) | _ | _ | ⟨_ | _, _, _, _⟩
  case notANumber => exact absurd rfl h
  all_goals simp [unpackedKey, key_lt_key]

/-- A sign equals itself. -/
lemma compare_sign_self (s : Sign) : compare s s = .eq := by
  cases s <;> rfl

/-- The negative sign is the lower one. -/
lemma compare_negative_positive : compare Sign.negative Sign.positive = .lt := rfl

/-- The positive sign is the higher one. -/
lemma compare_positive_negative : compare Sign.positive Sign.negative = .gt := rfl

/-- The comparison of two numbers finds the first one lower when its key is. -/
lemma compare_eq_lt_iff (u v : UnpackedFloat) : u.compare v = some .lt ↔
    u ≠ .notANumber ∧ v ≠ .notANumber ∧ unpackedKey u < unpackedKey v := by
  rcases u with (_ | _) | _ | _ | ⟨_ | _, m, e, _⟩ <;>
    rcases v with (_ | _) | _ | _ | ⟨_ | _, m', e', _⟩ <;>
      simp [UnpackedFloat.compare, unpackedKey, key_lt_key, compare_sign_self,
        compare_negative_positive, compare_positive_negative, Ordering.then_eq_lt,
        Ordering.then_eq_gt, compare_lt_iff_lt, compare_gt_iff_gt]

/-- It finds them equal when their keys are. -/
lemma compare_eq_eq_iff (u v : UnpackedFloat) : u.compare v = some .eq ↔
    u ≠ .notANumber ∧ v ≠ .notANumber ∧ unpackedKey u = unpackedKey v := by
  rcases u with (_ | _) | _ | _ | ⟨_ | _, m, e, _⟩ <;>
    rcases v with (_ | _) | _ | _ | ⟨_ | _, m', e', _⟩ <;>
      simp [UnpackedFloat.compare, unpackedKey, key_inj, compare_sign_self,
        compare_negative_positive, compare_positive_negative, Ordering.then_eq_eq]

variable {x y : Float32}

/-- What ranks above something is a number. -/
lemma not_isNaN_of_lt (h : rank x < rank y) : ¬ IsNaN y := by
  intro hy
  have hbottom : rank y = unpackedKey .notANumber := congrArg unpackedKey hy
  rw [hbottom] at h
  by_cases hx : x.toModel.unpack = .notANumber
  · exact absurd (congrArg unpackedKey hx) h.ne
  · exact lt_asymm h (unpackedKey_notANumber_lt hx)

/-- `x < y`. -/
theorem lt_iff : x.lt y = true ↔ ¬ IsNaN x ∧ ¬ IsNaN y ∧ rank x < rank y := by
  refine Iff.trans ?_ (compare_eq_lt_iff x.toModel.unpack y.toModel.unpack)
  exact decide_eq_true_iff.trans beq_iff_eq

/-- `x == y`. -/
theorem beq_iff : x.beq y = true ↔ ¬ IsNaN x ∧ ¬ IsNaN y ∧ rank x = rank y :=
  Iff.trans (beq_iff_eq (a := x.toModel.unpack.compare y.toModel.unpack)) (compare_eq_eq_iff _ _)

end Binary32
