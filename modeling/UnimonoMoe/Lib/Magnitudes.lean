import UnimonoMoe.Lib.Binary32
import UnimonoMoe.Lib.Loops

/-!
# Magnitudes by their bit patterns

A binary32 number that is not negative is ordered like its bit pattern, so a running maximum of
absolute values may be kept in an integer.  `bits` is the bit pattern and `IsMagnitude` says that
it is one between zero and infinity; `lt_iff_bits_lt` compares magnitudes.  `fabsf` and `fmaxf` are
the functions of C, `intMax` is the maximum of two numbers as signed integers.  `absBits` is what a
number counts in a maximum of absolute values: a bit pattern, and nothing for what is not a number.
Where nothing but such values may come together, an `AbsValue` has a `place` in the order that
`fmaxf` keeps.

`value` is the number that is meant, as a fraction.
-/

namespace Binary32

open Float.Model Float.Model.UnpackedFloat

/-! ## Fields -/

/-- The bit pattern. -/
def bits (x : Float32) : ℕ := x.toBits.toNat

/-- The bit pattern of infinity. -/
def infBits : ℕ := 0x7F800000

/-- The least normal number, `FLT_MIN` of C. -/
def fltMin : Float32 := Float32.ofBits 0x00800000

/-- The sign of a number. -/
def sign (x : Float32) : Sign :=
  Sign.ofBitVec (@unpackSign Format.binary32 x.toModel.toBits.toBitVec)

/-- Different numbers have different bits. -/
lemma bits_injective : Function.Injective bits := by
  rintro ⟨x, hx⟩ ⟨y, hy⟩ h
  obtain rfl : x = y := UInt32.toNat_inj.mp h
  rfl

/-- A number has 32 bits. -/
lemma bits_lt (x : Float32) : bits x < 2 ^ 32 := x.toModel.toBits.toNat_lt

section Fields

variable (b : BitVec 32)

/-- The exponent field is eight bits from bit 23 on. -/
lemma toNat_unpackExponent :
    (@unpackExponent Format.binary32 b).toNat = b.toNat / 2 ^ 23 % 2 ^ 8 := by
  simp [unpackExponent, BitVec.extractLsb_toNat, Nat.shiftRight_eq_div_pow]

/-- The mantissa field is the low 23 bits. -/
lemma toNat_unpackMantissa : (@unpackMantissa Format.binary32 b).toNat = b.toNat % 2 ^ 23 := by
  simp [unpackMantissa, BitVec.extractLsb_toNat, Nat.shiftRight_eq_div_pow]

/-- The sign is the top bit. -/
lemma toNat_unpackSign : (@unpackSign Format.binary32 b).toNat = b.toNat / 2 ^ 31 % 2 := by
  simp [unpackSign, BitVec.extractLsb_toNat, Nat.shiftRight_eq_div_pow]

/-- The exponent field of the infinities and of what is not a number. -/
lemma unpackExponent_eq_neg_one_iff :
    @unpackExponent Format.binary32 b = -1#_ ↔ b.toNat / 2 ^ 23 % 2 ^ 8 = 255 := by
  rw [← toNat_unpackExponent, ← BitVec.toNat_inj]
  rfl

/-- The exponent field of zero and of the subnormal numbers. -/
lemma unpackExponent_eq_zero_iff :
    @unpackExponent Format.binary32 b = 0#_ ↔ b.toNat / 2 ^ 23 % 2 ^ 8 = 0 := by
  rw [← toNat_unpackExponent, ← BitVec.toNat_inj]
  rfl

/-- The mantissa field is empty. -/
lemma unpackMantissa_eq_zero_iff :
    @unpackMantissa Format.binary32 b = 0#_ ↔ b.toNat % 2 ^ 23 = 0 := by
  rw [← toNat_unpackMantissa, ← BitVec.toNat_inj]
  rfl

/-- The leading one of a normal number. -/
lemma toNat_leading_one {m : ℕ} (b : BitVec m) : (1#1 ++ b).toNat = 2 ^ m + b.toNat := by
  have hone : (1#1).toNat <<< m = 2 ^ m * 1 := by simp [Nat.shiftLeft_eq]
  rw [BitVec.toNat_append, hone, ← Nat.two_pow_add_eq_or_of_lt b.isLt, Nat.mul_one]

end Fields

/-- A number unpacked, by its exponent field and its mantissa field. -/
lemma unpack_cases (x : Float32) :
    (bits x / 2 ^ 23 % 2 ^ 8 = 255 ∧ bits x % 2 ^ 23 = 0 ∧
      x.toModel.unpack = .infinity (sign x)) ∨
    (bits x / 2 ^ 23 % 2 ^ 8 = 255 ∧ bits x % 2 ^ 23 ≠ 0 ∧ x.toModel.unpack = .notANumber) ∨
    (bits x / 2 ^ 23 % 2 ^ 8 = 0 ∧ bits x % 2 ^ 23 = 0 ∧ x.toModel.unpack = .zero (sign x)) ∨
    (∃ h, bits x / 2 ^ 23 % 2 ^ 8 = 0 ∧
      x.toModel.unpack = .finite (sign x) (bits x % 2 ^ 23) (-149) h) ∨
    (∃ h, bits x / 2 ^ 23 % 2 ^ 8 ≠ 0 ∧ bits x / 2 ^ 23 % 2 ^ 8 ≠ 255 ∧
      x.toModel.unpack = .finite (sign x) (2 ^ 23 + bits x % 2 ^ 23)
        ((bits x / 2 ^ 23 % 2 ^ 8 : ℕ) - 150) h) := by
  have hinf := unpackExponent_eq_neg_one_iff x.toModel.toBits.toBitVec
  have hsub := unpackExponent_eq_zero_iff x.toModel.toBits.toBitVec
  have hzero := unpackMantissa_eq_zero_iff x.toModel.toBits.toBitVec
  have hexp := toNat_unpackExponent x.toModel.toBits.toBitVec
  have hman := toNat_unpackMantissa x.toModel.toBits.toBitVec
  have hbits : x.toModel.toBits.toBitVec.toNat = bits x := rfl
  rw [hbits] at hinf hsub hzero hexp hman
  unfold Float32.Model.unpack UnpackedFloat.unpack sign
  dsimp only
  split_ifs with h1 h2 h3 h4
  · exact Or.inl ⟨hinf.mp h1, hzero.mp h2, rfl⟩
  · exact Or.inr (Or.inl ⟨hinf.mp h1, fun h => h2 (hzero.mpr h), rfl⟩)
  · exact Or.inr (Or.inr (Or.inl ⟨hsub.mp h3, hzero.mp h4, rfl⟩))
  · refine Or.inr (Or.inr (Or.inr (Or.inl ⟨?_, hsub.mp h3, ?_⟩)))
    · exact Nat.pos_of_ne_zero fun h => h4 (hzero.mpr h)
    · rw [UnpackedFloat.finite.injEq]
      refine ⟨rfl, hman, ?_⟩
      rw [hexp, hsub.mp h3]
      rfl
  · refine Or.inr (Or.inr (Or.inr (Or.inr ⟨by omega, fun h => h3 (hsub.mpr h),
      fun h => h1 (hinf.mpr h), ?_⟩)))
    rw [UnpackedFloat.finite.injEq]
    refine ⟨rfl, ?_, ?_⟩
    · rw [← hman]
      exact toNat_leading_one _
    · rw [hexp]
      rfl

/-- What is not a number, by its bit pattern. -/
lemma isNaN_iff {x : Float32} : IsNaN x ↔ infBits < bits x % 2 ^ 31 := by
  have hlt := bits_lt x
  unfold IsNaN infBits
  rcases unpack_cases x with ⟨h, h', hu⟩ | ⟨h, h', hu⟩ | ⟨h, h', hu⟩ | ⟨hm, h, hu⟩ | ⟨_, h, h', hu⟩
  · simp only [hu, reduceCtorEq, false_iff]
    omega
  · simp only [hu, true_iff]
    omega
  all_goals
    simp only [hu, reduceCtorEq, false_iff]
    omega

instance : DecidablePred IsNaN := fun _ => decidable_of_iff _ isNaN_iff.symm

/-! ## The order of the magnitudes -/

/-- A number that is not negative: from zero to infinity. -/
def IsMagnitude (x : Float32) : Prop := bits x ≤ infBits

/-- A magnitude is a number. -/
lemma IsMagnitude.not_isNaN {x : Float32} (hx : IsMagnitude x) : ¬IsNaN x := by
  rw [isNaN_iff]
  unfold IsMagnitude infBits at *
  omega

/-- A magnitude has the positive sign. -/
lemma IsMagnitude.sign {x : Float32} (hx : IsMagnitude x) : sign x = .positive := by
  have hsign : @unpackSign Format.binary32 x.toModel.toBits.toBitVec = 0#1 := by
    have hlt : x.toModel.toBits.toBitVec.toNat < 2 ^ 31 := lt_of_le_of_lt hx (by decide)
    rw [← BitVec.toNat_inj, toNat_unpackSign, Nat.div_eq_of_lt hlt]
    rfl
  unfold Binary32.sign
  rw [hsign]
  rfl

/-- The key of a magnitude. -/
lemma rank_of_isMagnitude {x : Float32} (hx : IsMagnitude x) :
    (bits x = infBits ∧ rank x = key 2 0 0) ∨ (bits x = 0 ∧ rank x = key 0 0 0) ∨
    (0 < bits x ∧ bits x < 2 ^ 23 ∧ rank x = key 1 (-149) (bits x)) ∨
    (2 ^ 23 ≤ bits x ∧ bits x < infBits ∧
      rank x = key 1 ((bits x / 2 ^ 23 : ℕ) - 150) ((2 ^ 23 + bits x % 2 ^ 23 : ℕ))) := by
  have hsign := hx.sign
  unfold IsMagnitude infBits at hx
  unfold infBits rank
  rcases unpack_cases x with
    ⟨h, h', hu⟩ | ⟨h, h', hu⟩ | ⟨h, h', hu⟩ | ⟨hm, h, hu⟩ | ⟨_, h, h', hu⟩ <;> rw [hu]
  · refine Or.inl ⟨by omega, ?_⟩
    rw [hsign]
    rfl
  · omega
  · exact Or.inr (Or.inl ⟨by omega, rfl⟩)
  · refine Or.inr (Or.inr (Or.inl ⟨by omega, by omega, ?_⟩))
    rw [hsign]
    simp only [unpackedKey, show bits x % 2 ^ 23 = bits x by omega]
  · refine Or.inr (Or.inr (Or.inr ⟨by omega, by omega, ?_⟩))
    rw [hsign, show bits x / 2 ^ 23 % 2 ^ 8 = bits x / 2 ^ 23 by omega]
    rfl

/-- Magnitudes are ordered like their bit patterns. -/
lemma rank_lt_rank_iff {x y : Float32} (hx : IsMagnitude x) (hy : IsMagnitude y) :
    rank x < rank y ↔ bits x < bits y := by
  have hinf : infBits = 2139095040 := rfl
  rcases rank_of_isMagnitude hx with ⟨h, hr⟩ | ⟨h, hr⟩ | ⟨h, h', hr⟩ | ⟨h, h', hr⟩ <;>
    rcases rank_of_isMagnitude hy with ⟨k, hr'⟩ | ⟨k, hr'⟩ | ⟨k, k', hr'⟩ | ⟨k, k', hr'⟩ <;>
      rw [hr, hr', key_lt_key] <;> omega

/-- `x < y`. -/
theorem lt_iff_bits_lt {x y : Float32} (hx : IsMagnitude x) (hy : IsMagnitude y) :
    x.lt y = true ↔ bits x < bits y := by
  rw [lt_iff, rank_lt_rank_iff hx hy]
  exact ⟨fun h => h.2.2, fun h => ⟨hx.not_isNaN, hy.not_isNaN, h⟩⟩

/-! ## Running maxima -/

/-- A valid bit pattern stays valid without its sign. -/
lemma valid_clearSign {b : BitVec 32} (h : Format.binary32.Valid b) :
    Format.binary32.Valid (b &&& 0x7FFFFFFF#32) := by
  have hmod : (b &&& 0x7FFFFFFF#32).toNat = b.toNat % 2 ^ 31 := by
    rw [BitVec.toNat_and]
    exact Nat.and_two_pow_sub_one_eq_mod _ 31
  refine ⟨fun hexp hman => ?_⟩
  have hexp := (unpackExponent_eq_neg_one_iff _).mp hexp
  have hman := (unpackMantissa_eq_zero_iff _).not.mp hman
  rw [hmod] at hexp hman
  have hb : b = packedNaN Format.binary32 := by
    refine h.eq_packedNaN ((unpackExponent_eq_neg_one_iff b).mpr (by omega)) ?_
    exact (unpackMantissa_eq_zero_iff b).not.mpr (by omega)
  rw [hb]
  rfl

/-- `fabsf` clears the sign. -/
def fabsf (x : Float32) : Float32 :=
  ⟨⟨x.toBits &&& 0x7FFFFFFF, valid_clearSign x.toModel.valid⟩⟩

/-- `fmaxf` passes over what is not a number. -/
def fmaxf (x y : Float32) : Float32 :=
  if IsNaN x then y else if IsNaN y then x else if x.lt y then y else x

/-- The bit pattern as a signed integer. -/
def floatAsInt (x : Float32) : ℤ := x.toBits.toBitVec.toInt

/-- The maximum of two bit patterns as signed integers. -/
def intMax (x y : Float32) : Float32 := if floatAsInt x < floatAsInt y then y else x

/-- What a number counts in a maximum of absolute values. -/
def absBits (x : Float32) : ℕ := if IsNaN x then 0 else bits x % 2 ^ 31

/-- Zero has no bit set. -/
lemma bits_zero : bits 0 = 0 := by decide

/-- Zero is a magnitude. -/
lemma isMagnitude_zero : IsMagnitude 0 := by
  unfold IsMagnitude
  rw [bits_zero]
  exact Nat.zero_le _

/-- `fabsf` clears the top bit. -/
lemma bits_fabsf (x : Float32) : bits (fabsf x) = bits x % 2 ^ 31 := by
  have hand : (x.toBits &&& 0x7FFFFFFF).toNat = x.toBits.toNat % 2 ^ 31 := by
    rw [UInt32.toNat_and]
    exact Nat.and_two_pow_sub_one_eq_mod _ 31
  exact hand

/-- The absolute value of a number is a magnitude, whose bits order it. -/
lemma absBits_of_not_isNaN {x : Float32} (hx : ¬IsNaN x) :
    absBits x = bits (fabsf x) ∧ IsMagnitude (fabsf x) := by
  rw [bits_fabsf, absBits, if_neg hx]
  refine ⟨rfl, ?_⟩
  unfold IsMagnitude
  rw [bits_fabsf]
  exact not_lt.mp (isNaN_iff.not.mp hx)

/-- A magnitude that is not less than another. -/
lemma bits_ite_lt {x y : Float32} {p : Prop} [Decidable p] (hx : IsMagnitude x)
    (hy : IsMagnitude y) (hp : p ↔ bits x < bits y) :
    IsMagnitude (if p then y else x) ∧ bits (if p then y else x) = max (bits x) (bits y) := by
  split_ifs with h
  · exact ⟨hy, (max_eq_right (hp.mp h).le).symm⟩
  · exact ⟨hx, (max_eq_left (not_lt.mp (hp.not.mp h))).symm⟩

/-- One more number in a running maximum. -/
lemma bits_fmaxf_fabsf {x : Float32} (hx : IsMagnitude x) (y : Float32) :
    IsMagnitude (fmaxf x (fabsf y)) ∧
      bits (fmaxf x (fabsf y)) = max (bits x) (absBits y) := by
  have hnan : IsNaN (fabsf y) ↔ IsNaN y := by
    rw [isNaN_iff, isNaN_iff, bits_fabsf, Nat.mod_mod]
  unfold fmaxf
  rw [if_neg hx.not_isNaN]
  by_cases hy : IsNaN y
  · rw [if_pos (hnan.mpr hy), absBits, if_pos hy, Nat.max_zero]
    exact ⟨hx, rfl⟩
  · obtain ⟨habs, hmag⟩ := absBits_of_not_isNaN hy
    rw [if_neg (hnan.not.mpr hy), habs]
    exact bits_ite_lt hx hmag (lt_iff_bits_lt hx hmag)

/-- The integer that a magnitude is taken for is its bit pattern. -/
lemma floatAsInt_of_isMagnitude {x : Float32} (hx : IsMagnitude x) : floatAsInt x = bits x := by
  have hlt : 2 * bits x < 2 ^ 32 := by
    unfold IsMagnitude infBits at hx
    omega
  exact BitVec.toInt_eq_toNat_of_lt hlt

/-- A running maximum kept in an integer. -/
lemma bits_intMax {x y : Float32} (hx : IsMagnitude x) (hy : IsMagnitude y) :
    IsMagnitude (intMax x y) ∧ bits (intMax x y) = max (bits x) (bits y) := by
  refine bits_ite_lt hx hy ?_
  rw [floatAsInt_of_isMagnitude hx, floatAsInt_of_isMagnitude hy]
  exact Int.ofNat_lt

/-- A running maximum of absolute values is the greatest of their bit patterns. -/
theorem isGreatest_foldl_fmaxf {α : Type*} (l : List α) (f : α → Float32) :
    IsMagnitude (l.foldl (fun m a => fmaxf m (fabsf (f a))) 0) ∧
      IsGreatest (insert 0 {k | ∃ a ∈ l, k = absBits (f a)})
        (bits (l.foldl (fun m a => fmaxf m (fabsf (f a))) 0)) := by
  have hfold : ∀ (l : List α) (x : Float32), IsMagnitude x →
      IsMagnitude (l.foldl (fun m a => fmaxf m (fabsf (f a))) x) ∧
        bits (l.foldl (fun m a => fmaxf m (fabsf (f a))) x) =
          l.foldl (fun m a => max m (absBits (f a))) (bits x) := by
    intro l
    induction l with
    | nil => exact fun x hx => ⟨hx, rfl⟩
    | cons a l ih =>
      intro x hx
      obtain ⟨hmag, hbits⟩ := bits_fmaxf_fabsf hx (f a)
      rw [List.foldl_cons, List.foldl_cons, ← hbits]
      exact ih _ hmag
  obtain ⟨hmag, hbits⟩ := hfold l 0 isMagnitude_zero
  refine ⟨hmag, ?_⟩
  rw [hbits, bits_zero]
  constructor
  · rcases Loops.foldl_max_mem (fun a => absBits (f a)) l 0 with h | ⟨a, ha, h⟩
    · exact Or.inl h
    · exact Or.inr ⟨a, ha, h⟩
  · rintro _ (rfl | ⟨a, ha, rfl⟩)
    · exact Nat.zero_le _
    · exact (Loops.le_foldl_max (fun a => absBits (f a)) l 0).2 a ha

/-! ## Absolute values that may fail to be numbers -/

/-- All that is not a number has one bit pattern. -/
lemma eq_of_isNaN {x y : Float32} (hx : IsNaN x) (hy : IsNaN y) : x = y := by
  have hnan : ∀ {x : Float32}, IsNaN x →
      x.toModel.toBits.toBitVec = packedNaN Format.binary32 := by
    intro x hx
    have hgt : infBits < x.toModel.toBits.toBitVec.toNat % 2 ^ 31 := isNaN_iff.mp hx
    unfold infBits at hgt
    refine x.toModel.valid.eq_packedNaN ((unpackExponent_eq_neg_one_iff _).mpr ?_)
      ((unpackMantissa_eq_zero_iff _).not.mpr ?_) <;> omega
  refine bits_injective ?_
  exact congrArg BitVec.toNat ((hnan hx).trans (hnan hy).symm)

/-- An absolute value. -/
abbrev AbsValue : Type := {x : Float32 // ∃ y, x = fabsf y}

namespace AbsValue

/-- The place of an absolute value: what is not a number comes before zero. -/
def place (a : AbsValue) : ℕ := if IsNaN a.1 then 0 else bits a.1 + 1

/-- An absolute value that is a number is a magnitude. -/
lemma isMagnitude {a : AbsValue} (ha : ¬IsNaN a.1) : IsMagnitude a.1 := by
  obtain ⟨x, y, rfl⟩ := a
  have hle := not_lt.mp (isNaN_iff.not.mp ha)
  unfold IsMagnitude
  rw [bits_fabsf, Nat.mod_mod] at hle
  rwa [bits_fabsf]

/-- There is one absolute value at each place. -/
lemma place_injective : Function.Injective place := by
  intro a b h
  unfold place at h
  refine Subtype.ext ?_
  split_ifs at h with ha hb hb
  · exact eq_of_isNaN ha hb
  · exact bits_injective (Nat.succ_injective h)

/-- The greater of two absolute values. -/
def fmax (a b : AbsValue) : AbsValue :=
  ⟨fmaxf a.1 b.1, by
    unfold fmaxf
    split_ifs
    · exact b.2
    · exact a.2
    · exact b.2
    · exact a.2⟩

/-- The maximum of two absolute values has the higher place. -/
lemma place_fmax (a b : AbsValue) : (fmax a b).place = max a.place b.place := by
  have hval : (fmax a b).1 = fmaxf a.1 b.1 := rfl
  unfold place
  rw [hval]
  unfold fmaxf
  by_cases ha : IsNaN a.1
  · rw [if_pos ha, if_pos ha, Nat.zero_max]
  · rw [if_neg ha, if_neg ha]
    by_cases hb : IsNaN b.1
    · rw [if_pos hb, if_pos hb, if_neg ha, Nat.max_zero]
    · rw [if_neg hb, if_neg hb, Nat.add_max_add_right]
      obtain ⟨hmag, hbits⟩ := bits_ite_lt (isMagnitude ha) (isMagnitude hb)
        (lt_iff_bits_lt (isMagnitude ha) (isMagnitude hb))
      rw [if_neg hmag.not_isNaN, hbits]

end AbsValue

/-! ## Values -/

/-- The fraction that a finite number means. -/
def value (x : Float32) : ℚ :=
  match x.toModel.unpack with
  | .finite s m e _ => s.apply m * 2 ^ e
  | _ => 0

/-- The value of a finite positive number is its mantissa times its power of two. -/
lemma value_of_unpack {x : Float32} {m : ℕ} {e : ℤ} {h : 0 < m}
    (hu : x.toModel.unpack = .finite .positive m e h) : value x = m * 2 ^ e := by
  unfold value
  rw [hu]
  simp [Sign.apply]

/-- The value of `1.0f`. -/
lemma value_one : value 1 = 1 := by
  have hu : (1 : Float32).toModel.unpack = .finite .positive 8388608 (-23) (by decide) := rfl
  rw [value_of_unpack hu]
  norm_num

/-- The greatest number of the format E4M3. -/
lemma value_448 : value 448 = 448 := by
  have hu : (448 : Float32).toModel.unpack = .finite .positive 14680064 (-15) (by decide) := rfl
  rw [value_of_unpack hu]
  norm_num

/-- The value of `FLT_MIN`. -/
lemma value_fltMin : value fltMin = 1 / 2 ^ 126 := by
  have hu : fltMin.toModel.unpack = .finite .positive 8388608 (-149) (by decide) := rfl
  rw [value_of_unpack hu]
  norm_num

/-- A finite magnitude above zero means a positive fraction. -/
lemma value_pos {x : Float32} (hpos : 0 < bits x) (hfinite : bits x < infBits) : 0 < value x := by
  have hsign : sign x = .positive := IsMagnitude.sign hfinite.le
  unfold infBits at hfinite
  unfold value
  rcases unpack_cases x with ⟨h, h', hu⟩ | ⟨h, h', hu⟩ | ⟨h, h', hu⟩ | ⟨hm, h, hu⟩ | ⟨hm, h, h', hu⟩
  · omega
  · omega
  · omega
  all_goals
    rw [hu, hsign]
    exact mul_pos (Int.cast_pos.mpr (Int.natCast_pos.mpr hm)) (zpow_pos (by norm_num) _)

end Binary32
