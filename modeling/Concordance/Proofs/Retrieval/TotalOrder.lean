import Mathlib
import Concordance.Retrieval.Ranking
/-!
Scores are compared by the total order of IEEE 754. `Score.Below` is that order clause by clause:
numbers by their values, negative zero below zero, negative NaNs below and positive NaNs above all
numbers, and NaNs of one sign by their fractions. `below_iff` says that the keys of scores, which
are read off the bits alone, are in this order.

The bits of a score are a sign and a magnitude. A double taken apart (`value`) compares as these do
(`lt_value_iff`): among finite numbers the exponent counts before the mantissa, and both stand in
the magnitude in this order.
-/
namespace Concordance.Score

open Float.Model (UnpackedFloat Format)
open Float.Model.UnpackedFloat (Sign)

variable {a b : Score}

/-! ## The parts of a score -/

def negative (s : Score) : Bool := 2 ^ 63 ≤ s.bits.toNat

def exponent (s : Score) : Nat := s.bits.toNat / 2 ^ 52 % 2 ^ 11

/-- The 52 bits of the fraction. Those of a NaN begin with a one where it is quiet, and go on with
its payload. -/
def fraction (s : Score) : Nat := s.bits.toNat % 2 ^ 52

def magnitude (s : Score) : Nat := s.bits.toNat % 2 ^ 63

/-- The magnitude with its sign. The two zeros have the same. -/
def signed (s : Score) : Int := if s.negative then -s.magnitude else s.magnitude

/-- A NaN has the highest exponent and a fraction. -/
def IsNaN (s : Score) : Prop := s.exponent = 2047 ∧ s.fraction ≠ 0

/-- The total order of IEEE 754. -/
inductive Below : Score → Score → Prop
  | number {a b : Score} (h : a.toFloat < b.toFloat) : Below a b
  | zeros : Below (ofFloat (-0.0)) (ofFloat 0.0)
  | ofNegativeNaN {a b : Score} (ha : a.IsNaN) (hb : ¬b.IsNaN) (hsign : a.negative = true) :
    Below a b
  | toPositiveNaN {a b : Score} (ha : ¬a.IsNaN) (hb : b.IsNaN) (hsign : b.negative = false) :
    Below a b
  | signs {a b : Score} (ha : a.IsNaN) (hb : b.IsNaN) (hleft : a.negative = true)
    (hright : b.negative = false) : Below a b
  | positiveFractions {a b : Score} (ha : a.IsNaN) (hb : b.IsNaN) (hleft : a.negative = false)
    (hright : b.negative = false) (h : a.fraction < b.fraction) : Below a b
  | negativeFractions {a b : Score} (ha : a.IsNaN) (hb : b.IsNaN) (hleft : a.negative = true)
    (hright : b.negative = true) (h : b.fraction < a.fraction) : Below a b

theorem fraction_lt (s : Score) : s.fraction < 2 ^ 52 := Nat.mod_lt _ (by decide)

theorem exponent_lt (s : Score) : s.exponent < 2048 := Nat.mod_lt _ (by decide)

theorem magnitude_lt (s : Score) : s.magnitude < 2 ^ 63 := Nat.mod_lt _ (by decide)

theorem magnitude_eq (s : Score) : s.magnitude = s.exponent * 2 ^ 52 + s.fraction := by
  unfold magnitude exponent fraction
  omega

theorem isNaN_iff (s : Score) : s.IsNaN ↔ 2047 * 2 ^ 52 < s.magnitude := by
  have hm := s.magnitude_eq
  have hf := s.fraction_lt
  have he := s.exponent_lt
  unfold IsNaN
  omega

theorem key_eq (s : Score) :
    s.key = if s.negative then 2 ^ 63 - 1 - s.magnitude else 2 ^ 63 + s.magnitude := by
  have hlt := s.bits.toNat_lt
  have hsize : UInt64.size = 2 ^ 64 := rfl
  simp only [key, negative, magnitude, hsize, Nat.one_shiftLeft, decide_eq_true_eq]
  split <;> split <;> omega

/-- The sign and the magnitude are all of a score. -/
theorem eq_of_parts (hsign : a.negative = b.negative) (hm : a.magnitude = b.magnitude) :
    a = b := by
  have ha := a.bits.toNat_lt
  have hb := b.bits.toNat_lt
  obtain ⟨x⟩ := a
  obtain ⟨y⟩ := b
  simp only [negative, magnitude, decide_eq_decide] at hsign hm ha hb
  have hbits : x.toNat = y.toNat := by omega
  rw [UInt64.toNat_inj.mp hbits]

theorem key_injective (h : a.key = b.key) : a = b := by
  have ha := a.magnitude_lt
  have hb := b.magnitude_lt
  rw [key_eq, key_eq] at h
  cases hsa : a.negative <;> cases hsb : b.negative <;>
    simp only [hsa, hsb, if_true, Bool.false_eq_true, if_false] at h
  · exact eq_of_parts (hsa.trans hsb.symm) (by omega)
  · omega
  · omega
  · exact eq_of_parts (hsa.trans hsb.symm) (by omega)

/-! ## Values -/

def sign (s : Score) : Sign := if s.negative then .negative else .positive

def value (s : Score) : UnpackedFloat :=
  if s.exponent = 2047 then
    if s.fraction = 0 then .infinity s.sign else .notANumber
  else if s.exponent = 0 then
    if h : s.fraction = 0 then .zero s.sign
    else .finite s.sign s.fraction (-1074) (Nat.pos_of_ne_zero h)
  else .finite s.sign (2 ^ 52 + s.fraction) (s.exponent - 1075) (by omega)

theorem toNat_unpackExponent (s : Score) :
    (@UnpackedFloat.unpackExponent Format.binary64 s.bits.toBitVec).toNat = s.exponent := by
  rw [UnpackedFloat.unpackExponent_def, exponent, ← Nat.shiftRight_eq_div_pow]
  exact BitVec.extractLsb'_toNat _ _ _

theorem toNat_unpackMantissa (s : Score) :
    (@UnpackedFloat.unpackMantissa Format.binary64 s.bits.toBitVec).toNat = s.fraction := by
  rw [UnpackedFloat.unpackMantissa_def]
  exact BitVec.extractLsb'_toNat _ _ _

theorem ofBitVec_unpackSign (s : Score) :
    Sign.ofBitVec (@UnpackedFloat.unpackSign Format.binary64 s.bits.toBitVec) = s.sign := by
  have hlt := s.bits.toNat_lt
  have hzero : s.bits.toBitVec.extractLsb' 63 1 = 0#1 ↔ ¬2 ^ 63 ≤ s.bits.toNat := by
    rw [← BitVec.toNat_inj]
    simp only [BitVec.extractLsb'_toNat, UInt64.toNat_toBitVec, BitVec.toNat_ofNat]
    omega
  rw [UnpackedFloat.unpackSign_def, Sign.ofBitVec, sign, negative]
  simp only [hzero, decide_eq_true_eq]
  exact ite_not _ _ _

theorem unpack_eq_value (s : Score) :
    UnpackedFloat.unpack Format.binary64 s.bits.toBitVec = s.value := by
  have hall : ∀ e : BitVec 11, e = -1#11 ↔ e.toNat = 2047 := by
    intro e
    rw [← BitVec.toNat_inj]
    rfl
  have hzero : ∀ {n : Nat} (e : BitVec n), e = 0#n ↔ e.toNat = 0 := by
    intro n e
    rw [← BitVec.toNat_inj, BitVec.toNat_zero]
  have hbias : Format.binary64.exponentBias = 1023 := rfl
  -- a normal number has a bit in front of its fraction
  have hnormal : (1#1 ++ @UnpackedFloat.unpackMantissa Format.binary64 s.bits.toBitVec).toNat =
      2 ^ 52 + s.fraction := by
    have hor := Nat.two_pow_add_eq_or_of_lt s.fraction_lt 1
    rw [Nat.mul_one] at hor
    rw [BitVec.toNat_append, toNat_unpackMantissa, hor]
    rfl
  simp only [UnpackedFloat.unpack, value, hall, hzero, toNat_unpackExponent,
    toNat_unpackMantissa, ofBitVec_unpackSign, hnormal, hbias]
  split
  · rfl
  · split
    · next hsub =>
      split
      · rfl
      · simp [hsub]
    · simp

/-- Reading the bits makes one NaN of all and keeps everything else. -/
theorem unpack_toFloat (s : Score) : s.toFloat.toModel.unpack = s.value := by
  have hread : s.toFloat.toModel.unpack = UnpackedFloat.unpack Format.binary64
      (UnpackedFloat.pack Format.binary64
        (UnpackedFloat.unpack Format.binary64 s.bits.toBitVec)) := rfl
  rw [hread, UnpackedFloat.pack_unpack, ← unpack_eq_value]
  split
  · next h =>
    simp only [UnpackedFloat.isNaNBits, decide_eq_true_eq] at h
    rw [UnpackedFloat.unpack_packedNaN]
    simp [UnpackedFloat.unpack, h]
  · rfl

/-- A mantissa and an exponent as they are read from bits: all numbers but those with the least
exponent have a bit in front. -/
structure Canonical (m : Nat) (e : Int) : Prop where
  le_exponent : -1074 ≤ e
  mantissa_lt : m < 2 ^ 53
  le_mantissa : -1074 < e → 2 ^ 52 ≤ m

theorem value_cases (h : ¬a.IsNaN) :
    (a.value = .infinity a.sign ∧ a.magnitude = 2047 * 2 ^ 52) ∨
    (a.value = .zero a.sign ∧ a.magnitude = 0) ∨
    ∃ m e hm, a.value = .finite a.sign m e hm ∧ Canonical m e ∧
      (a.magnitude : Int) = (e + 1074) * 2 ^ 52 + m ∧ a.magnitude < 2047 * 2 ^ 52 := by
  have hm := a.magnitude_eq
  have hf := a.fraction_lt
  have he := a.exponent_lt
  unfold value
  by_cases htop : a.exponent = 2047
  · have hzero : a.fraction = 0 := Decidable.of_not_not fun hne => h ⟨htop, hne⟩
    rw [if_pos htop, if_pos hzero]
    exact .inl ⟨rfl, by omega⟩
  · rw [if_neg htop]
    right
    by_cases hsub : a.exponent = 0
    · rw [if_pos hsub]
      by_cases hzero : a.fraction = 0
      · rw [dif_pos hzero]
        exact .inl ⟨rfl, by omega⟩
      · rw [dif_neg hzero]
        exact .inr ⟨_, _, _, rfl, ⟨by omega, by omega, by omega⟩, by omega, by omega⟩
    · rw [if_neg hsub]
      exact .inr ⟨_, _, _, rfl, ⟨by omega, by omega, by omega⟩, by omega, by omega⟩

theorem compare_negative_positive : compare Sign.negative Sign.positive = .lt := rfl

theorem lt_notANumber (u : UnpackedFloat) : u.lt .notANumber = false := by
  cases u <;> rfl

theorem lt_value_iff (ha : ¬a.IsNaN) (hb : ¬b.IsNaN) :
    a.value.lt b.value = true ↔ a.signed < b.signed := by
  -- each is infinite, zero or finite, with either sign; of two finite ones, a greater exponent
  -- outweighs any mantissa, in the comparison as in the magnitudes
  rcases value_cases ha with ⟨hva, hma⟩ | ⟨hva, hma⟩ | ⟨m, e, hm, hva, ⟨_, _, _⟩, hma, _⟩ <;>
  rcases value_cases hb with ⟨hvb, hmb⟩ | ⟨hvb, hmb⟩ | ⟨n, f, hn, hvb, ⟨_, _, _⟩, hmb, _⟩ <;>
  rw [hva, hvb] <;>
  cases hsa : a.negative <;> cases hsb : b.negative <;>
  simp only [UnpackedFloat.lt, UnpackedFloat.compare, signed, sign, hsa, hsb, beq_iff_eq,
    Option.some.injEq, if_true, Bool.false_eq_true, if_false, reduceCtorEq, true_iff, false_iff,
    compare_negative_positive, Ordering.swap_eq_lt, Ordering.then_eq_gt, Ordering.then_eq_lt,
    Std.compare_eq_lt, Std.compare_eq_gt, Std.LawfulEqOrd.compare_eq_iff_eq] <;>
  omega

theorem toFloat_lt_iff :
    a.toFloat < b.toFloat ↔ ¬a.IsNaN ∧ ¬b.IsNaN ∧ a.signed < b.signed := by
  have hlt : a.toFloat < b.toFloat ↔ a.value.lt b.value = true := by
    rw [← unpack_toFloat, ← unpack_toFloat]
    exact decide_eq_true_iff
  have hnan : ∀ {s : Score}, s.IsNaN → s.value = .notANumber := by
    intro s h
    rw [value, if_pos h.1, if_neg h.2]
  rw [hlt]
  by_cases ha : a.IsNaN
  · have hnone : UnpackedFloat.notANumber.lt b.value = false := rfl
    simp [hnan ha, hnone, ha]
  · by_cases hb : b.IsNaN
    · simp [hnan hb, lt_notANumber, hb]
    · rw [lt_value_iff ha hb]
      simp [ha, hb]

/-! ## The order -/

theorem ofFloat_zeros : ofFloat (-0.0) = ⟨0x8000000000000000⟩ ∧ ofFloat 0.0 = ⟨0⟩ := by
  decide +kernel

/-- Negative scores are below all others, and among them the magnitudes count downwards. -/
theorem key_lt_iff : a.key < b.key ↔
    match a.negative, b.negative with
    | true, false => True
    | false, true => False
    | false, false => a.magnitude < b.magnitude
    | true, true => b.magnitude < a.magnitude := by
  have ha := a.magnitude_lt
  have hb := b.magnitude_lt
  rw [key_eq, key_eq]
  cases a.negative <;> cases b.negative <;>
    simp only [if_true, Bool.false_eq_true, if_false, iff_true, iff_false] <;> omega

theorem eq_zero_of_magnitude (hm : a.magnitude = 0) :
    a = if a.negative then ofFloat (-0.0) else ofFloat 0.0 := by
  obtain ⟨hneg, hpos⟩ := ofFloat_zeros
  cases hs : a.negative with
  | true =>
    rw [if_pos rfl, hneg]
    exact eq_of_parts hs hm
  | false =>
    rw [if_neg (by simp), hpos]
    exact eq_of_parts hs hm

theorem key_lt_of_below (h : Below a b) : a.key < b.key := by
  cases h with
  | number h =>
    obtain ⟨_, _, hlt⟩ := toFloat_lt_iff.mp h
    rw [key_lt_iff]
    -- numbers compare as signed magnitudes, and so do their keys
    cases hsa : a.negative <;> cases hsb : b.negative <;>
      simp only [signed, hsa, hsb, if_true, Bool.false_eq_true, if_false] at hlt ⊢ <;> omega
  | zeros =>
    rw [ofFloat_zeros.1, ofFloat_zeros.2]
    decide
  | ofNegativeNaN ha hb hsign =>
    rw [isNaN_iff] at ha hb
    rw [key_lt_iff, hsign]
    cases b.negative with
    | false => trivial
    | true =>
      show b.magnitude < a.magnitude
      omega
  | toPositiveNaN ha hb hsign =>
    rw [isNaN_iff] at ha hb
    rw [key_lt_iff, hsign]
    cases a.negative with
    | true => trivial
    | false =>
      show a.magnitude < b.magnitude
      omega
  | signs _ _ hleft hright =>
    rw [key_lt_iff, hleft, hright]
    trivial
  | positiveFractions ha hb hleft hright h =>
    -- both have one sign and one exponent, so that the fractions decide
    have hma := a.magnitude_eq
    have hmb := b.magnitude_eq
    rw [key_lt_iff, hleft, hright]
    show a.magnitude < b.magnitude
    rw [hma, hmb, ha.1, hb.1]
    omega
  | negativeFractions ha hb hleft hright h =>
    have hma := a.magnitude_eq
    have hmb := b.magnitude_eq
    rw [key_lt_iff, hleft, hright]
    show b.magnitude < a.magnitude
    rw [hma, hmb, ha.1, hb.1]
    omega

theorem below_of_nans (ha : a.IsNaN) (hb : b.IsNaN) (h : a.key < b.key) : Below a b := by
  have hma := a.magnitude_eq
  have hmb := b.magnitude_eq
  rw [ha.1] at hma
  rw [hb.1] at hmb
  rw [key_lt_iff] at h
  cases hsa : a.negative <;> cases hsb : b.negative <;> simp only [hsa, hsb] at h
  · exact .positiveFractions ha hb hsa hsb (by omega)
  · exact .signs ha hb hsa hsb
  · exact .negativeFractions ha hb hsa hsb (by omega)

/-- Of numbers with one value, only the zeros have two places in the order. -/
theorem below_of_numbers (ha : ¬a.IsNaN) (hb : ¬b.IsNaN) (h : a.key < b.key) : Below a b := by
  by_cases hlt : a.signed < b.signed
  · exact .number (toFloat_lt_iff.mpr ⟨ha, hb, hlt⟩)
  · rw [key_lt_iff] at h
    unfold signed at hlt
    cases hsa : a.negative <;> cases hsb : b.negative <;>
      simp only [hsa, hsb, if_true, Bool.false_eq_true, if_false] at h hlt
    · omega
    · have hzero := eq_zero_of_magnitude (a := a) (by omega)
      have hzero' := eq_zero_of_magnitude (a := b) (by omega)
      rw [hsa, if_pos rfl] at hzero
      rw [hsb, if_neg Bool.false_ne_true] at hzero'
      rw [hzero, hzero']
      exact .zeros
    · omega

theorem below_of_key_lt (h : a.key < b.key) : Below a b := by
  by_cases ha : a.IsNaN <;> by_cases hb : b.IsNaN
  · exact below_of_nans ha hb h
  · refine .ofNegativeNaN ha hb ?_
    rw [isNaN_iff] at ha hb
    rw [key_lt_iff] at h
    cases hsa : a.negative
    · cases hsb : b.negative <;> simp only [hsa, hsb] at h
      omega
    · rfl
  · refine .toPositiveNaN ha hb ?_
    rw [isNaN_iff] at ha hb
    rw [key_lt_iff] at h
    cases hsb : b.negative
    · rfl
    · cases hsa : a.negative <;> simp only [hsa, hsb] at h
      omega
  · exact below_of_numbers ha hb h

/-- The keys are in the total order of IEEE 754. -/
theorem below_iff : Below a b ↔ a.key < b.key := ⟨key_lt_of_below, below_of_key_lt⟩

end Concordance.Score
