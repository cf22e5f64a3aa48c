import Mathlib.Data.Nat.Cast.Field
import Mathlib.Data.Rat.Floor
import JitDump.Proofs.Doubles

/-!
# What doubles are worth

A double that is not a NaN is worth a rational number or an infinity, by its
sign, its exponent field and its fraction.  Equality of values is equality of
worths, and a double is a whole number exactly if its worth is.  Hence a cast to
32 bits and back, which cuts off what is behind the point and what is beyond the
ends of the range, gives a double of the same value exactly if its worth is a
whole number of that range.
-/

namespace JitDump

/-! ## Magnitudes by their values -/

namespace Binary

variable {n n' : ℕ} {x : Binary}

theorem value_nonneg (x : Binary) : 0 ≤ x.value := by
  rw [value]
  positivity

theorem value_eq_zero_iff : x.value = 0 ↔ x.m = 0 := by
  have hunit : (2 : ℚ) ^ x.q ≠ 0 := by positivity
  rw [value, mul_eq_zero, or_iff_left hunit, Nat.cast_eq_zero]

/-- A number rounds to itself. -/
theorem admits_value (hm : 0 < x.m) : x.Admits x.value := by
  have hlo := lower_lt_value hm
  have hup := value_lt_upper x
  rw [Admits]
  split
  · exact ⟨hlo.le, hup.le⟩
  · exact ⟨hlo, hup⟩

/-- Magnitudes that are not zero are told apart by their values. -/
theorem nth_value_inj (hne : (nth n).value ≠ 0) (h : (nth n).value = (nth n').value) : n = n' := by
  have hm : 0 < (nth n).m := Nat.pos_of_ne_zero (mt value_eq_zero_iff.2 hne)
  have hm' : 0 < (nth n').m := Nat.pos_of_ne_zero (mt value_eq_zero_iff.2 (h ▸ hne))
  have hadmits := admits_value hm
  rw [h] at hadmits
  exact nth_admits_inj hadmits (admits_value hm')

end Binary

/-- What a number is worth if it is no NaN. -/
inductive Worth
  | finite (r : ℚ)
  | infinity (negative : Bool)
deriving DecidableEq

namespace Double

open Binary

variable {d x y : Double} {w : Worth} {i : Int32} {z : ℤ}

/-! ## Finite doubles -/

/-- The number that a finite double stands for: the fraction stands behind a leading one, and if
the exponent field is zero, behind a zero. -/
def toRat (d : Double) : ℚ :=
  let fraction : ℚ := d.fraction / 2 ^ 52
  let unsigned : ℚ :=
    if d.exponentField = 0 then fraction * 2 ^ (-1022 : ℤ)
    else (1 + fraction) * 2 ^ ((d.exponentField : ℤ) - 1023)
  if d.isNegative then -unsigned else unsigned

theorem magnitude_value (d : Double) :
    d.magnitude.value =
      if d.exponentField = 0 then (d.fraction / 2 ^ 52 : ℚ) * 2 ^ (-1022 : ℤ)
      else (1 + d.fraction / 2 ^ 52 : ℚ) * 2 ^ ((d.exponentField : ℤ) - 1023) := by
  have hunit (e : ℤ) : (2 : ℚ) ^ (e - 52) = 2 ^ e / 2 ^ 52 := by
    rw [zpow_sub₀ (by norm_num)]
    rfl
  simp only [magnitude, value, significand, exponent]
  split
  case isTrue hzero =>
    have hexp : ((max d.exponentField 1 : ℕ) : ℤ) - 1075 = -1022 - 52 := by omega
    rw [hexp, hunit]
    ring
  case isFalse hfield =>
    have hexp : ((max d.exponentField 1 : ℕ) : ℤ) - 1075 = (d.exponentField : ℤ) - 1023 - 52 := by
      omega
    have hlead : ((Nat.pow 2 52 + d.fraction : ℕ) : ℚ) = 2 ^ 52 + d.fraction := by
      rw [Nat.pow_eq]
      push_cast
      rfl
    rw [hexp, hunit, hlead]
    field_simp

/-- A finite double is plus or minus its magnitude. -/
theorem toRat_eq (d : Double) :
    d.toRat = if d.isNegative then -d.magnitude.value else d.magnitude.value := by
  rw [toRat, magnitude_value]

theorem abs_toRat (d : Double) : |d.toRat| = d.magnitude.value := by
  rw [toRat_eq]
  split
  · rw [abs_neg, abs_of_nonneg d.magnitude.value_nonneg]
  · exact abs_of_nonneg d.magnitude.value_nonneg

theorem toRat_eq_zero_iff : d.toRat = 0 ↔ d.magnitude.value = 0 := by
  rw [toRat_eq]
  split
  · exact neg_eq_zero
  · exact Iff.rfl

theorem isFinite_iff : d.isFinite = true ↔ d.exponentField ≠ 2047 := by
  rw [isFinite, bne_iff_ne]

theorem isNaN_of_isFinite (hd : d.isFinite = true) : d.isNaN = false := by
  rw [isNaN, beq_eq_false_iff_ne.2 (isFinite_iff.1 hd), Bool.false_and]

theorem isFinite_eq_false (hd : d.isNaN = true) : d.isFinite = false := by
  by_contra hfin
  rw [isNaN_of_isFinite (Bool.eq_true_of_not_eq_false hfin)] at hd
  cases hd

/-- A double that is zero is finite and stands for zero. -/
theorem isZero_iff : d.isZero = true ↔ d.isFinite = true ∧ d.toRat = 0 := by
  rw [toRat_eq_zero_iff, value_eq_zero_iff, ← isZero_eq_true_iff, iff_and_self, isFinite_iff]
  intro hzero
  rw [isZero, Bool.and_eq_true, beq_iff_eq] at hzero
  omega

/-- Numbers that are not zero stand for one value in one double. -/
theorem eq_of_toRat_eq (hne : x.toRat ≠ 0) (h : x.toRat = y.toRat) : x = y := by
  have hx0 := x.magnitude.value_nonneg
  have hy0 := y.magnitude.value_nonneg
  have hm : x.magnitude.value ≠ 0 := mt toRat_eq_zero_iff.2 hne
  rw [toRat_eq, toRat_eq] at h
  -- a magnitude is no negative number, so the signs agree
  have hboth : x.isNegative = y.isNegative ∧ x.magnitude.value = y.magnitude.value := by
    cases hx : x.isNegative <;> cases hy : y.isNegative <;>
      simp only [hx, hy, if_true, if_false, Bool.false_eq_true] at h
    · exact ⟨rfl, h⟩
    · exact absurd (le_antisymm (by linarith) hx0) hm
    · exact absurd (le_antisymm (by linarith) hx0) hm
    · exact ⟨rfl, neg_inj.1 h⟩
  obtain ⟨hsign, hvalue⟩ := hboth
  rw [magnitude_eq, magnitude_eq] at hvalue
  rw [magnitude_eq] at hm
  exact eq_of_low_eq hsign (nth_value_inj hm hvalue)

/-! ## Worths -/

/-- What a double is worth: every NaN is worth nothing. -/
def worth? (d : Double) : Option Worth :=
  if d.isNaN then none
  else if d.isFinite then some (.finite d.toRat)
  else some (.infinity d.isNegative)

theorem worth?_eq_none_iff : d.worth? = none ↔ d.isNaN = true := by
  rw [worth?]
  split_ifs <;> simp_all

theorem worth?_eq_finite_iff {r : ℚ} :
    d.worth? = some (.finite r) ↔ d.isFinite = true ∧ d.toRat = r := by
  rw [worth?]
  split_ifs with hnan hfin
  · refine iff_of_false nofun fun h ↦ ?_
    rw [isNaN_of_isFinite h.1] at hnan
    cases hnan
  · simp [hfin]
  · simp [hfin]

theorem worth?_eq_infinity_iff {negative : Bool} :
    d.worth? = some (.infinity negative) ↔
      (d.isFinite = false ∧ d.isNaN = false) ∧ d.isNegative = negative := by
  rw [worth?]
  split_ifs with hnan hfin <;> simp_all

/-- Doubles of one worth are one double or are zeros. -/
theorem eq_or_isZero_of_worth? (hx : x.worth? = some w) (hy : y.worth? = some w) :
    x = y ∨ (x.isZero = true ∧ y.isZero = true) := by
  cases w with
  | finite r =>
    rw [worth?_eq_finite_iff] at hx hy
    by_cases hr : r = 0
    · subst hr
      exact .inr ⟨isZero_iff.2 hx, isZero_iff.2 hy⟩
    · exact .inl (eq_of_toRat_eq (by rwa [hx.2]) (hx.2.trans hy.2.symm))
  | infinity negative =>
    rw [worth?_eq_infinity_iff] at hx hy
    obtain ⟨⟨hxf, hxn⟩, hxs⟩ := hx
    obtain ⟨⟨hyf, hyn⟩, hys⟩ := hy
    -- of an infinity the sign is all that varies
    exact .inl (eq_of_low_eq (hxs.trans hys.symm) ((low_eq hxf hxn).trans (low_eq hyf hyn).symm))

/-- Equality of values is equality of worths, which no NaN has. -/
theorem sameValue_iff : x.sameValue y = true ↔ ∃ w, x.worth? = some w ∧ y.worth? = some w := by
  have hnan (d : Double) : d.isNaN = false ↔ ∃ w, d.worth? = some w := by
    rw [← Option.ne_none_iff_exists', ne_eq, worth?_eq_none_iff, Bool.not_eq_true]
  simp only [sameValue, Bool.and_eq_true, Bool.not_eq_true', Bool.or_eq_true, beq_iff_eq]
  constructor
  · rintro ⟨⟨hx, -⟩, hbits | ⟨hx0, hy0⟩⟩
    · obtain rfl : x = y := by
        cases x
        exact congrArg mk hbits
      obtain ⟨w, hw⟩ := (hnan x).1 hx
      exact ⟨w, hw, hw⟩
    · exact ⟨.finite 0, worth?_eq_finite_iff.2 (isZero_iff.1 hx0),
        worth?_eq_finite_iff.2 (isZero_iff.1 hy0)⟩
  · rintro ⟨w, hx, hy⟩
    refine ⟨⟨(hnan x).2 ⟨w, hx⟩, (hnan y).2 ⟨w, hy⟩⟩, ?_⟩
    exact (eq_or_isZero_of_worth? hx hy).imp_left (congrArg bits)

/-! ## Whole numbers -/

/-- What the value of a whole magnitude makes of the double. -/
theorem toRat_eq_intCast_iff {n : ℕ} (h : d.magnitude.value = n) :
    d.toRat = z ↔ (if d.isNegative then -(n : ℤ) else n) = z := by
  rw [← Int.cast_inj (α := ℚ), toRat_eq, h]
  split <;> push_cast <;> exact Iff.rfl

/-- A double of a whole value has a whole magnitude. -/
theorem magnitude_value_eq_natAbs (h : d.toRat = z) : d.magnitude.value = z.natAbs := by
  rw [← abs_toRat, h, Nat.cast_natAbs, Int.cast_abs]

/-- The whole number that a double is, is its worth. -/
theorem toInt?_eq_some_iff : d.toInt? = some z ↔ d.worth? = some (.finite z) := by
  rw [worth?_eq_finite_iff, toInt?]
  cases hfin : d.isFinite with
  | false => simp
  | true =>
    simp only [if_true, true_and]
    cases hq : d.exponent with
    | ofNat e =>
      have hvalue : d.magnitude.value = (d.significand * Nat.pow 2 e : ℕ) := by
        rw [value, magnitude, hq, Int.ofNat_eq_natCast, zpow_natCast, Nat.pow_eq]
        push_cast
        rfl
      rw [toRat_eq_intCast_iff hvalue]
      simp only [Option.bind_eq_bind, Option.bind_some, Option.pure_def, Option.map_some,
        Option.some_inj]
    | negSucc e =>
      have hscaled : d.magnitude.value * (Nat.pow 2 (e + 1) : ℕ) = d.significand := by
        rw [value, magnitude, hq, zpow_negSucc, Nat.pow_eq]
        push_cast
        exact inv_mul_cancel_right₀ (by positivity) _
      have hunit : ((Nat.pow 2 (e + 1) : ℕ) : ℚ) ≠ 0 := by
        rw [Nat.pow_eq]
        positivity
      by_cases hwhole : d.significand % Nat.pow 2 (e + 1) = 0
      · have hvalue : d.magnitude.value = (d.significand / Nat.pow 2 (e + 1) : ℕ) := by
          rw [Nat.cast_div (Nat.dvd_of_mod_eq_zero hwhole) hunit]
          exact eq_div_of_mul_eq hunit hscaled
        rw [toRat_eq_intCast_iff hvalue]
        simp only [if_pos hwhole, Option.bind_eq_bind, Option.bind_some, Option.pure_def,
          Option.map_some, Option.some_inj]
      · refine iff_of_false ?_ fun h ↦ hwhole ?_
        · simp only [if_neg hwhole, Option.bind_eq_bind, Option.bind_none, Option.map_none]
          rintro ⟨⟩
        · rw [magnitude_value_eq_natAbs h] at hscaled
          have hm : z.natAbs * Nat.pow 2 (e + 1) = d.significand := by exact_mod_cast hscaled
          rw [← hm, Nat.mul_mod_left]

/-- A double becomes an integer of 32 bits exactly if it is worth that integer. -/
theorem toInt32?_eq_some_iff : d.toInt32? = some i ↔ d.worth? = some (.finite i.toInt) := by
  rw [toInt32?, Option.bind_eq_some_iff]
  constructor
  · rintro ⟨z, hz, hi⟩
    split at hi
    case isTrue hrange =>
      obtain rfl := Option.some_inj.1 hi
      rw [Int32.toInt_ofInt_of_le hrange.1 hrange.2]
      exact toInt?_eq_some_iff.1 hz
    case isFalse => cases hi
  · intro h
    refine ⟨i.toInt, toInt?_eq_some_iff.2 h, ?_⟩
    rw [if_pos ⟨i.le_toInt, i.toInt_lt⟩, Int32.ofInt_toInt]

/-! ## Casts to 32 bits and back -/

/-- A double that is put together of a sign, an exponent field and a fraction. -/
theorem fields_ofNat (sign field fraction : ℕ) (hs : sign ≤ 1) (he : field < 2 ^ 11)
    (hf : fraction < 2 ^ 52) (hd : d = ⟨.ofNat (sign * 2 ^ 63 + field * 2 ^ 52 + fraction)⟩) :
    (d.isNegative = true ↔ sign = 1) ∧ d.exponentField = field ∧ d.fraction = fraction := by
  have hbits : d.bits.toNat = sign * 2 ^ 63 + field * 2 ^ 52 + fraction := by
    rw [hd, UInt64.toNat_ofNat']
    omega
  rw [isNegative_iff, exponentField_eq, fraction_eq, hbits]
  omega

/-- The leading one of a number of 32 bits and what is behind it. -/
theorem leading_one {n : ℕ} (hn : n ≠ 0) (hlt : n < 2 ^ 32) :
    n.log2 ≤ 31 ∧ 2 ^ n.log2 ≤ n ∧ n - 2 ^ n.log2 < 2 ^ n.log2 := by
  have hlog : n.log2 < 32 := (Nat.log2_lt hn).2 hlt
  have hnext : n < 2 ^ (n.log2 + 1) := Nat.lt_log2_self
  rw [pow_succ] at hnext
  exact ⟨by omega, Nat.log2_self_le hn, by omega⟩

/-- The fields of the double of an integer of 32 bits that is not zero. -/
theorem fields_ofInt32 {n k : ℕ} (hn : i.toInt.natAbs = n) (hne : n ≠ 0) (hk : n.log2 = k) :
    ((ofInt32 i).isNegative = true ↔ i.toInt < 0) ∧ (ofInt32 i).exponentField = 1023 + k ∧
      (ofInt32 i).fraction = (n - 2 ^ k) * 2 ^ (52 - k) := by
  have hlo := i.le_toInt
  have hhi := i.toInt_lt
  obtain ⟨hk31, -, hrest⟩ := leading_one hne (by omega)
  rw [hk] at hk31 hrest
  have hf : (n - 2 ^ k) * 2 ^ (52 - k) < 2 ^ 52 := by
    rw [← pow_mul_pow_sub 2 (by omega : k ≤ 52)]
    exact Nat.mul_lt_mul_of_pos_right hrest (Nat.pow_pos (by decide))
  have hsign : (if i < 0 then 1 else 0) = 1 ↔ i.toInt < 0 := by
    rw [← Int32.toInt_zero, ← Int32.lt_iff_toInt_lt]
    split <;> simp_all
  rw [← hsign]
  refine fields_ofNat _ _ _ (by split <;> omega) (by omega) hf ?_
  simp only [ofInt32, hn, hk]
  rw [if_neg hne]
  split <;> rfl

/-- The magnitude of the double of an integer is how far that is from zero. -/
theorem magnitude_value_ofInt32 (hne : i.toInt.natAbs ≠ 0) :
    (ofInt32 i).magnitude.value = i.toInt.natAbs := by
  obtain ⟨n, hn⟩ : ∃ n, i.toInt.natAbs = n := ⟨_, rfl⟩
  obtain ⟨k, hk⟩ : ∃ k, n.log2 = k := ⟨_, rfl⟩
  rw [hn] at hne ⊢
  obtain ⟨-, hfield, hfraction⟩ := fields_ofInt32 hn hne hk
  have hlo := i.le_toInt
  have hhi := i.toInt_lt
  obtain ⟨hk31, hlead, -⟩ := leading_one hne (by omega)
  rw [hk] at hk31 hlead
  have hexp : ((1023 + k : ℕ) : ℤ) - 1023 = k := by omega
  rw [magnitude_value, hfield, hfraction, if_neg (by omega), hexp, zpow_natCast,
    ← pow_mul_pow_sub 2 (by omega : k ≤ 52), Nat.cast_mul, Nat.cast_sub hlead]
  push_cast
  field_simp
  ring

/-- The double of an integer of 32 bits is worth that integer. -/
theorem worth?_ofInt32 (i : Int32) : (ofInt32 i).worth? = some (.finite i.toInt) := by
  rw [worth?_eq_finite_iff]
  by_cases hne : i.toInt.natAbs = 0
  · have hofInt : ofInt32 i = ⟨0⟩ := by
      rw [ofInt32]
      exact if_pos hne
    rw [hofInt, Int.natAbs_eq_zero.1 hne]
    exact isZero_iff.1 (by decide)
  · obtain ⟨hsign, hfield, -⟩ := fields_ofInt32 rfl hne rfl
    have hlo := i.le_toInt
    have hhi := i.toInt_lt
    have hk31 := (leading_one hne (by omega)).1
    refine ⟨isFinite_iff.2 (by omega), ?_⟩
    rw [toRat_eq_intCast_iff (magnitude_value_ofInt32 hne)]
    split
    case isTrue hneg =>
      have := hsign.1 hneg
      omega
    case isFalse hneg =>
      have := mt hsign.2 hneg
      omega

/-- The cast of a double to 32 bits: what is behind the point is cut off, what is beyond an end of
the range becomes that end, and a NaN becomes zero. -/
def castInt32 (d : Double) : Int32 :=
  match d.worth? with
  | none => 0
  | some (.infinity negative) => if negative then Int32.minValue else Int32.maxValue
  | some (.finite r) =>
    let whole : ℤ := if 0 ≤ r then ⌊r⌋ else ⌈r⌉
    Int32.ofInt (max (-2 ^ 31) (min (2 ^ 31 - 1) whole))

/-- The cast of a double that is worth an integer of 32 bits is that integer. -/
theorem castInt32_eq (h : d.worth? = some (.finite i.toInt)) : d.castInt32 = i := by
  have hlo := i.le_toInt
  have hhi := i.toInt_lt
  rw [castInt32, h]
  simp only [Int.floor_intCast, Int.ceil_intCast, ite_self]
  rw [min_eq_right (by omega), max_eq_right (by omega), Int32.ofInt_toInt]

/-- A double is an integer of 32 bits exactly if the cast to 32 bits and back does not change its
value. -/
theorem toInt32?_eq (d : Double) :
    d.toInt32? = if (ofInt32 d.castInt32).sameValue d then some d.castInt32 else none := by
  split
  case isTrue hsame =>
    obtain ⟨w, hcast, hw⟩ := sameValue_iff.1 hsame
    rw [worth?_ofInt32, Option.some_inj] at hcast
    exact toInt32?_eq_some_iff.2 (hcast ▸ hw)
  case isFalse hsame =>
    rw [Option.eq_none_iff_forall_ne_some]
    intro i hi
    have hworth := toInt32?_eq_some_iff.1 hi
    refine hsame (sameValue_iff.2 ⟨_, ?_, hworth⟩)
    rw [castInt32_eq hworth, worth?_ofInt32]

end Double

end JitDump
