import Mathlib.Algebra.Order.Ring.Abs
import Mathlib.Tactic.Linarith
import Mathlib.Tactic.NormNum
import JitDump.Proofs.Worths

/-!
# The nearest double

A real rounds to the finite double that is nearest to it, to the one with an even
fraction if two are equally near, and to none of them from half a unit beyond the
greatest on.  The end that two magnitudes share is the middle between them, so
the reals that round to a double are, up to the sign, those its magnitude admits.
-/

namespace JitDump

section Distance

variable {r a b : ℚ}

theorem abs_sub_le_iff_of_lt (h : a < b) : |r - a| ≤ |r - b| ↔ 2 * r ≤ a + b := by
  have hsquares : (r - b) ^ 2 - (r - a) ^ 2 = (b - a) * (a + b - 2 * r) := by ring
  rw [← sq_le_sq, ← sub_nonneg, hsquares, mul_nonneg_iff_of_pos_left (sub_pos.2 h), sub_nonneg]

theorem abs_sub_le_iff_of_gt (h : b < a) : |r - a| ≤ |r - b| ↔ a + b ≤ 2 * r := by
  have hmirrored := abs_sub_le_iff_of_lt (r := -r) (neg_lt_neg h)
  rwa [neg_sub_neg, neg_sub_neg, abs_sub_comm a, abs_sub_comm b, mul_neg, ← neg_add,
    neg_le_neg_iff] at hmirrored

/-- Two numbers are equally near to their middle only. -/
theorem abs_sub_eq_iff_of_ne (h : a ≠ b) : |r - a| = |r - b| ↔ 2 * r = a + b := by
  wlog hlt : a < b generalizing a b
  · rw [eq_comm, this h.symm (lt_of_le_of_ne (not_lt.1 hlt) h.symm), add_comm]
  · rw [le_antisymm_iff, abs_sub_le_iff_of_lt hlt, abs_sub_le_iff_of_gt hlt, add_comm b,
      ← le_antisymm_iff]

end Distance

/-! ## Nearest magnitudes -/

namespace Binary

variable {n k : ℕ} {s : ℚ}

theorem nth_value_succ (n : ℕ) :
    (nth (n + 1)).value = ((nth n).m + 1 : ℕ) * 2 ^ (nth n).q := by
  rcases nth_succ_cases n with hnext | ⟨hm, hnext⟩ <;> rw [hnext, value]
  rw [hm, zpow_add_one₀ (by norm_num)]
  push_cast
  ring

/-- The end of an interval is the middle between the number and the next. -/
theorem two_mul_upper (n : ℕ) :
    2 * (nth n).upper = (nth n).value + (nth (n + 1)).value := by
  rw [nth_value_succ, upper, upperQuarters, value, zpow_sub₀ (by norm_num)]
  push_cast
  ring

theorem nth_value_strictMono : StrictMono fun n ↦ (nth n).value := by
  refine strictMono_nat_of_lt_succ fun n ↦ ?_
  have hmiddle := two_mul_upper n
  have hlt := value_lt_upper (nth n)
  linarith

theorem nth_value_zero : (nth 0).value = 0 := by
  rw [value_eq_zero_iff, nth]
  decide

theorem lower_nth_zero : (nth 0).lower = 0 := by
  rw [lower, lowerQuarters]
  simp [nth]

/-- What an odd number admits lies inside its interval. -/
theorem Admits.strict (h : (nth n).Admits s) (hodd : n % 2 ≠ 0) :
    (nth n).lower < s ∧ s < (nth n).upper := by
  rwa [Admits, nth_m_mod_two, if_neg hodd] at h

theorem nth_admits (hlo : (nth n).lower ≤ s) (hup : s ≤ (nth n).upper)
    (hends : s = (nth n).lower ∨ s = (nth n).upper → n % 2 = 0) : (nth n).Admits s := by
  rw [Admits, nth_m_mod_two]
  split
  case isTrue => exact ⟨hlo, hup⟩
  case isFalse hodd =>
    refine ⟨lt_of_le_of_ne hlo fun h ↦ ?_, lt_of_le_of_ne hup fun h ↦ ?_⟩
    · exact hodd (hends (.inl h.symm))
    · exact hodd (hends (.inr h))

/-- Between a number and one above it the end of its interval comes first. -/
theorem two_mul_upper_le (h : n < k) : 2 * (nth n).upper ≤ (nth n).value + (nth k).value := by
  have hle : (nth (n + 1)).value ≤ (nth k).value := nth_value_strictMono.monotone h
  rw [two_mul_upper]
  linarith

theorem le_two_mul_lower (h : k < n) : (nth n).value + (nth k).value ≤ 2 * (nth n).lower := by
  obtain ⟨n, rfl⟩ : ∃ i, n = i + 1 := ⟨n - 1, by omega⟩
  have hle : (nth k).value ≤ (nth n).value := nth_value_strictMono.monotone (by omega)
  rw [lower_nth_succ, two_mul_upper]
  linarith

/-- No number is nearer to a real than the one that admits it. -/
theorem Admits.nearest (h : (nth n).Admits s) (k : ℕ) :
    |s - (nth n).value| ≤ |s - (nth k).value| := by
  rcases lt_trichotomy n k with hlt | rfl | hgt
  · rw [abs_sub_le_iff_of_lt (nth_value_strictMono hlt)]
    have hle := two_mul_upper_le hlt
    have hup := h.le_upper
    linarith
  · exact le_rfl
  · rw [abs_sub_le_iff_of_gt (nth_value_strictMono hgt)]
    have hle := le_two_mul_lower hgt
    have hlo := h.lower_le
    linarith

/-- Only an even number admits a real that is equally near to another. -/
theorem Admits.even (h : (nth n).Admits s) (hne : k ≠ n)
    (htie : |s - (nth n).value| = |s - (nth k).value|) : n % 2 = 0 := by
  by_contra hodd
  obtain ⟨hlo, hup⟩ := h.strict hodd
  rw [abs_sub_eq_iff_of_ne (nth_value_strictMono.injective.ne hne.symm)] at htie
  rcases Nat.lt_or_gt_of_ne hne with hgt | hlt
  · have hle := le_two_mul_lower hgt
    linarith
  · have hle := two_mul_upper_le hlt
    linarith

end Binary

/-! ## Rounding to doubles -/

namespace Double

open Binary

variable {d e : Double} {s : ℚ} {k : ℕ} {negative : Bool}

/-- Where the finite doubles end: half a unit beyond the greatest. -/
def overflow : ℚ := 2 ^ 1024 - 2 ^ 970

/-- A real rounds to a finite double: none is nearer, and if one of another value is equally near,
the last bit of the double is zero. -/
structure Rounds (r : ℚ) (d : Double) : Prop where
  isFinite : d.isFinite = true
  lt_overflow : |r| < overflow
  nearest : ∀ e : Double, e.isFinite = true → |r - d.toRat| ≤ |r - e.toRat|
  even : ∀ e : Double, e.isFinite = true → |r - d.toRat| = |r - e.toRat| → e.toRat ≠ d.toRat →
    d.fraction % 2 = 0

/-- The place of a finite double among the magnitudes. -/
theorem low_lt_iff : d.bits.toNat % 2 ^ 63 < 2047 * 2 ^ 52 ↔ d.isFinite = true := by
  rw [isFinite_iff, exponentField_eq]
  omega

theorem fraction_mod_two (d : Double) : d.fraction % 2 = d.bits.toNat % 2 ^ 63 % 2 := by
  rw [fraction_eq]
  omega

/-- The double of a sign and a magnitude. -/
def ofLow (negative : Bool) (k : ℕ) : Double :=
  ⟨UInt64.ofNat (if negative then 2 ^ 63 + k else k)⟩

theorem ofLow_spec (negative : Bool) (hk : k < 2047 * 2 ^ 52) :
    (ofLow negative k).isFinite = true ∧ (ofLow negative k).isNegative = negative ∧
      (ofLow negative k).magnitude = nth k := by
  have hbits : (ofLow negative k).bits.toNat = if negative then 2 ^ 63 + k else k := by
    rw [ofLow, UInt64.toNat_ofNat']
    split <;> omega
  have hlow : (ofLow negative k).bits.toNat % 2 ^ 63 = k := by
    rw [hbits]
    split <;> omega
  refine ⟨low_lt_iff.1 (by omega), ?_, by rw [magnitude_eq, hlow]⟩
  rw [Bool.eq_iff_iff, isNegative_iff, hbits]
  split
  case isTrue hneg => exact iff_of_true (by omega) hneg
  case isFalse hneg => exact iff_of_false (by omega) hneg

/-- The end of the interval of the greatest double. -/
theorem upper_greatest : (nth (2047 * 2 ^ 52 - 1)).upper = overflow := by
  have hquarters : (nth (2047 * 2 ^ 52 - 1)).upperQuarters = 2 ^ 55 - 2 := by decide
  have hq : (nth (2047 * 2 ^ 52 - 1)).q - 2 = (969 : ℕ) := by decide
  have hends : (2 : ℚ) ^ 1024 - 2 ^ 970 = 2 ^ 55 * 2 ^ 969 - 2 * 2 ^ 969 := by
    rw [← pow_add, ← pow_succ']
  rw [upper, hquarters, hq, zpow_natCast, overflow, hends, ← sub_mul, Nat.cast_sub (by decide)]
  push_cast
  rfl

/-- The number of a sign and a magnitude. -/
def signed (negative : Bool) (s : ℚ) : ℚ := if negative then -s else s

theorem toRat_eq_signed (d : Double) : d.toRat = signed d.isNegative d.magnitude.value := d.toRat_eq

theorem abs_signed (negative : Bool) (s : ℚ) : |signed negative s| = |s| := by
  rw [signed]
  split
  · exact abs_neg s
  · rfl

/-- Between numbers of one sign lies what lies between their magnitudes. -/
theorem abs_signed_sub_toRat (s : ℚ) (h : d.isNegative = negative) :
    |signed negative s - d.toRat| = |s - d.magnitude.value| := by
  rw [toRat_eq_signed, h, signed, signed]
  split
  · rw [neg_sub_neg, abs_sub_comm]
  · rfl

/-- Between numbers of two signs lies zero. -/
theorem abs_signed_sub_toRat_of_ne (hs : 0 ≤ s) (h : d.isNegative ≠ negative) :
    |signed negative s - d.toRat| = s + d.magnitude.value := by
  rw [← abs_of_nonneg (add_nonneg hs d.magnitude.value_nonneg), toRat_eq_signed, signed, signed]
  cases negative <;> cases hneg : d.isNegative <;> simp only [hneg] at h ⊢
  · exact absurd rfl h
  · simp
  · rw [← abs_neg]
    simp [add_comm]
  · exact absurd rfl h

/-- A number is no nearer to a double than its magnitude is to that of the double. -/
theorem abs_sub_magnitude_le (negative : Bool) (hs : 0 ≤ s) (d : Double) :
    |s - d.magnitude.value| ≤ |signed negative s - d.toRat| := by
  by_cases h : d.isNegative = negative
  · exact (abs_signed_sub_toRat s h).ge
  · have hv := d.magnitude.value_nonneg
    rw [abs_signed_sub_toRat_of_ne hs h, abs_le]
    constructor <;> linarith

/-- Two doubles of one magnitude that are nearest to a number are of one value. -/
theorem toRat_eq_of_tie (hs : 0 ≤ s) (h : d.magnitude.Admits s)
    (hvalue : e.magnitude.value = d.magnitude.value)
    (htie : |s - d.magnitude.value| = |signed d.isNegative s - e.toRat|) : e.toRat = d.toRat := by
  by_cases hsign : e.isNegative = d.isNegative
  · rw [toRat_eq_signed, toRat_eq_signed, hsign, hvalue]
  rw [abs_signed_sub_toRat_of_ne hs hsign, hvalue] at htie
  -- zero is no nearer, so nothing lies between the two
  have hv := d.magnitude.value_nonneg
  have hzero : |s - d.magnitude.value| ≤ s := by
    rw [magnitude_eq] at h ⊢
    have hnear := h.nearest 0
    rwa [nth_value_zero, sub_zero, abs_of_nonneg hs] at hnear
  have hmagnitude : d.magnitude.value = 0 := le_antisymm (by linarith) hv
  rw [toRat_eq_zero_iff.2 hmagnitude, toRat_eq_zero_iff.2 (hvalue.trans hmagnitude)]

/-- A number rounds to the finite double of its sign that admits its magnitude. -/
theorem rounds_of_admits (hd : d.isFinite = true) (hs : 0 ≤ s) (h : d.magnitude.Admits s) :
    Rounds (signed d.isNegative s) d := by
  have hself := abs_signed_sub_toRat (d := d) s rfl
  have hlow := low_lt_iff.2 hd
  have hnth := h
  rw [magnitude_eq] at hnth
  have hnear (e : Double) : |s - d.magnitude.value| ≤ |s - e.magnitude.value| := by
    rw [d.magnitude_eq, e.magnitude_eq]
    exact hnth.nearest _
  refine ⟨hd, ?_, fun e _ ↦ ?_, fun e _ htie hne ↦ ?_⟩
  · rw [abs_signed, abs_of_nonneg hs, ← upper_greatest]
    rcases Nat.lt_or_ge (d.bits.toNat % 2 ^ 63) (2047 * 2 ^ 52 - 1) with hlt | hge
    · exact hnth.le_upper.trans_lt (upper_nth_strictMono hlt)
    · have hlast : d.bits.toNat % 2 ^ 63 = 2047 * 2 ^ 52 - 1 := by omega
      rw [hlast] at hnth
      exact (hnth.strict (by decide)).2
  · rw [hself]
    exact (hnear e).trans (abs_sub_magnitude_le _ hs e)
  · rw [hself] at htie
    have heq : |s - d.magnitude.value| = |s - e.magnitude.value| :=
      le_antisymm (hnear e) ((abs_sub_magnitude_le _ hs e).trans htie.ge)
    rw [fraction_mod_two]
    refine hnth.even (k := e.bits.toNat % 2 ^ 63) (fun hk ↦ ?_) ?_
    · refine hne (toRat_eq_of_tie hs h ?_ htie)
      rw [magnitude_eq, magnitude_eq, hk]
    · rwa [magnitude_eq, magnitude_eq] at heq

/-- A double to which a number of its sign rounds is as near in magnitude as any other. -/
theorem Rounds.nearest_nth (h : Rounds (signed d.isNegative s) d)
    (hk : k < 2047 * 2 ^ 52) (hne : k ≠ d.bits.toNat % 2 ^ 63) :
    |s - d.magnitude.value| ≤ |s - (nth k).value| ∧
      (|s - d.magnitude.value| = |s - (nth k).value| → d.bits.toNat % 2 ^ 63 % 2 = 0) := by
  obtain ⟨hfin, hneg, hmag⟩ := ofLow_spec d.isNegative hk
  have hnear := h.nearest _ hfin
  have heven := h.even _ hfin
  rw [abs_signed_sub_toRat s rfl, abs_signed_sub_toRat s hneg, hmag] at hnear heven
  rw [fraction_mod_two] at heven
  refine ⟨hnear, fun htie ↦ heven htie fun heq ↦ ?_⟩
  have habs := congrArg (|·|) heq
  simp only [abs_toRat, hmag] at habs
  rw [magnitude_eq] at habs
  exact hne (nth_value_strictMono.injective habs)

/-- A double to which a number of its sign rounds admits the magnitude of the number. -/
theorem Rounds.admits (h : Rounds (signed d.isNegative s) d) (hs : 0 ≤ s) :
    d.magnitude.Admits s := by
  have hlow := low_lt_iff.2 h.isFinite
  have hlt := h.lt_overflow
  have hnear (k : ℕ) := h.nearest_nth (k := k)
  rw [abs_signed, abs_of_nonneg hs, ← upper_greatest] at hlt
  rw [magnitude_eq] at hnear ⊢
  generalize d.bits.toNat % 2 ^ 63 = n at hlow hnear
  have hup : s ≤ (nth n).upper ∧ (s = (nth n).upper → n % 2 = 0) := by
    rcases Nat.lt_or_ge (n + 1) (2047 * 2 ^ 52) with hnext | hlast
    · obtain ⟨hle, heven⟩ := hnear (n + 1) hnext (by omega)
      have hv := nth_value_strictMono n.lt_succ_self
      rw [abs_sub_le_iff_of_lt hv, ← two_mul_upper] at hle
      rw [abs_sub_eq_iff_of_ne hv.ne, ← two_mul_upper] at heven
      exact ⟨by linarith, fun htie ↦ heven (by rw [htie])⟩
    · obtain rfl : n = 2047 * 2 ^ 52 - 1 := by omega
      exact ⟨hlt.le, fun htie ↦ absurd htie hlt.ne⟩
  have hlo : (nth n).lower ≤ s ∧ (s = (nth n).lower → n % 2 = 0) := by
    cases n with
    | zero => exact ⟨lower_nth_zero.trans_le hs, fun _ ↦ rfl⟩
    | succ n =>
      obtain ⟨hle, heven⟩ := hnear n (by omega) (by omega)
      have hv := nth_value_strictMono n.lt_succ_self
      rw [abs_sub_le_iff_of_gt hv, add_comm, ← two_mul_upper, ← lower_nth_succ] at hle
      rw [abs_sub_eq_iff_of_ne hv.ne', add_comm, ← two_mul_upper, ← lower_nth_succ] at heven
      exact ⟨by linarith, fun htie ↦ heven (by rw [htie])⟩
  exact nth_admits hlo.1 hup.1 fun hends ↦ hends.elim hlo.2 hup.2

end Double

end JitDump
