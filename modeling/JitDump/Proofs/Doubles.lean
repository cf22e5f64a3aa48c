import JitDump.Listing
import JitDump.Proofs.Numerals

/-!
# Doubles are told apart by what is listed of them

The bits of a double below its sign count the magnitudes in order.  Where the
interval of one ends that of the next begins, and of two neighbours only the
even one has the end they share, so a real rounds to one magnitude.  A finite
double is listed as a numeral that rounds to it; of the others infinities are
known by their signs and NaNs by their bits.
-/

namespace JitDump

/-! ## Magnitudes side by side -/

namespace Binary

variable {n n' : ℕ} {r : ℚ}

/-- The magnitudes of doubles in order, from zero. -/
def nth (n : ℕ) : Binary :=
  let field := n / 2 ^ 52
  let fraction := n % 2 ^ 52
  ⟨if field = 0 then fraction else 2 ^ 52 + fraction, (max field 1 : ℕ) - 1075,
    fraction == 0 && decide (1 < field)⟩

theorem nth_m_mod_two (n : ℕ) : (nth n).m % 2 = n % 2 := by
  simp only [nth]
  split <;> omega

/-- The next magnitude is one unit on, and where there is no room for one it is the least power of
two of the unit that is twice as large. -/
theorem nth_succ_cases (n : ℕ) : nth (n + 1) = ⟨(nth n).m + 1, (nth n).q, false⟩ ∨
    ((nth n).m = 2 ^ 53 - 1 ∧ nth (n + 1) = ⟨2 ^ 52, (nth n).q + 1, true⟩) := by
  rcases Nat.lt_or_ge (n % 2 ^ 52 + 1) (2 ^ 52) with hf | hf
  · left
    have hfield : (n + 1) / 2 ^ 52 = n / 2 ^ 52 := by omega
    have hfraction : (n + 1) % 2 ^ 52 = n % 2 ^ 52 + 1 := by omega
    simp only [nth, hfield, hfraction]
    split <;> rfl
  · have hfield : (n + 1) / 2 ^ 52 = n / 2 ^ 52 + 1 := by omega
    have hfraction : (n + 1) % 2 ^ 52 = 0 := by omega
    have hlast : n % 2 ^ 52 = 2 ^ 52 - 1 := by omega
    simp only [nth, hfield, hfraction, hlast]
    rcases Nat.eq_zero_or_pos (n / 2 ^ 52) with hzero | hpos
    · left
      rw [hzero]
      rfl
    · right
      have hq : ((max (n / 2 ^ 52 + 1) 1 : ℕ) : ℤ) - 1075 =
          (max (n / 2 ^ 52) 1 : ℕ) - 1075 + 1 := by omega
      have hclose : (0 == 0 && decide (1 < n / 2 ^ 52 + 1)) = true := by simp; omega
      rw [hq, hclose, if_neg hpos.ne', if_neg (Nat.succ_ne_zero _)]
      exact ⟨rfl, rfl⟩

/-- Magnitudes lie side by side: where the unit is twice as large, the lower end is nearer. -/
theorem lower_nth_succ (n : ℕ) : (nth (n + 1)).lower = (nth n).upper := by
  rw [lower, upper, lowerQuarters, upperQuarters]
  rcases nth_succ_cases n with hnext | ⟨hm, hnext⟩ <;> rw [hnext]
  · rw [if_neg Bool.false_ne_true]
    congr 2
  · have hq : (nth n).q + 1 - 2 = (nth n).q - 2 + 1 := by ring
    rw [if_pos rfl, hm, hq, zpow_add_one₀ (by norm_num)]
    push_cast
    ring

theorem upper_nth_strictMono : StrictMono fun n ↦ (nth n).upper := by
  refine strictMono_nat_of_lt_succ fun n ↦ ?_
  have hm : 0 < (nth (n + 1)).m := by
    simp only [nth]
    split <;> omega
  rw [← lower_nth_succ]
  exact (lower_lt_value hm).trans (value_lt_upper _)

/-- A real rounds to one magnitude. -/
theorem nth_admits_inj (h : (nth n).Admits r) (h' : (nth n').Admits r) : n = n' := by
  wlog hlt : n < n' generalizing n n'
  · rcases Nat.lt_or_ge n' n with hgt | hge
    · exact (this h' h hgt).symm
    · omega
  obtain ⟨n', rfl⟩ : ∃ i, n' = i + 1 := ⟨n' - 1, by omega⟩
  have hle := h'.lower_le.trans h.le_upper
  rw [lower_nth_succ, upper_nth_strictMono.le_iff_le] at hle
  obtain rfl : n' = n := by omega
  -- the end that two neighbours share belongs to one of them only
  rw [Admits, nth_m_mod_two] at h h'
  rw [lower_nth_succ] at h'
  split at h <;> split at h'
  · omega
  · exact absurd h.2 (not_le.2 h'.1)
  · exact absurd h'.1 (not_le.2 h.2)
  · omega

end Binary

/-! ## Finite doubles -/

namespace Double

open Binary

variable {d e : Double}

theorem exponentField_eq (d : Double) : d.exponentField = d.bits.toNat % 2 ^ 63 / 2 ^ 52 := by
  have hmask : (0x7ff : UInt64).toNat = 2 ^ 11 - 1 := rfl
  have hshift : (52 : UInt64).toNat % 64 = 52 := rfl
  rw [exponentField, UInt64.toNat_and, UInt64.toNat_shiftRight, hmask, hshift,
    Nat.and_two_pow_sub_one_eq_mod, Nat.shiftRight_eq_div_pow]
  omega

theorem fraction_eq (d : Double) : d.fraction = d.bits.toNat % 2 ^ 63 % 2 ^ 52 := by
  have hmask : (0xfffffffffffff : UInt64).toNat = 2 ^ 52 - 1 := rfl
  rw [fraction, UInt64.toNat_and, hmask, Nat.and_two_pow_sub_one_eq_mod]
  omega

theorem isNegative_iff (d : Double) : d.isNegative = true ↔ d.bits.toNat / 2 ^ 63 = 1 := by
  have hshift : (63 : UInt64).toNat % 64 = 63 := rfl
  rw [isNegative, beq_iff_eq, ← UInt64.toNat_inj, UInt64.toNat_shiftRight, hshift,
    Nat.shiftRight_eq_div_pow]
  rfl

/-- A double is its sign and the rest of its bits. -/
theorem eq_of_low_eq (hsign : d.isNegative = e.isNegative)
    (hlow : d.bits.toNat % 2 ^ 63 = e.bits.toNat % 2 ^ 63) : d = e := by
  rw [Bool.eq_iff_iff, isNegative_iff, isNegative_iff] at hsign
  have hd := d.bits.toNat_lt
  have he := e.bits.toNat_lt
  have hbits : d.bits = e.bits := UInt64.toNat_inj.1 (by omega)
  cases d
  cases e
  exact congrArg mk hbits

theorem magnitude_eq (d : Double) : d.magnitude = nth (d.bits.toNat % 2 ^ 63) := by
  rw [nth, ← exponentField_eq, ← fraction_eq]
  rfl

theorem isZero_eq_true_iff : d.isZero = true ↔ d.magnitude.m = 0 := by
  simp only [isZero, magnitude, significand, Bool.and_eq_true, beq_iff_eq]
  split
  case isTrue hfield => exact and_iff_right hfield
  case isFalse hfield =>
    exact iff_of_false (hfield ·.1) (Nat.add_pos_left (by decide) d.fraction).ne'

/-- The units of finite doubles. -/
theorem magnitude_q_range (hd : d.isFinite = true) :
    -1074 ≤ d.magnitude.q ∧ d.magnitude.q ≤ 971 := by
  have hle : d.exponentField ≤ 2047 := by
    rw [exponentField_eq]
    omega
  rw [isFinite, bne_iff_ne] at hd
  simp only [magnitude, exponent]
  omega

/-- What a finite double is written as rounds to it. -/
theorem shortestDecimal_admits (hd : d.isFinite = true) :
    d.magnitude.Admits d.shortestDecimal.value := by
  obtain ⟨hl, hu⟩ := magnitude_q_range hd
  rw [shortestDecimal]
  split
  case isTrue hzero =>
    have hm := isZero_eq_true_iff.1 hzero
    rw [Admits, hm, lower, upper, lowerQuarters, upperQuarters, hm]
    simp [Decimal.value]
    positivity
  case isFalse hzero =>
    exact shortest_admits (Nat.pos_of_ne_zero (mt isZero_eq_true_iff.2 hzero)) hl hu

/-- Finite doubles are told apart by their signs and what they are written as. -/
theorem shortestDecimal_inj (hd : d.isFinite = true) (he : e.isFinite = true)
    (hsign : d.isNegative = e.isNegative)
    (hvalue : d.shortestDecimal.value = e.shortestDecimal.value) : d = e := by
  have hd' := shortestDecimal_admits hd
  have he' := shortestDecimal_admits he
  rw [magnitude_eq] at hd' he'
  rw [hvalue] at hd'
  exact eq_of_low_eq hsign (nth_admits_inj hd' he')

/-! ## What is listed -/

/-- A finite double is written as a numeral of its sign and its shortest decimal. -/
theorem exists_numeral (d : Double) : ∃ n : Numeral, n.negative = d.isNegative ∧
    d.text = String.ofList n.chars ∧ n.Writes (d.shortestDecimal.text layout).toList
      (Nat.toDigits 10 d.shortestDecimal.digits) d.shortestDecimal.exponent := by
  obtain ⟨n, hneg, hwrites⟩ := Numeral.exists_decimal d.isNegative layout d.shortestDecimal
  refine ⟨n, hneg, ?_, hwrites⟩
  rw [text, Numeral.chars, Numeral.signChars, hneg, hwrites.unsigned]
  split <;> simp

/-- Finite doubles are told apart by their texts. -/
theorem text_inj (hd : d.isFinite = true) (he : e.isFinite = true) (h : d.text = e.text) :
    d = e := by
  obtain ⟨n, hneg, hchars, hwrites⟩ := d.exists_numeral
  obtain ⟨n', hneg', hchars', hwrites'⟩ := e.exists_numeral
  rw [hchars, hchars', String.ofList_inj] at h
  have hread := congrArg Numeral.read h
  rw [Numeral.read_chars, Numeral.read_chars, Prod.mk.injEq] at hread
  refine shortestDecimal_inj hd he ?_ ?_
  · rw [← hneg, ← hneg', hread.1]
  · rw [← hwrites.magnitude_eq, ← hwrites'.magnitude_eq, hread.2]

/-- What is written of a double that is not finite. -/
def name (d : Double) : String :=
  if d.isNaN then if d = canonicalNaN then "nan" else "nan:0x" ++ Hex.padded 16 d.bits.toNat
  else if d.isNegative then "-inf" else "inf"

theorem toJson_eq (d : Double) :
    d.toJson = if d.isFinite then .number d.text else .string d.name := by
  rw [toJson, name]
  split_ifs <;> rfl

/-- The names of NaNs are those with an `n` in front. -/
theorem head?_name (d : Double) : d.name.toList.head? = some 'n' ↔ d.isNaN = true := by
  rw [name]
  split_ifs with hnan <;> simp [hnan]

/-- NaNs are told apart by their bits. -/
theorem eq_of_name_eq_of_isNaN (hd : d.isNaN = true) (he : e.isNaN = true)
    (h : d.name = e.name) : d = e := by
  rw [name, name, if_pos hd, if_pos he] at h
  split_ifs at h with hd' he' he'
  · rw [hd', he']
  · simp [← String.toList_inj] at h
  · simp [← String.toList_inj] at h
  · rw [← String.toList_inj, String.toList_append, String.toList_append,
      List.append_cancel_left_eq] at h
    have hbits := congrArg Json.hexValue h
    rw [Json.hexValue_padded, Json.hexValue_padded, UInt64.toNat_inj] at hbits
    cases d
    cases e
    exact congrArg mk hbits

/-- An infinity has no bits but its sign and its exponent. -/
theorem low_eq (hd : d.isFinite = false) (hnan : d.isNaN = false) :
    d.bits.toNat % 2 ^ 63 = 2047 * 2 ^ 52 := by
  rw [isFinite, bne_eq_false_iff_eq] at hd
  rw [isNaN, hd, beq_self_eq_true, Bool.true_and, bne_eq_false_iff_eq] at hnan
  rw [exponentField_eq] at hd
  rw [fraction_eq] at hnan
  omega

/-- Infinities are told apart by their signs. -/
theorem eq_of_name_eq_of_infinite (hd : d.isFinite = false) (he : e.isFinite = false)
    (hd' : d.isNaN = false) (he' : e.isNaN = false) (h : d.name = e.name) : d = e := by
  refine eq_of_low_eq ?_ ((low_eq hd hd').trans (low_eq he he').symm)
  rw [name, name, hd', he'] at h
  cases hneg : d.isNegative <;> cases hneg' : e.isNegative <;> simp [hneg, hneg'] at h ⊢

/-- Doubles are told apart by what is listed of them. -/
theorem toJson_injective : Function.Injective toJson := by
  intro d e h
  rw [toJson_eq, toJson_eq] at h
  split_ifs at h with hd he he
  · exact text_inj hd he (Json.number.inj h)
  · rw [Bool.not_eq_true] at hd he
    have hname := Json.string.inj h
    have hnan := d.head?_name
    rw [hname, e.head?_name, ← Bool.eq_iff_iff] at hnan
    cases hd' : d.isNaN
    · exact eq_of_name_eq_of_infinite hd he hd' (hnan.trans hd') hname
    · exact eq_of_name_eq_of_isNaN hd' (hnan.trans hd') hname

@[simp] theorem plain_toJson (d : Double) : d.toJson.Plain := by
  rw [toJson_eq]
  split
  · obtain ⟨n, -, hchars, -⟩ := d.exists_numeral
    rw [Json.Plain, hchars]
    exact n.numeric
  · exact Json.plain_string _

end Double

end JitDump
