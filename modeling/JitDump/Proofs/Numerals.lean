import JitDump.Decimal.Layout
import JitDump.Proofs.Documents
import JitDump.Proofs.Rounding

/-!
# Numerals can be read

A decimal numeral is a sign, digits on both sides of a point, and an exponent,
and each of these parts can be found in its text.  Whole numbers and decimals
are written as numerals, whatever the layout, so a text tells their sign and
what they stand for.
-/

namespace JitDump

/-! ## Hexadecimal numerals -/

namespace Json

theorem hexValue_append (cs : List Char) (c : Char) :
    hexValue (cs ++ [c]) = 16 * hexValue cs + Hex.digitValue c := by
  rw [hexValue, List.foldl_append]
  rfl

theorem hexValue_toDigits (n : ℕ) : hexValue (Nat.toDigits 16 n) = n := by
  have hdigit : ∀ i < 16, Hex.digitValue (Nat.digitChar i) = i := by decide
  induction n using Nat.strongRecOn with
  | ind n ih =>
    rcases Nat.lt_or_ge n 16 with hlt | hge
    · rw [Nat.toDigits_of_lt_base hlt]
      exact (hexValue_append [] _).trans ((Nat.zero_add _).trans (hdigit n hlt))
    · rw [Nat.toDigits_of_base_le (by decide) hge, hexValue_append, ih _ (by omega),
        hdigit _ (Nat.mod_lt _ (by decide))]
      omega

theorem hexValue_padded (width n : ℕ) : hexValue (Hex.padded width n).toList = n := by
  have hzeros : ∀ i, hexValue (List.replicate i '0') = 0 := by
    intro i
    induction i with
    | zero => rfl
    | succ i ih =>
      rw [List.replicate_succ', hexValue_append, ih]
      decide
  rw [Hex.padded, String.toList_ofList, hexValue, List.foldl_append]
  exact (congrArg (fun i ↦ List.foldl _ i _) (hzeros _)).trans (hexValue_toDigits n)

end Json

/-! ## Decimal numerals -/

/-- A decimal numeral by its parts. -/
structure Numeral where
  negative : Bool
  whole : List Char
  fraction : List Char
  /-- The exponent, if one is written. -/
  exponent : Option ℤ
  whole_ne_nil : whole ≠ []
  whole_isDigit : ∀ c ∈ whole, c.isDigit = true
  fraction_isDigit : ∀ c ∈ fraction, c.isDigit = true

namespace Numeral

def signChars (negative : Bool) : List Char := if negative then ['-'] else []

def fractionChars (fraction : List Char) : List Char :=
  if fraction = [] then [] else '.' :: fraction

def exponentChars : Option ℤ → List Char
  | none => []
  | some e => 'e' :: (if e < 0 then '-' else '+') :: Nat.toDigits 10 e.natAbs

/-- The text of a numeral without its sign. -/
def unsigned (n : Numeral) : List Char :=
  n.whole ++ fractionChars n.fraction ++ exponentChars n.exponent

def chars (n : Numeral) : List Char := signChars n.negative ++ n.unsigned

/-- What a numeral stands for, apart from its sign. -/
def magnitude (n : Numeral) : ℚ :=
  Nat.ofDigitChars 10 (n.whole ++ n.fraction) 0 *
    10 ^ (n.exponent.getD 0 - n.fraction.length)

/-! ### Reading -/

def readExponent : List Char → ℤ
  | '-' :: ds => -Nat.ofDigitChars 10 ds 0
  | '+' :: ds => Nat.ofDigitChars 10 ds 0
  | ds => Nat.ofDigitChars 10 ds 0

def readUnsigned (cs : List Char) : ℚ :=
  let mantissa := cs.takeWhile (· != 'e')
  let fraction := (mantissa.dropWhile (· != '.')).drop 1
  Nat.ofDigitChars 10 (mantissa.takeWhile (· != '.') ++ fraction) 0 *
    10 ^ (readExponent ((cs.dropWhile (· != 'e')).drop 1) - fraction.length)

/-- The sign of a text and what it stands for without it. -/
def read : List Char → Bool × ℚ
  | '-' :: cs => (true, readUnsigned cs)
  | cs => (false, readUnsigned cs)

variable {n : Numeral} {c : Char} {cs : List Char} {e : Option ℤ}

theorem ne_of_isDigit (h : c.isDigit = true) :
    c ≠ 'e' ∧ c ≠ '.' ∧ c ≠ '-' := by
  refine ⟨?_, ?_, ?_⟩ <;> rintro rfl <;> exact absurd h (by decide)

theorem readExponent_exponentChars (e : Option ℤ) :
    readExponent ((exponentChars e).drop 1) = e.getD 0 := by
  cases e with
  | none => rfl
  | some e =>
    have hdigits := Nat.ofDigitChars_toDigits (n := e.natAbs) (b := 10) (by decide) (by decide)
    simp only [exponentChars, List.drop_one, List.tail_cons, Option.getD_some]
    split <;> simp only [readExponent, hdigits] <;> omega

theorem stops_exponentChars (e : Option ℤ) : Json.Stops (· != 'e') (exponentChars e) := by
  cases e with
  | none => exact Json.stops_nil
  | some e => exact Json.stops_cons rfl

theorem stops_fractionChars (cs : List Char) : Json.Stops (· != '.') (fractionChars cs) := by
  rw [fractionChars]
  split
  · exact Json.stops_nil
  · exact Json.stops_cons rfl

theorem mem_fractionChars (h : ∀ c ∈ cs, c.isDigit = true) (hc : c ∈ fractionChars cs) :
    c = '.' ∨ c.isDigit = true := by
  rw [fractionChars] at hc
  split at hc
  · cases hc
  · exact (List.mem_cons.1 hc).imp_right (h c)

theorem readUnsigned_unsigned (n : Numeral) : readUnsigned n.unsigned = n.magnitude := by
  have hmantissa : ∀ c ∈ n.whole ++ fractionChars n.fraction, (c != 'e') = true := by
    intro c hc
    rw [bne_iff_ne]
    rcases List.mem_append.1 hc with hc | hc
    · exact (ne_of_isDigit (n.whole_isDigit c hc)).1
    · rcases mem_fractionChars n.fraction_isDigit hc with rfl | hc
      · decide
      · exact (ne_of_isDigit hc).1
  have hwhole : ∀ c ∈ n.whole, (c != '.') = true := fun c hc ↦
    bne_iff_ne.2 (ne_of_isDigit (n.whole_isDigit c hc)).2.1
  obtain ⟨hm, he⟩ := Json.takeWhile_run hmantissa (stops_exponentChars n.exponent)
  obtain ⟨hw, hf⟩ := Json.takeWhile_run hwhole (stops_fractionChars n.fraction)
  have hdrop : (fractionChars n.fraction).drop 1 = n.fraction := by
    rw [fractionChars]
    split <;> simp_all
  rw [readUnsigned, unsigned, hm, he, hw, hf, hdrop, readExponent_exponentChars, magnitude]

/-- A numeral is read as what it is. -/
theorem read_chars (n : Numeral) : read n.chars = (n.negative, n.magnitude) := by
  rw [chars, signChars]
  split
  case isTrue hneg => rw [hneg, List.singleton_append, read, readUnsigned_unsigned]
  case isFalse hneg =>
    -- the first digit is no sign
    obtain ⟨c, cs, hcs⟩ := List.exists_cons_of_ne_nil n.whole_ne_nil
    have hc : c ≠ '-' := (ne_of_isDigit (n.whole_isDigit c (by simp [hcs]))).2.2
    obtain ⟨rest, hrest⟩ : ∃ rest, n.unsigned = c :: rest := ⟨_, by rw [unsigned, hcs]; rfl⟩
    rw [List.nil_append, ← readUnsigned_unsigned, hrest, Bool.eq_false_iff.2 hneg]
    exact read.eq_2 _ fun _ h ↦ hc (List.cons.inj h).1

theorem isNumeric_of_isDigit (h : c.isDigit = true) : Json.isNumeric c = true := by
  simp [Json.isNumeric, h]

theorem isNumeric_of_mem_chars (h : c ∈ n.chars) : Json.isNumeric c = true := by
  rw [chars, unsigned, List.mem_append, List.mem_append, List.mem_append] at h
  rcases h with hsign | (hwhole | hfraction) | hexponent
  · rw [signChars] at hsign
    split at hsign
    · rw [List.mem_singleton.1 hsign]
      decide
    · cases hsign
  · exact isNumeric_of_isDigit (n.whole_isDigit c hwhole)
  · rcases mem_fractionChars n.fraction_isDigit hfraction with rfl | hc
    · decide
    · exact isNumeric_of_isDigit hc
  · cases he : n.exponent with
    | none =>
      rw [he] at hexponent
      cases hexponent
    | some e =>
      rw [he, exponentChars, List.mem_cons, List.mem_cons] at hexponent
      rcases hexponent with rfl | rfl | hc
      · decide
      · split <;> decide
      · exact isNumeric_of_isDigit (Nat.isDigit_of_mem_toDigits (by decide) (by decide) hc)

/-- The text of a numeral is that of a number. -/
theorem numeric (n : Numeral) : Json.Numeric (String.ofList n.chars) where
  ne_nil := by simp [chars, unsigned, n.whole_ne_nil]
  numeric := by
    rw [String.toList_ofList]
    exact fun _ ↦ isNumeric_of_mem_chars

/-! ### Writing -/

/-- The numeral of a whole number. -/
def ofInt (i : ℤ) : Numeral where
  negative := decide (i < 0)
  whole := Nat.toDigits 10 i.natAbs
  fraction := []
  exponent := none
  whole_ne_nil := Nat.toDigits_ne_nil
  whole_isDigit := fun _ ↦ Nat.isDigit_of_mem_toDigits (by decide) (by decide)
  fraction_isDigit := by simp

theorem magnitude_ofInt (i : ℤ) : (ofInt i).magnitude = i.natAbs := by
  rw [magnitude, ofInt, List.append_nil, Nat.ofDigitChars_toDigits (by decide) (by decide)]
  simp

theorem toString_int (i : ℤ) : toString i = String.ofList (ofInt i).chars := by
  have habs : 0 ≤ i ∧ i.toNat = i.natAbs ∨ i < 0 ∧ (-i).toNat = i.natAbs := by omega
  rw [Int.toString_eq_repr, Int.repr_eq_if, ← String.toList_inj, String.toList_ofList]
  obtain ⟨hi, habs⟩ | ⟨hi, habs⟩ := habs
  · simp [chars, unsigned, ofInt, signChars, fractionChars, exponentChars, hi, not_lt.2 hi, habs]
  · simp [chars, unsigned, ofInt, signChars, fractionChars, exponentChars, hi, not_le.2 hi, habs]

theorem toString_int_inj {i j : ℤ} (h : toString i = toString j) : i = j := by
  rw [toString_int, toString_int, String.ofList_inj] at h
  have hread := congrArg read h
  rw [read_chars, read_chars, magnitude_ofInt, magnitude_ofInt, Prod.mk.injEq] at hread
  obtain ⟨hsign, habs⟩ := hread
  have hsign' : i < 0 ↔ j < 0 := decide_eq_decide.1 hsign
  have habs' : i.natAbs = j.natAbs := by exact_mod_cast habs
  omega

section Decimal

variable {ds : List Char}

/-- The digits of a numeral are `ds` between zeros, and the last of `ds` counts `10 ^ e`. -/
def Shows (n : Numeral) (ds : List Char) (e : ℤ) : Prop :=
  ∃ i j : ℕ, n.whole ++ n.fraction = List.replicate i '0' ++ (ds ++ List.replicate j '0') ∧
    j + (n.exponent.getD 0 - n.fraction.length) = e

theorem Shows.magnitude_eq {e : ℤ} (h : n.Shows ds e) :
    n.magnitude = Nat.ofDigitChars 10 ds 0 * 10 ^ e := by
  obtain ⟨i, j, hdigits, rfl⟩ := h
  rw [magnitude, hdigits, Nat.ofDigitChars_append, Nat.ofDigitChars_append,
    Nat.ofDigitChars_replicate_zero, Nat.ofDigitChars_replicate_zero, Nat.mul_zero,
    zpow_add₀ (by norm_num), zpow_natCast]
  push_cast
  ring

/-- What a numeral of the digits `ds` is written as. -/
structure Writes (n : Numeral) (cs ds : List Char) (e : ℤ) : Prop where
  unsigned : n.unsigned = cs
  shows : n.Shows ds e
  /-- In front of the point is a lone zero or what the digits begin with. -/
  whole : n.whole = ['0'] ∨ n.whole <+: ds ++ List.replicate e.toNat '0'

/-- A numeral of the digits of a decimal stands for the decimal. -/
theorem Writes.magnitude_eq {x : Decimal}
    (h : n.Writes cs (Nat.toDigits 10 x.digits) x.exponent) : n.magnitude = x.value := by
  rw [h.shows.magnitude_eq, Nat.ofDigitChars_toDigits (by decide) (by decide), Decimal.value]

theorem isDigit_of_mem_zeros {n : ℕ} (h : c ∈ List.replicate n '0') : c.isDigit = true := by
  rw [List.eq_of_mem_replicate h]
  decide

theorem take_isPrefix_append (ds behind : List Char) (i : ℕ) : ds.take i <+: ds ++ behind :=
  ⟨ds.drop i ++ behind, by rw [← List.append_assoc, List.take_append_drop]⟩

variable (negative : Bool)

/-- Digits behind the point, with zeros in front of them. -/
theorem exists_point_before (hne : ds ≠ []) (hdigit : ∀ c ∈ ds, c.isDigit = true) (i : ℕ) :
    ∃ n : Numeral, n.negative = negative ∧
      n.Writes ('0' :: '.' :: (List.replicate i '0' ++ ds)) ds (-i - ds.length) := by
  have hdigit' : ∀ c ∈ List.replicate i '0' ++ ds, c.isDigit = true :=
    List.forall_mem_append.2 ⟨fun _ ↦ isDigit_of_mem_zeros, hdigit⟩
  refine ⟨⟨negative, ['0'], List.replicate i '0' ++ ds, none, by simp,
    List.forall_mem_singleton.2 rfl, hdigit'⟩, rfl, ?_, ⟨i + 1, 0, ?_, ?_⟩, .inl rfl⟩
  · simp [unsigned, fractionChars, exponentChars, hne]
  · simp [List.replicate_succ]
  · rw [Option.getD_none, List.length_append, List.length_replicate]
    omega

/-- Digits in front of the point, with zeros behind them. -/
theorem exists_point_behind (hne : ds ≠ []) (hdigit : ∀ c ∈ ds, c.isDigit = true) (i : ℕ) :
    ∃ n : Numeral, n.negative = negative ∧
      n.Writes (ds ++ List.replicate i '0' ++ ['.', '0']) ds i := by
  have hdigit' : ∀ c ∈ ds ++ List.replicate i '0', c.isDigit = true :=
    List.forall_mem_append.2 ⟨hdigit, fun _ ↦ isDigit_of_mem_zeros⟩
  refine ⟨⟨negative, ds ++ List.replicate i '0', ['0'], none, by simp [hne], hdigit',
    List.forall_mem_singleton.2 rfl⟩, rfl, ?_, ⟨0, i + 1, ?_, ?_⟩, .inr List.prefix_rfl⟩
  · simp [unsigned, fractionChars, exponentChars]
  · simp [List.replicate_succ']
  · rw [Option.getD_none, List.length_singleton]
    omega

/-- Digits in one of the plain shapes are a numeral, wherever the point stands. -/
theorem exists_plain (hne : ds ≠ []) (hdigit : ∀ c ∈ ds, c.isDigit = true) (k : ℤ) :
    ∃ n : Numeral, n.negative = negative ∧
      n.Writes (Decimal.plain ds k).toList ds (k - ds.length) := by
  rw [Decimal.plain]
  split_ifs with hfront hback
  · obtain ⟨n, hneg, hwrites⟩ := exists_point_before negative hne hdigit (-k).toNat
    have hk : -((-k).toNat : ℤ) = k := by omega
    rw [hk] at hwrites
    exact ⟨n, hneg, by simpa [Decimal.zeros] using hwrites⟩
  · obtain ⟨n, hneg, hwrites⟩ := exists_point_behind negative hne hdigit (k.toNat - ds.length)
    have hk : k - ds.length = (k.toNat - ds.length : ℕ) := by omega
    rw [hk]
    exact ⟨n, hneg, by simpa [Decimal.zeros] using hwrites⟩
  · have htake : ds.take k.toNat ≠ [] := by
      rw [Ne, List.take_eq_nil_iff, not_or]
      exact ⟨by omega, hne⟩
    have hdrop : ds.drop k.toNat ≠ [] := by
      rw [Ne, List.drop_eq_nil_iff]
      exact hback
    refine ⟨⟨negative, ds.take k.toNat, ds.drop k.toNat, none, htake,
      fun c hc ↦ hdigit c (List.mem_of_mem_take hc),
      fun c hc ↦ hdigit c (List.mem_of_mem_drop hc)⟩, rfl, ?_, ⟨0, 0, ?_, ?_⟩,
      .inr (take_isPrefix_append _ _ _)⟩
    · simp [unsigned, fractionChars, exponentChars, hdrop]
    · simp
    · rw [Option.getD_none, List.length_drop]
      omega

theorem exists_scientific (hne : ds ≠ []) (hdigit : ∀ c ∈ ds, c.isDigit = true) (e : ℤ) :
    ∃ n : Numeral, n.negative = negative ∧
      n.Writes (Decimal.scientific ds e).toList ds (e + 1 - ds.length) := by
  have hpos : 0 < ds.length := List.length_pos_iff.2 hne
  refine ⟨⟨negative, ds.take 1, ds.drop 1, some e, by simp [hne],
    fun c hc ↦ hdigit c (List.mem_of_mem_take hc),
    fun c hc ↦ hdigit c (List.mem_of_mem_drop hc)⟩, rfl, ?_, ⟨0, 0, ?_, ?_⟩,
    .inr (take_isPrefix_append _ _ _)⟩
  · rw [unsigned, fractionChars, exponentChars, Decimal.scientific,
      Nat.toString_eq_ofList_toDigits]
    split <;> split <;> split <;> simp_all
  · rw [List.take_append_drop]
    simp
  · rw [Option.getD_some, List.length_drop]
    omega

/-- A decimal is written as a numeral of its digits. -/
theorem exists_decimal (style : Decimal.Layout) (x : Decimal) :
    ∃ n : Numeral, n.negative = negative ∧
      n.Writes (x.text style).toList (Nat.toDigits 10 x.digits) x.exponent := by
  have hne : Nat.toDigits 10 x.digits ≠ [] := Nat.toDigits_ne_nil
  have hdigit : ∀ c ∈ Nat.toDigits 10 x.digits, c.isDigit = true := fun _ ↦
    Nat.isDigit_of_mem_toDigits (by decide) (by decide)
  rw [Decimal.text]
  generalize Nat.toDigits 10 x.digits = ds at hne hdigit
  split
  · have hwrites := exists_plain negative hne hdigit (x.exponent + ds.length)
    rwa [add_sub_cancel_right, ← sub_add_cancel (x.exponent + ds.length) 1] at hwrites
  · have hwrites := exists_scientific negative hne hdigit (x.exponent + ds.length - 1)
    rwa [sub_add_cancel, add_sub_cancel_right] at hwrites

end Decimal

end Numeral

/-! ## Whole numbers in documents -/

namespace Json

@[simp] theorem int_inj {i j : ℤ} : int i = int j ↔ i = j :=
  ⟨fun h ↦ Numeral.toString_int_inj (number.inj h), congrArg int⟩

theorem nat_eq_int (n : ℕ) : nat n = int n := rfl

@[simp] theorem nat_inj {n m : ℕ} : nat n = nat m ↔ n = m := by
  rw [nat_eq_int, nat_eq_int, int_inj, Int.natCast_inj]

@[simp] theorem plain_int (i : ℤ) : (int i).Plain := by
  rw [int, Plain, Numeral.toString_int]
  exact Numeral.numeric _

@[simp] theorem plain_nat (n : ℕ) : (nat n).Plain := plain_int n

end Json

end JitDump
