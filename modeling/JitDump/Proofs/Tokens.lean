import Mathlib.Data.List.DropRight
import JitDump.Proofs.Documents
import JitDump.Proofs.Nearest

/-!
# Doubles can be read back from their tokens

The token of a finite double is a number of JSON.  Read as a decimal, whatever its
shape, it rounds to the double and to no other of its sign, and no numeral that
does has fewer digits between the zeros in front of them and those behind.  The
token of an infinity is its quoted name, and that of a NaN other than the canonical
one has all its bits.  So every double has a token of its own.
-/

namespace JitDump

/-! ## Numerals -/

namespace Numeral

variable {n n' : Numeral} {cs ds : List Char} {e : ℤ} {l m : ℕ} {d d' : Double}

/-- What a numeral stands for. -/
def value (n : Numeral) : ℚ := Double.signed n.negative n.magnitude

/-- JSON has no zero in front of other digits before the point. -/
def NoLeadingZero (n : Numeral) : Prop := n.whole = ['0'] ∨ n.whole.head? ≠ some '0'

/-- The digits of a numeral without the zeros in front of them and those behind. -/
def significant (n : Numeral) : List Char :=
  ((n.whole ++ n.fraction).dropWhile (· == '0')).rdropWhile (· == '0')

/-- A numeral reads as the doubles of its sign to which the number it stands for rounds. -/
structure Reads (n : Numeral) (d : Double) : Prop where
  sign : d.isNegative = n.negative
  rounds : d.Rounds n.value

theorem magnitude_nonneg (n : Numeral) : 0 ≤ n.magnitude := by
  rw [magnitude]
  positivity

theorem reads_iff :
    n.Reads d ↔ d.isFinite = true ∧ d.isNegative = n.negative ∧ d.magnitude.Admits n.magnitude := by
  constructor
  · rintro ⟨hsign, hrounds⟩
    rw [value, ← hsign] at hrounds
    exact ⟨hrounds.isFinite, hsign, hrounds.admits n.magnitude_nonneg⟩
  · rintro ⟨hfin, hsign, hadmits⟩
    refine ⟨hsign, ?_⟩
    rw [value, ← hsign]
    exact Double.rounds_of_admits hfin n.magnitude_nonneg hadmits

/-- A numeral reads as one double. -/
theorem Reads.unique (h : n.Reads d) (h' : n.Reads d') : d' = d := by
  obtain ⟨-, hsign, hadmits⟩ := reads_iff.1 h
  obtain ⟨-, hsign', hadmits'⟩ := reads_iff.1 h'
  rw [Double.magnitude_eq] at hadmits hadmits'
  exact Double.eq_of_low_eq (hsign'.trans hsign.symm) (Binary.nth_admits_inj hadmits' hadmits)

/-! ### Digits -/

theorem exists_zeros (cs : List Char) (h : ∀ c ∈ cs, (c == '0') = true) :
    ∃ i, cs = List.replicate i '0' :=
  ⟨cs.length, List.eq_replicate_length.2 fun c hc ↦ beq_iff_eq.1 (h c hc)⟩

/-- A numeral shows its significant digits. -/
theorem exists_shows_significant (n : Numeral) : ∃ e, n.Shows n.significant e := by
  let behind := (n.whole ++ n.fraction).dropWhile (· == '0')
  obtain ⟨i, hi⟩ := exists_zeros ((n.whole ++ n.fraction).takeWhile (· == '0'))
    fun _ ↦ List.mem_takeWhile_imp
  obtain ⟨j, hj⟩ := exists_zeros (behind.rtakeWhile (· == '0')) fun _ ↦ List.mem_rtakeWhile_imp
  refine ⟨_, i, j, ?_, rfl⟩
  rw [← hi, ← hj, significant, List.rdropWhile_append_rtakeWhile,
    List.takeWhile_append_dropWhile]

theorem rdropWhile_zeros (cs : List Char) (i : ℕ) :
    (cs ++ List.replicate i '0').rdropWhile (· == '0') = cs.rdropWhile (· == '0') := by
  induction i with
  | zero => rw [List.replicate_zero, List.append_nil]
  | succ i ih =>
    rw [List.replicate_succ', ← List.append_assoc, List.rdropWhile_concat_pos _ _ _ rfl, ih]

/-- Significant digits are digits that a numeral shows. -/
theorem Shows.length_significant_le (h : n.Shows ds e) : n.significant.length ≤ ds.length := by
  obtain ⟨i, j, hdigits, -⟩ := h
  have hzeros (k : ℕ) : ∀ c ∈ List.replicate k '0', (c == '0') = true := fun c hc ↦
    beq_iff_eq.2 (List.eq_of_mem_replicate hc)
  rw [significant, hdigits, List.dropWhile_append_of_pos (hzeros i), List.dropWhile_append]
  split
  · rw [List.dropWhile_eq_nil_iff.2 (hzeros j), List.rdropWhile_nil]
    exact Nat.zero_le _
  · rw [rdropWhile_zeros]
    have hkept : (ds.dropWhile (· == '0')).rdropWhile (· == '0') <+: ds.dropWhile (· == '0') :=
      List.rdropWhile_prefix _ _
    exact hkept.length_le.trans (List.dropWhile_suffix _).length_le

/-- A number below a power of ten has no more significant digits than the power has zeros. -/
theorem Shows.length_significant_le_of_lt (h : n.Shows (Nat.toDigits 10 m) e)
    (hm : m < 10 ^ l) : n.significant.length ≤ l := by
  rcases Nat.eq_zero_or_pos l with rfl | hl
  · -- the one digit of zero is as well a zero in front of no digits
    obtain rfl : m = 0 := by omega
    obtain ⟨i, j, hdigits, he⟩ := h
    rw [Nat.toDigits_zero] at hdigits
    have hnone : n.Shows [] (e + 1) := ⟨i, j + 1, hdigits, by push_cast; omega⟩
    exact hnone.length_significant_le
  · exact h.length_significant_le.trans ((Nat.length_toDigits_le_iff (by decide) hl).2 hm)

theorem ofDigitChars_lt (h : ∀ c ∈ cs, c.isDigit = true) :
    Nat.ofDigitChars 10 cs 0 < 10 ^ cs.length := by
  induction cs with
  | nil => simp
  | cons c cs ih =>
    rw [List.forall_mem_cons] at h
    have hdigit : c.toNat - '0'.toNat ≤ 9 := by
      have hc := h.1
      rw [Char.isDigit, Bool.and_eq_true, decide_eq_true_eq, decide_eq_true_eq,
        UInt32.le_iff_toNat_le] at hc
      exact Nat.sub_le_of_le_add hc.2
    have hmul := Nat.mul_le_mul_left (10 ^ cs.length) hdigit
    have htail := ih h.2
    rw [Nat.ofDigitChars_cons, Nat.ofDigitChars_eq_ofDigitChars_zero, List.length_cons,
      Nat.pow_succ, Nat.mul_zero, Nat.zero_add]
    omega

/-- The significant digits of a numeral are a decimal that it stands for. -/
theorem exists_significant_decimal (n : Numeral) :
    ∃ y : Decimal, y.value = n.magnitude ∧ y.digits < 10 ^ n.significant.length := by
  obtain ⟨e, hshows⟩ := n.exists_shows_significant
  refine ⟨⟨Nat.ofDigitChars 10 n.significant 0, e⟩, hshows.magnitude_eq.symm, ofDigitChars_lt ?_⟩
  intro c hc
  have hkept : n.significant <+: (n.whole ++ n.fraction).dropWhile (· == '0') :=
    List.rdropWhile_prefix _ _
  have hmem := (List.dropWhile_sublist _).mem (hkept.mem hc)
  exact (List.mem_append.1 hmem).elim (n.whole_isDigit c) (n.fraction_isDigit c)

/-! ### Leading zeros -/

theorem head?_toDigits_ne (hm : m ≠ 0) : (Nat.toDigits 10 m).head? ≠ some '0' := by
  have hdigit : ∀ i < 10, i ≠ 0 → Nat.digitChar i ≠ '0' := by decide
  induction m using Nat.strongRecOn with
  | ind m ih =>
    rcases Nat.lt_or_ge m 10 with hlt | hge
    · rw [Nat.toDigits_of_lt_base hlt, List.head?_singleton]
      exact fun h ↦ hdigit m hlt hm (Option.some.inj h)
    · rw [Nat.toDigits_of_base_le (by decide) hge,
        List.head?_append_of_ne_nil _ Nat.toDigits_ne_nil]
      exact ih (m / 10) (by omega) (by omega)

/-- What the digits of a number are written as has no leading zero. -/
theorem Writes.noLeadingZero (h : n.Writes cs (Nat.toDigits 10 m) e) (hzero : m = 0 → e ≤ 0) :
    n.NoLeadingZero := by
  rcases h.whole with hlone | hbegin
  · exact .inl hlone
  rcases eq_or_ne m 0 with rfl | hm
  · left
    obtain ⟨c, rest, hwhole⟩ := List.exists_cons_of_ne_nil n.whole_ne_nil
    rw [Int.toNat_of_nonpos (hzero rfl), Nat.toDigits_zero, hwhole, List.replicate_zero,
      List.append_nil, List.cons_prefix_cons, List.prefix_nil] at hbegin
    rw [hwhole, hbegin.1, hbegin.2]
  · right
    obtain ⟨rest, hrest⟩ := hbegin
    have hhead := congrArg List.head? hrest
    rw [List.head?_append_of_ne_nil _ n.whole_ne_nil,
      List.head?_append_of_ne_nil _ Nat.toDigits_ne_nil] at hhead
    rw [hhead]
    exact head?_toDigits_ne hm

end Numeral

/-! ## Quoted names -/

namespace Json

variable {c : Char} {text : String} {m width : ℕ}

theorem escape_of_all {cs : List Char} (hc : c ∈ cs)
    (h : cs.all (fun c ↦ escape c == String.singleton c) = true) :
    escape c = String.singleton c :=
  beq_iff_eq.1 (List.all_eq_true.1 h c hc)

/-- A string without characters to escape stands between quotes as it is. -/
theorem quoted_eq (h : ∀ c ∈ text.toList, escape c = String.singleton c) :
    quoted text = '"' :: text.toList ++ ['"'] := by
  have hinside : (text.toList.flatMap fun c ↦ (escape c).toList) = text.toList := by
    rw [List.flatMap_congr (g := fun c ↦ [c]) fun c hc ↦ by rw [h c hc, String.toList_singleton],
      List.flatMap_singleton']
  rw [quoted, hinside]

/-- The digits of hexadecimal numerals as they are written. -/
def hexDigits : List Char := "0123456789abcdef".toList

theorem mem_toDigits_sixteen (h : c ∈ Nat.toDigits 16 m) : c ∈ hexDigits := by
  have hdigit : ∀ i < 16, Nat.digitChar i ∈ hexDigits := by decide
  induction m using Nat.strongRecOn with
  | ind m ih =>
    rcases Nat.lt_or_ge m 16 with hlt | hge
    · rw [Nat.toDigits_of_lt_base hlt, List.mem_singleton] at h
      exact h ▸ hdigit m hlt
    · rw [Nat.toDigits_of_base_le (by decide) hge, List.mem_append, List.mem_singleton] at h
      rcases h with h | rfl
      · exact ih (m / 16) (by omega) h
      · exact hdigit _ (Nat.mod_lt _ (by decide))

theorem mem_padded (h : c ∈ (Hex.padded width m).toList) : c ∈ hexDigits := by
  rw [Hex.padded, String.toList_ofList, List.mem_append] at h
  rcases h with h | h
  · rw [List.eq_of_mem_replicate h]
    decide
  · exact mem_toDigits_sixteen h

theorem length_padded (hw : 0 < width) (h : m < 16 ^ width) :
    (Hex.padded width m).toList.length = width := by
  have hle := (Nat.length_toDigits_le_iff (b := 16) (by decide) hw).2 h
  rw [Hex.padded, String.toList_ofList, List.length_append, List.length_replicate]
  omega

end Json

/-! ## Tokens -/

namespace Double

open Binary

variable {d e : Double}

/-- What is written of a double wherever it stands in a listing. -/
def token (d : Double) : String := d.toJson.compact

theorem renderTo_toJson (d : Double) (style : Json.Style) (depth : ℕ) (out : String) :
    d.toJson.renderTo style depth out = out ++ d.token := by
  rw [← String.toList_inj, Json.toList_renderTo, String.toList_append, token, Json.compact,
    Json.toList_render, toJson_eq]
  split <;> rfl

theorem token_inj (h : d.token = e.token) : d = e :=
  toJson_injective (Json.render_compact_inj d.plain_toJson e.plain_toJson h)

theorem token_of_isFinite (hd : d.isFinite = true) : d.token = d.text := by
  rw [token, toJson_eq, if_pos hd, Json.compact, Json.render, Json.renderTo, String.empty_append]

/-- The decimal of a double has no more digits than any that rounds to it. -/
theorem shortestDecimal_digits_lt (hd : d.isFinite = true) {y : Decimal} {l : ℕ}
    (h : d.magnitude.Admits y.value) (hy : y.digits < 10 ^ l) :
    d.shortestDecimal.digits < 10 ^ l := by
  obtain ⟨hl, hu⟩ := magnitude_q_range hd
  rw [shortestDecimal]
  split
  case isTrue => exact Nat.pow_pos (by decide)
  case isFalse hzero =>
    exact shortest_digits_lt (Nat.pos_of_ne_zero (mt isZero_eq_true_iff.2 hzero)) hl hu h hy

/-- Only the decimal of a zero is zero. -/
theorem shortestDecimal_exponent (hd : d.isFinite = true) (h : d.shortestDecimal.digits = 0) :
    d.shortestDecimal.exponent ≤ 0 := by
  have hadmits := shortestDecimal_admits hd
  rw [Decimal.value, h, Nat.cast_zero, zero_mul] at hadmits
  by_cases hzero : d.isZero = true
  · rw [shortestDecimal, if_pos hzero]
  · have hpos := lower_pos (Nat.pos_of_ne_zero (mt isZero_eq_true_iff.2 hzero))
    exact absurd hadmits.lower_le (not_le.2 hpos)

/-- The token of a finite double is a numeral that reads as it, and none that does has fewer
digits. -/
theorem exists_token_numeral (hd : d.isFinite = true) :
    ∃ n : Numeral, d.token = String.ofList n.chars ∧ n.NoLeadingZero ∧ n.Reads d ∧
      ∀ n' : Numeral, n'.Reads d → n.significant.length ≤ n'.significant.length := by
  obtain ⟨n, hneg, htext, hwrites⟩ := d.exists_numeral
  have hadmits := shortestDecimal_admits hd
  rw [← hwrites.magnitude_eq] at hadmits
  refine ⟨n, (token_of_isFinite hd).trans htext,
    hwrites.noLeadingZero (shortestDecimal_exponent hd),
    Numeral.reads_iff.2 ⟨hd, hneg.symm, hadmits⟩, fun n' hreads ↦ ?_⟩
  obtain ⟨y, hvalue, hdigits⟩ := n'.exists_significant_decimal
  have hadmits' := (Numeral.reads_iff.1 hreads).2.2
  rw [← hvalue] at hadmits'
  exact hwrites.shows.length_significant_le_of_lt (shortestDecimal_digits_lt hd hadmits' hdigits)

/-- Names have no characters to escape. -/
theorem escape_of_mem_name {c : Char} (hc : c ∈ d.name.toList) :
    Json.escape c = String.singleton c := by
  rw [name] at hc
  split_ifs at hc
  · exact Json.escape_of_all hc (by decide)
  · rw [String.toList_append, List.mem_append] at hc
    rcases hc with hc | hc
    · exact Json.escape_of_all hc (by decide)
    · exact Json.escape_of_all (Json.mem_padded hc) (by decide)
  · exact Json.escape_of_all hc (by decide)
  · exact Json.escape_of_all hc (by decide)

/-- The token of a double that is not finite is its quoted name. -/
theorem token_eq_name (hd : d.isFinite = false) : d.token = "\"" ++ d.name ++ "\"" := by
  rw [token, toJson_eq, hd, ← String.toList_inj, Json.compact, Json.toList_render]
  exact (Json.quoted_eq fun c ↦ escape_of_mem_name).trans (by simp)

theorem token_of_infinite (hd : d.isFinite = false) (hnan : d.isNaN = false) :
    d.token = if d.isNegative then "\"-inf\"" else "\"inf\"" := by
  rw [token_eq_name hd, name, hnan, if_neg Bool.false_ne_true]
  split <;> rfl

/-- The token of a NaN that is not canonical has all its bits. -/
theorem token_of_isNaN (hd : d.isNaN = true) (hne : d ≠ canonicalNaN) :
    ∃ ds : List Char, d.token = "\"nan:0x" ++ String.ofList ds ++ "\"" ∧ ds.length = 16 ∧
      (∀ c ∈ ds, c ∈ Json.hexDigits) ∧ Json.hexValue ds = d.bits.toNat := by
  refine ⟨(Hex.padded 16 d.bits.toNat).toList, ?_, ?_, fun c ↦ Json.mem_padded,
    Json.hexValue_padded _ _⟩
  · rw [token_eq_name (isFinite_eq_false hd), name, if_pos hd, if_neg hne, String.ofList_toList,
      ← String.append_assoc]
    rfl
  · exact Json.length_padded (by decide) d.bits.toNat_lt

/-- Every double has a token of its own, wherever in a listing it stands.  That of a finite double
is a number of JSON that reads as it and as no other, and in no fewer digits is it possible; that
of an infinity names its sign, that of the NaN that arithmetic makes is its name, and that of any
other NaN has its bits. -/
theorem token_identifies (d : Double) :
    (∀ (style : Json.Style) (depth : ℕ) (out : String),
      d.toJson.renderTo style depth out = out ++ d.token) ∧
    (d.isFinite = true → ∃ n : Numeral, d.token = String.ofList n.chars ∧ n.NoLeadingZero ∧
      n.Reads d ∧ (∀ e, n.Reads e → e = d) ∧
      ∀ n' : Numeral, n'.Reads d → n.significant.length ≤ n'.significant.length) ∧
    (d.isFinite = false → d.isNaN = false →
      d.token = if d.isNegative then "\"-inf\"" else "\"inf\"") ∧
    (d = canonicalNaN → d.token = "\"nan\"") ∧
    (d.isNaN = true → d ≠ canonicalNaN → ∃ ds : List Char,
      d.token = "\"nan:0x" ++ String.ofList ds ++ "\"" ∧ ds.length = 16 ∧
      (∀ c ∈ ds, c ∈ Json.hexDigits) ∧ Json.hexValue ds = d.bits.toNat) ∧
    ∀ e : Double, e.token = d.token → e = d := by
  refine ⟨d.renderTo_toJson, fun hd ↦ ?_, token_of_infinite, ?_, token_of_isNaN,
    fun e ↦ token_inj⟩
  · obtain ⟨n, htoken, hlead, hreads, hshort⟩ := exists_token_numeral hd
    exact ⟨n, htoken, hlead, hreads, fun e ↦ hreads.unique, hshort⟩
  · rintro rfl
    rw [token_eq_name rfl]
    rfl

/-- The sign of a zero and the bits of a NaN are in their tokens. -/
theorem token_identifies_sign_and_bits :
    (∃ n : Numeral, (⟨0x8000000000000000⟩ : Double).token = String.ofList n.chars ∧
      n.Reads ⟨0x8000000000000000⟩ ∧ ¬ n.Reads ⟨0⟩) ∧
    (∃ ds : List Char, (⟨0xfff8000000000000⟩ : Double).token =
      "\"nan:0x" ++ String.ofList ds ++ "\"" ∧ Json.hexValue ds = 0xfff8000000000000) ∧
    (⟨0x7ff0000000000000⟩ : Double).token = "\"inf\"" := by
  refine ⟨?_, ?_, ?_⟩
  · obtain ⟨n, htoken, -, hreads, hunique, -⟩ :=
      (token_identifies ⟨0x8000000000000000⟩).2.1 (by decide)
    exact ⟨n, htoken, hreads, fun h ↦ absurd (hunique _ h) (by decide)⟩
  · obtain ⟨ds, htoken, -, -, hbits⟩ :=
      (token_identifies ⟨0xfff8000000000000⟩).2.2.2.2.1 (by decide) (by decide)
    exact ⟨ds, htoken, hbits⟩
  · exact (token_identifies ⟨0x7ff0000000000000⟩).2.2.1 (by decide) (by decide)

end Double

end JitDump
