import Mathlib.Tactic.Common
import Mathlib.Tactic.Ring
import JitDump.Varint

/-!
# Numbers of variable length

The bytes of a number spell it in base 128, the lowest digit first.  Reading
keeps its lowest 32 bits and drops the others, at any length; a tagged number has
six bits in its first digit.  The writer is undone by both readers.
-/

namespace JitDump.Varint

variable {b : UInt8} {u rest : Bytes} {n : Nat}

/-! ## The bytes of one number -/

/-- The bytes of one number: all but the last announce another. -/
inductive Whole : Bytes → Prop
  | last {b : UInt8} (h : continues b = false) : Whole [b]
  | more {b : UInt8} {u : Bytes} (h : continues b = true) (h' : Whole u) : Whole (b :: u)

theorem Whole.ne_nil (h : Whole u) : u ≠ [] := by cases h <;> simp

/-- A number that begins with a zero byte is that byte. -/
theorem Whole.eq_zero (h : Whole (0 :: rest)) : rest = [] := by
  cases h with
  | last => rfl
  | more h => exact absurd h (by decide)

theorem continues_eq_true : continues b = true ↔ 128 ≤ b.toNat := by
  simp [continues, UInt8.le_iff_toNat_le]

theorem continues_eq_false : continues b = false ↔ b.toNat < 128 := by
  rw [← Bool.not_eq_true, continues_eq_true, Nat.not_le]

/-! ## What the bytes spell -/

/-- The number that some groups spell, with all its bits. -/
def number : Bytes → Nat
  | [] => 0
  | b :: rest => b.toNat % 128 + 128 * number rest

theorem toNat_group (b : UInt8) : (group b).toNat = b.toNat % 128 := by
  have h : (0x7f : UInt8).toNat = 2 ^ 7 - 1 := rfl
  rw [group, UInt8.toNat_toUInt32, UInt8.toNat_and, h, Nat.and_two_pow_sub_one_eq_mod]

/-- Adding a group above the bits of a number. -/
theorem toNat_or_group {v : UInt32} {shift : Nat} (hs : shift < 32) (hv : v.toNat < 2 ^ shift) :
    (v ||| group b <<< UInt32.ofNat shift).toNat =
      v.toNat + 2 ^ shift * (b.toNat % 128) % 2 ^ 32 := by
  have hshift : (UInt32.ofNat shift).toNat % 32 = shift := by
    rw [UInt32.toNat_ofNat_of_lt' (by simp only [UInt32.size]; omega), Nat.mod_eq_of_lt hs]
  have hmod : 2 ^ shift * (b.toNat % 128) % 2 ^ 32 =
      2 ^ shift * (b.toNat % 128 % 2 ^ (32 - shift)) := by
    have hpow : 2 ^ 32 = 2 ^ shift * 2 ^ (32 - shift) := by
      rw [← Nat.pow_add, Nat.add_sub_cancel' (Nat.le_of_lt hs)]
    rw [hpow, Nat.mul_mod_mul_left]
  rw [UInt32.toNat_or, UInt32.toNat_shiftLeft, hshift, toNat_group, Nat.shiftLeft_eq, Nat.mul_comm,
    hmod, Nat.or_comm, ← Nat.two_pow_add_eq_or_of_lt hv, Nat.add_comm]

/-- Groups that start at a bit offset are added there, and what does not fit is dropped. -/
theorem toNat_accumulate (v : UInt32) (shift : Nat) (u : Bytes) (hv : v.toNat < 2 ^ shift) :
    (accumulate v shift u).toNat = (v.toNat + 2 ^ shift * number u) % 2 ^ 32 := by
  induction u generalizing v shift with
  | nil => simp [accumulate, number, Nat.mod_eq_of_lt v.toNat_lt]
  | cons b rest ih =>
    have hpow : 2 ^ (shift + 7) = 2 ^ shift * 128 := Nat.pow_add 2 shift 7
    have hdist : 2 ^ shift * (b.toNat % 128 + 128 * number rest) =
        2 ^ shift * (b.toNat % 128) + 2 ^ shift * 128 * number rest := by ring
    rw [accumulate, number, hdist]
    by_cases hs : shift < 32
    · have hor := toNat_or_group (b := b) hs hv
      have hlt : 2 ^ shift * (b.toNat % 128) ≤ 2 ^ shift * 127 :=
        Nat.mul_le_mul_left _ (by omega)
      rw [if_pos hs, ih _ _ (by rw [hor, hpow]; omega), hor, hpow]
      omega
    · -- the group lies beyond the number, and so do those behind it
      have hge : 2 ^ shift = 2 ^ 32 * 2 ^ (shift - 32) := by
        rw [← Nat.pow_add, Nat.add_sub_cancel' (Nat.not_lt.1 hs)]
      rw [if_neg hs, ih _ _ (by rw [hpow]; omega), hpow, hge]
      simp only [Nat.mul_assoc, ← Nat.mul_add, Nat.add_mul_mod_self_left]

theorem toNat_value (u : Bytes) : (value u).toNat = number u % 2 ^ 32 := by
  simpa [value] using toNat_accumulate 0 0 u (by simp)

theorem toNat_taggedValue (b : UInt8) (rest : Bytes) :
    (taggedValue (b :: rest)).1.toNat = (b.toNat / 2 % 64 + 64 * number rest) % 2 ^ 32 := by
  have hfirst : ((b >>> 1) &&& 0x3f).toUInt32.toNat = b.toNat / 2 % 64 := by
    have h : (0x3f : UInt8).toNat = 2 ^ 6 - 1 := rfl
    rw [UInt8.toNat_toUInt32, UInt8.toNat_and, h, Nat.and_two_pow_sub_one_eq_mod]
    simp [Nat.shiftRight_eq_div_pow]
  rw [taggedValue, toNat_accumulate _ _ _ (by rw [hfirst]; omega), hfirst]
  rfl

theorem taggedValue_snd (b : UInt8) (rest : Bytes) :
    (taggedValue (b :: rest)).2 = decide (b.toNat % 2 = 1) := by
  have hand : (b &&& 1).toNat = b.toNat % 2 := by
    have h : (1 : UInt8).toNat = 2 ^ 1 - 1 := rfl
    rw [UInt8.toNat_and, h, Nat.and_two_pow_sub_one_eq_mod]
  have hzero : b &&& 1 = 0 ↔ b.toNat % 2 = 0 := by
    rw [← UInt8.toNat_inj, hand]
    rfl
  rw [taggedValue, bne, beq_eq_decide, ← decide_not, decide_eq_decide, hzero]
  omega

/-- The first byte has the tag in its lowest bit and six bits of the number above. -/
theorem taggedValue_eq {v : UInt32} {tag : Bool} (hb : b.toNat % 2 = tag.toNat)
    (hv : b.toNat / 2 % 64 + 64 * number rest = v.toNat) : taggedValue (b :: rest) = (v, tag) := by
  refine Prod.ext (UInt32.toNat_inj.1 ?_) ?_
  · rw [toNat_taggedValue, hv]
    exact Nat.mod_eq_of_lt v.toNat_lt
  · rw [taggedValue_snd, hb]
    cases tag <;> rfl

/-! ## What the writer writes -/

theorem whole_encodeNat (n : Nat) : Whole (encodeNat n) := by
  induction n using Nat.strongRecOn with
  | ind n ih =>
    rw [encodeNat]
    by_cases hn : n < 0x80
    · rw [if_pos hn]
      exact .last (continues_eq_false.2 (by rw [UInt8.toNat_ofNat']; omega))
    · rw [if_neg hn]
      exact .more (continues_eq_true.2 (by rw [UInt8.toNat_ofNat']; omega)) (ih _ (by omega))

theorem number_encodeNat (n : Nat) : number (encodeNat n) = n := by
  induction n using Nat.strongRecOn with
  | ind n ih =>
    rw [encodeNat]
    by_cases hn : n < 0x80
    · rw [if_pos hn, number, number, UInt8.toNat_ofNat']
      omega
    · rw [if_neg hn, number, ih _ (by omega), UInt8.toNat_ofNat']
      omega

theorem value_encodeNat (hn : n < 2 ^ 32) : (value (encodeNat n)).toNat = n := by
  rw [toNat_value, number_encodeNat, Nat.mod_eq_of_lt hn]

theorem value_encode (v : UInt32) : value (encode v) = v := by
  rw [← UInt32.toNat_inj, encode, value_encodeNat v.toNat_lt]

theorem whole_encodeTagged (v : UInt32) (tag : Bool) : Whole (encodeTagged v tag) := by
  rw [encodeTagged]
  have := tag.toNat_lt
  by_cases hv : v.toNat < 0x40
  · rw [if_pos hv]
    exact .last (continues_eq_false.2 (by rw [UInt8.toNat_ofNat']; omega))
  · rw [if_neg hv]
    exact .more (continues_eq_true.2 (by rw [UInt8.toNat_ofNat']; omega)) (whole_encodeNat _)

theorem taggedValue_encodeTagged (v : UInt32) (tag : Bool) :
    taggedValue (encodeTagged v tag) = (v, tag) := by
  have htag := tag.toNat_lt
  rw [encodeTagged]
  by_cases hv : v.toNat < 0x40
  · rw [if_pos hv]
    refine taggedValue_eq ?_ ?_
    · rw [UInt8.toNat_ofNat']
      omega
    · rw [UInt8.toNat_ofNat', number]
      omega
  · rw [if_neg hv]
    refine taggedValue_eq ?_ ?_
    · rw [UInt8.toNat_ofNat']
      omega
    · rw [UInt8.toNat_ofNat', number_encodeNat]
      omega

/-- A number takes as many bytes as it has digits in base 128. -/
theorem length_encodeNat_le {k : Nat} (hn : n < 128 ^ (k + 1)) : (encodeNat n).length ≤ k + 1 := by
  induction k generalizing n with
  | zero =>
    rw [encodeNat, if_pos (by simpa using hn)]
    exact Nat.le_refl 1
  | succ k ih =>
    rw [encodeNat]
    by_cases hs : n < 0x80
    · rw [if_pos hs]
      exact Nat.le_add_left ..
    · rw [if_neg hs, List.length_cons]
      have hdiv : n / 0x80 < 128 ^ (k + 1) := Nat.div_lt_of_lt_mul (by rwa [Nat.pow_succ'] at hn)
      exact Nat.succ_le_succ (ih hdiv)

theorem length_encode_le (v : UInt32) : (encode v).length ≤ 5 :=
  length_encodeNat_le (k := 4) (Nat.lt_trans v.toNat_lt (by decide))

end JitDump.Varint
