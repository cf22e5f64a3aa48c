import Mathlib.Tactic.Ring
import JitDump.Container.Record

/-!
# Words laid out in bytes

A word is its bytes in one of two orders, and a word of 64 bits its two halves.
Each is written and read back as the same word, alone and in a run of words.
-/

namespace JitDump

/-- Bits that do not meet are added. -/
theorem or_two_pow_mul {x i : Nat} (h : x < 2 ^ i) (y : Nat) : x ||| 2 ^ i * y = x + 2 ^ i * y := by
  rw [Nat.or_comm, ← Nat.two_pow_add_eq_or_of_lt h, Nat.add_comm]

/-- Pieces of one length. -/
theorem length_flatMap_const {α : Type} {f : α → Bytes} {n : Nat} (h : ∀ a, (f a).length = n)
    (as : List α) : (as.flatMap f).length = n * as.length := by
  induction as with
  | nil => simp
  | cons a as ih =>
    rw [List.flatMap_cons, List.length_append, h, ih, List.length_cons, Nat.mul_succ, Nat.add_comm]

namespace ByteOrder

variable (order : ByteOrder)

/-! ## One word -/

theorem toNat_word16 (a b : UInt8) : (word16 .little a b).toNat = a.toNat + 2 ^ 8 * b.toNat := by
  have ha := a.toNat_lt
  have hb := b.toNat_lt
  have hm : b.toNat <<< 8 % 2 ^ 16 = 2 ^ 8 * b.toNat := by
    rw [Nat.shiftLeft_eq]
    omega
  rw [word16, UInt16.toNat_or, UInt16.toNat_shiftLeft]
  simp only [UInt8.toNat_toUInt16, UInt16.reduceToNat, Nat.reduceMod]
  rw [hm, or_two_pow_mul (by omega)]

theorem toNat_word32 (a b c d : UInt8) : (word32 .little a b c d).toNat =
    a.toNat + 2 ^ 8 * b.toNat + 2 ^ 16 * c.toNat + 2 ^ 24 * d.toNat := by
  have ha := a.toNat_lt
  have hb := b.toNat_lt
  have hc := c.toNat_lt
  have hd := d.toNat_lt
  have shift : ∀ (x : UInt8) (k : Nat), k ≤ 24 → x.toNat <<< k % 2 ^ 32 = 2 ^ k * x.toNat := by
    intro x k hk
    have hp : 2 ^ k ≤ 2 ^ 24 := Nat.pow_le_pow_right (by decide) hk
    have hx := Nat.mul_le_mul hp (Nat.le_of_lt_succ x.toNat_lt)
    rw [Nat.shiftLeft_eq, Nat.mul_comm, Nat.mod_eq_of_lt (by omega)]
  have h₁ := or_two_pow_mul (x := a.toNat) (i := 8) (by omega) b.toNat
  have h₂ := or_two_pow_mul (x := a.toNat + 2 ^ 8 * b.toNat) (i := 16) (by omega) c.toNat
  have h₃ := or_two_pow_mul (x := a.toNat + 2 ^ 8 * b.toNat + 2 ^ 16 * c.toNat) (i := 24)
    (by omega) d.toNat
  simp only [word32, UInt32.toNat_or, UInt32.toNat_shiftLeft, UInt8.toNat_toUInt32,
    UInt32.reduceToNat, Nat.reduceMod]
  rw [shift b 8 (by decide), shift c 16 (by decide), shift d 24 (by decide), h₁, h₂, h₃]

/-- The bytes of a word and the word that they make. -/
theorem exists_bytes16 (w : UInt16) : ∃ a b, order.bytes16 w = [a, b] ∧ order.word16 a b = w := by
  have hw : word16 .little w.toUInt8 (w >>> 8).toUInt8 = w := by
    have := w.toNat_lt
    rw [← UInt16.toNat_inj, toNat_word16]
    simp only [UInt16.toNat_toUInt8, UInt16.toNat_shiftRight, UInt16.reduceToNat, Nat.reduceMod,
      Nat.shiftRight_eq_div_pow]
    omega
  cases order
  · exact ⟨_, _, rfl, hw⟩
  · exact ⟨_, _, rfl, hw⟩

theorem word32_bytes (w : UInt32) :
    word32 .little w.toUInt8 (w >>> 8).toUInt8 (w >>> 16).toUInt8 (w >>> 24).toUInt8 = w := by
  have := w.toNat_lt
  rw [← UInt32.toNat_inj, toNat_word32]
  simp only [UInt32.toNat_toUInt8, UInt32.toNat_shiftRight, UInt32.reduceToNat, Nat.reduceMod,
    Nat.shiftRight_eq_div_pow]
  omega

theorem exists_bytes32 (w : UInt32) :
    ∃ a b c d, order.bytes32 w = [a, b, c, d] ∧ order.word32 a b c d = w := by
  cases order
  · exact ⟨_, _, _, _, rfl, word32_bytes w⟩
  · exact ⟨_, _, _, _, rfl, word32_bytes w⟩

/-- Bytes are those of the word that they make. -/
theorem bytes16_word16 (a b : UInt8) : order.bytes16 (order.word16 a b) = [a, b] := by
  have hlittle (a b : UInt8) : bytes16 .little (word16 .little a b) = [a, b] := by
    have ha := a.toNat_lt
    have hb := b.toNat_lt
    simp only [bytes16, List.cons.injEq, ← UInt8.toNat_inj, UInt16.toNat_toUInt8,
      UInt16.toNat_shiftRight, toNat_word16, UInt16.reduceToNat, Nat.reduceMod,
      Nat.shiftRight_eq_div_pow, and_true]
    omega
  cases order
  · exact hlittle a b
  · exact congrArg List.reverse (hlittle b a)

theorem bytes32_word32 (a b c d : UInt8) :
    order.bytes32 (order.word32 a b c d) = [a, b, c, d] := by
  have hlittle (a b c d : UInt8) :
      bytes32 .little (word32 .little a b c d) = [a, b, c, d] := by
    have ha := a.toNat_lt
    have hb := b.toNat_lt
    have hc := c.toNat_lt
    have hd := d.toNat_lt
    simp only [bytes32, List.cons.injEq, ← UInt8.toNat_inj, UInt32.toNat_toUInt8,
      UInt32.toNat_shiftRight, toNat_word32, UInt32.reduceToNat, Nat.reduceMod,
      Nat.shiftRight_eq_div_pow, and_true]
    omega
  cases order
  · exact hlittle a b c d
  · exact congrArg List.reverse (hlittle d c b a)

@[simp] theorem length_bytes16 (w : UInt16) : (order.bytes16 w).length = 2 := by
  cases order <;> rfl

@[simp] theorem length_bytes32 (w : UInt32) : (order.bytes32 w).length = 4 := by
  cases order <;> rfl

/-! ## Runs of words -/

theorem words16_flatMap (ws : List UInt16) : order.words16 (ws.flatMap order.bytes16) = ws := by
  induction ws with
  | nil => rfl
  | cons w ws ih =>
    obtain ⟨a, b, hb, hw⟩ := order.exists_bytes16 w
    rw [List.flatMap_cons, hb, List.cons_append, List.cons_append, List.nil_append, words16_cons,
      hw, ih]

theorem words32_flatMap (ws : List UInt32) : order.words32 (ws.flatMap order.bytes32) = ws := by
  induction ws with
  | nil => rfl
  | cons w ws ih =>
    obtain ⟨a, b, c, d, hb, hw⟩ := order.exists_bytes32 w
    rw [List.flatMap_cons, hb]
    simp only [List.cons_append, List.nil_append, words32_cons, hw, ih]

/-- A block of whole words is laid out as its words are. -/
theorem flatMap_words16 : ∀ (block : Bytes), 2 ∣ block.length →
    (order.words16 block).flatMap order.bytes16 = block
  | [], _ => rfl
  | [_], h => absurd h (by simp)
  | a :: b :: rest, h => by
    have hrest : 2 ∣ rest.length := by
      simp only [List.length_cons] at h
      omega
    rw [words16_cons, List.flatMap_cons, bytes16_word16, flatMap_words16 rest hrest]
    rfl

theorem flatMap_words32 : ∀ (block : Bytes), 4 ∣ block.length →
    (order.words32 block).flatMap order.bytes32 = block
  | [], _ => rfl
  | [_], h | [_, _], h | [_, _, _], h => absurd h (by simp)
  | a :: b :: c :: d :: rest, h => by
    have hrest : 4 ∣ rest.length := by
      simp only [List.length_cons] at h
      omega
    rw [words32_cons, List.flatMap_cons, bytes32_word32, flatMap_words32 rest hrest]
    rfl

theorem length_words16 : ∀ block, (order.words16 block).length = block.length / 2
  | [] | [_] => by simp [words16, words16From]
  | a :: b :: rest => by
    rw [words16_cons, List.length_cons, length_words16 rest]
    simp only [List.length_cons]
    omega

theorem length_words32 : ∀ block, (order.words32 block).length = block.length / 4
  | [] | [_] | [_, _] | [_, _, _] => by simp [words32, words32From]
  | a :: b :: c :: d :: rest => by
    rw [words32_cons, List.length_cons, length_words32 rest]
    simp only [List.length_cons]
    omega

theorem length_flatMap_bytes32 (ws : List UInt32) :
    (ws.flatMap order.bytes32).length = 4 * ws.length :=
  length_flatMap_const order.length_bytes32 ws

end ByteOrder

/-- A word is made of its halves. -/
theorem Container.word64_halves (w : UInt64) : word64 w.toUInt32 (w >>> 32).toUInt32 = w := by
  have hor := or_two_pow_mul (Nat.mod_lt w.toNat (by decide : 0 < 2 ^ 32)) (w.toNat / 2 ^ 32)
  have hhigh : w.toNat / 2 ^ 32 % 2 ^ 32 * 2 ^ 32 % 2 ^ 64 = 2 ^ 32 * (w.toNat / 2 ^ 32) := by
    have := w.toNat_lt
    omega
  rw [← UInt64.toNat_inj, word64, UInt64.toNat_or, UInt64.toNat_shiftLeft]
  simp only [UInt32.toNat_toUInt64, UInt64.toNat_toUInt32, UInt64.toNat_shiftRight,
    UInt64.reduceToNat, Nat.reduceMod, Nat.shiftRight_eq_div_pow, Nat.shiftLeft_eq]
  rw [hhigh, Nat.or_comm, hor, Nat.mod_add_div]

end JitDump
