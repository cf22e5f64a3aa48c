/-! # Byte strings and the words laid out in them -/

namespace JitDump

/-- A finite byte string; the head is the first byte on the wire. -/
abbrev Bytes := List UInt8

namespace Bytes

/-- Whether a list has at least `n` items, looking at no more than `n` of them. -/
def hasAtLeast {α : Type} : List α → Nat → Bool
  | _, 0 => true
  | [], _ + 1 => false
  | _ :: rest, n + 1 => hasAtLeast rest n

@[simp] theorem hasAtLeast_eq {α : Type} (xs : List α) (n : Nat) :
    hasAtLeast xs n = decide (n ≤ xs.length) := by
  induction xs generalizing n with
  | nil => cases n <;> simp [hasAtLeast]
  | cons x xs ih => cases n <;> simp [hasAtLeast, ih]

end Bytes

/-- The order in which a container lays out the bytes of a word. -/
inductive ByteOrder where
  | little
  | big
deriving DecidableEq, Repr

namespace ByteOrder

def word16 : ByteOrder → UInt8 → UInt8 → UInt16
  | .little, a, b => a.toUInt16 ||| b.toUInt16 <<< 8
  | .big, a, b => b.toUInt16 ||| a.toUInt16 <<< 8

def word32 : ByteOrder → UInt8 → UInt8 → UInt8 → UInt8 → UInt32
  | .little, a, b, c, d =>
      a.toUInt32 ||| b.toUInt32 <<< 8 ||| c.toUInt32 <<< 16 ||| d.toUInt32 <<< 24
  | .big, a, b, c, d =>
      d.toUInt32 ||| c.toUInt32 <<< 8 ||| b.toUInt32 <<< 16 ||| a.toUInt32 <<< 24

def bytes16 : ByteOrder → UInt16 → Bytes
  | .little, w => [w.toUInt8, (w >>> 8).toUInt8]
  | .big, w => [(w >>> 8).toUInt8, w.toUInt8]

def bytes32 : ByteOrder → UInt32 → Bytes
  | .little, w => [w.toUInt8, (w >>> 8).toUInt8, (w >>> 16).toUInt8, (w >>> 24).toUInt8]
  | .big, w => [(w >>> 24).toUInt8, (w >>> 16).toUInt8, (w >>> 8).toUInt8, w.toUInt8]

/-! ## Runs of words

A run is read with its words so far in reverse, so that a long block costs no stack. Bytes left
over after the last whole word are ignored. -/

def words16From (order : ByteOrder) : List UInt16 → Bytes → List UInt16
  | done, a :: b :: rest => words16From order (order.word16 a b :: done) rest
  | done, _ => done.reverse

def words32From (order : ByteOrder) : List UInt32 → Bytes → List UInt32
  | done, a :: b :: c :: d :: rest => words32From order (order.word32 a b c d :: done) rest
  | done, _ => done.reverse

def words16 (order : ByteOrder) (block : Bytes) : List UInt16 := words16From order [] block

def words32 (order : ByteOrder) (block : Bytes) : List UInt32 := words32From order [] block

theorem words16From_eq (order : ByteOrder) (done : List UInt16) (block : Bytes) :
    words16From order done block = done.reverse ++ words16 order block := by
  suffices h : ∀ (n : Nat) (done : List UInt16) (block : Bytes), block.length ≤ n →
      words16From order done block = done.reverse ++ words16From order [] block from
    h _ done block (Nat.le_refl _)
  intro n
  induction n with
  | zero => intro done block h; cases block <;> simp_all [words16From]
  | succ n ih =>
    intro done block h
    match block with
    | [] | [_] => simp [words16From]
    | a :: b :: rest =>
      rw [words16From, words16From, ih _ rest (by simp at h; omega),
        ih [order.word16 a b] rest (by simp at h; omega)]
      simp

theorem words32From_eq (order : ByteOrder) (done : List UInt32) (block : Bytes) :
    words32From order done block = done.reverse ++ words32 order block := by
  suffices h : ∀ (n : Nat) (done : List UInt32) (block : Bytes), block.length ≤ n →
      words32From order done block = done.reverse ++ words32From order [] block from
    h _ done block (Nat.le_refl _)
  intro n
  induction n with
  | zero => intro done block h; cases block <;> simp_all [words32From]
  | succ n ih =>
    intro done block h
    match block with
    | [] | [_] | [_, _] | [_, _, _] => simp [words32From]
    | a :: b :: c :: d :: rest =>
      rw [words32From, words32From, ih _ rest (by simp at h; omega),
        ih [order.word32 a b c d] rest (by simp at h; omega)]
      simp

@[simp] theorem words16_nil (order : ByteOrder) : words16 order [] = [] := rfl

@[simp] theorem words32_nil (order : ByteOrder) : words32 order [] = [] := rfl

@[simp] theorem words16_cons (order : ByteOrder) (a b : UInt8) (rest : Bytes) :
    words16 order (a :: b :: rest) = order.word16 a b :: words16 order rest := by
  rw [words16, words16From, words16From_eq]; rfl

@[simp] theorem words32_cons (order : ByteOrder) (a b c d : UInt8) (rest : Bytes) :
    words32 order (a :: b :: c :: d :: rest) = order.word32 a b c d :: words32 order rest := by
  rw [words32, words32From, words32From_eq]; rfl

end ByteOrder

end JitDump
