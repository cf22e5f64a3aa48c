import JitDump.Bytes

/-! # Ropes

A rope is a byte string in pieces that are known by their sizes. A long one that has come in a few
pieces is neither counted nor copied byte by byte, and a piece may stand in it many times. -/

namespace JitDump

/-- Some bytes together with their number. -/
structure Piece where
  bytes : Bytes
  size : Nat
  length_bytes : bytes.length = size

namespace Piece

def of (bytes : Bytes) : Piece := ⟨bytes, bytes.length, rfl⟩

def take (n : Nat) (p : Piece) : Piece :=
  ⟨p.bytes.take n, min n p.size, by rw [List.length_take, p.length_bytes]⟩

def drop (n : Nat) (p : Piece) : Piece :=
  ⟨p.bytes.drop n, p.size - n, by rw [List.length_drop, p.length_bytes]⟩

end Piece

/-! ## Ropes -/

abbrev Rope := List Piece

namespace Rope

/-- The byte string that a rope spells. -/
def bytes (r : Rope) : Bytes := (r.map Piece.bytes).flatten

def size (r : Rope) : Nat := r.foldl (fun n p => n + p.size) 0

/-- Whether a rope has at least `n` bytes, looking at no more pieces than these take. -/
def holds : Rope → Nat → Bool
  | _, 0 => true
  | [], _ + 1 => false
  | p :: r, n + 1 => holds r (n + 1 - p.size)

def head? : Rope → Option UInt8
  | [] => none
  | p :: r =>
    match p.bytes with
    | [] => head? r
    | b :: _ => some b

/-- The first `n` bytes, behind pieces that were taken before and are in reverse. -/
def takeFrom (done : List Bytes) : Rope → Nat → Bytes
  | [], _ => done.reverse.flatten
  | p :: r, n =>
    if n < p.size then (p.bytes.take n :: done).reverse.flatten
    else takeFrom (p.bytes :: done) r (n - p.size)

def take (r : Rope) (n : Nat) : Bytes := takeFrom [] r n

def drop : Rope → Nat → Rope
  | [], _ => []
  | p :: r, n => if n < p.size then p.drop n :: r else drop r (n - p.size)

@[simp] theorem bytes_nil : bytes [] = [] := rfl

@[simp] theorem bytes_cons (p : Piece) (r : Rope) : bytes (p :: r) = p.bytes ++ bytes r := rfl

@[simp] theorem bytes_append (r r' : Rope) : bytes (r ++ r') = bytes r ++ bytes r' := by
  simp [bytes]

theorem foldl_size (r : Rope) (n : Nat) :
    r.foldl (fun n p => n + p.size) n = n + (bytes r).length := by
  induction r generalizing n with
  | nil => rfl
  | cons p r ih =>
    rw [List.foldl_cons, ih, bytes_cons, List.length_append, p.length_bytes, Nat.add_assoc]

@[simp] theorem length_bytes (r : Rope) : (bytes r).length = r.size := by
  rw [size, foldl_size, Nat.zero_add]

@[simp] theorem holds_eq (r : Rope) (n : Nat) : r.holds n = decide (n ≤ r.bytes.length) := by
  induction r generalizing n with
  | nil => cases n <;> simp [holds]
  | cons p r ih =>
    cases n with
    | zero => simp [holds]
    | succ n =>
      rw [holds, ih, bytes_cons, List.length_append, p.length_bytes]
      exact decide_eq_decide.2 Nat.sub_le_iff_le_add'

@[simp] theorem head?_eq (r : Rope) : r.head? = r.bytes.head? := by
  induction r with
  | nil => rfl
  | cons p r ih =>
    rw [head?, bytes_cons]
    cases p.bytes with
    | nil => exact ih
    | cons b u => rfl

theorem takeFrom_eq (done : List Bytes) (r : Rope) (n : Nat) :
    takeFrom done r n = done.reverse.flatten ++ r.bytes.take n := by
  induction r generalizing done n with
  | nil => simp [takeFrom]
  | cons p r ih =>
    rw [takeFrom, bytes_cons, List.take_append, p.length_bytes]
    split
    · rw [Nat.sub_eq_zero_of_le (Nat.le_of_lt ‹_›)]
      simp
    · rw [ih, List.take_of_length_le (l := p.bytes) (by rw [p.length_bytes]; omega)]
      simp

@[simp] theorem take_eq (r : Rope) (n : Nat) : r.take n = r.bytes.take n := takeFrom_eq [] r n

@[simp] theorem bytes_drop (r : Rope) (n : Nat) : (r.drop n).bytes = r.bytes.drop n := by
  induction r generalizing n with
  | nil => simp [drop]
  | cons p r ih =>
    rw [drop, bytes_cons, List.drop_append, p.length_bytes]
    split
    · rw [Nat.sub_eq_zero_of_le (Nat.le_of_lt ‹_›)]
      rfl
    · rw [ih, List.drop_of_length_le (l := p.bytes) (by rw [p.length_bytes]; omega)]
      rfl

end Rope

end JitDump
