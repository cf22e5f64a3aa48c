import JitDump.Bytes

/-! # Byte sources

A source is known by what its reads report, in order. A read hands out a piece of the input, is
interrupted, or fails; an empty piece says that the input is over. When the listed turns are used
up, every later read reports the ending. A piece that is longer than a read asks for is handed out
over several reads. -/

namespace JitDump

/-- What one read reports. -/
inductive Turn where
  | bytes (piece : Bytes)
  | interrupted
  | failed (cause : String)
deriving Repr

/-- What every read reports after the listed turns. -/
inductive Ending where
  | finished
  | failing (cause : String)
deriving Repr

structure Source where
  turns : List Turn
  ending : Ending
deriving Repr

namespace Turn

/-- How many bytes a turn still holds. -/
def size : Turn → Nat
  | .bytes piece => piece.length
  | .interrupted | .failed _ => 0

/-- How many bytes some turns still hold. -/
def sizes : List Turn → Nat
  | [] => 0
  | t :: later => t.size + sizes later

end Turn

namespace Source

/-- A source that holds its input in memory. -/
def ofBytes (data : Bytes) : Source := ⟨[.bytes data], .finished⟩

/-- How many bytes a source still holds. -/
def size (s : Source) : Nat := Turn.sizes s.turns

/-- How many bytes and turns a source still holds. -/
def weight (s : Source) : Nat := s.size + s.turns.length

/-- One read that asks for at most `limit` bytes. -/
def read (limit : Nat) : Source → Turn × Source
  | ⟨[], .finished⟩ => (.bytes [], ⟨[], .finished⟩)
  | ⟨[], .failing cause⟩ => (.failed cause, ⟨[], .failing cause⟩)
  | ⟨.bytes piece :: later, ending⟩ =>
    match piece.drop limit with
    | [] => (.bytes piece, ⟨later, ending⟩)
    | b :: rest => (.bytes (piece.take limit), ⟨.bytes (b :: rest) :: later, ending⟩)
  | ⟨.interrupted :: later, ending⟩ => (.interrupted, ⟨later, ending⟩)
  | ⟨.failed cause :: later, ending⟩ => (.failed cause, ⟨later, ending⟩)

@[simp] theorem size_cons (t : Turn) (later : List Turn) (ending : Ending) :
    size ⟨t :: later, ending⟩ = t.size + size ⟨later, ending⟩ := rfl

@[simp] theorem weight_cons (t : Turn) (later : List Turn) (ending : Ending) :
    weight ⟨t :: later, ending⟩ = t.size + 1 + weight ⟨later, ending⟩ := by
  simp [weight]; omega

/-- No byte is lost between a piece and the rest. -/
theorem read_size {limit : Nat} {s t : Source} {turn : Turn} (h : s.read limit = (turn, t)) :
    turn.size + t.size = s.size := by
  match s with
  | ⟨[], .finished⟩ | ⟨[], .failing _⟩ | ⟨.interrupted :: _, _⟩ | ⟨.failed _ :: _, _⟩ =>
    simp only [read, Prod.mk.injEq] at h
    obtain ⟨rfl, rfl⟩ := h
    simp [Turn.size]
  | ⟨.bytes piece :: later, ending⟩ =>
    simp only [read] at h
    split at h <;> simp only [Prod.mk.injEq] at h <;> obtain ⟨rfl, rfl⟩ := h
    · simp
    · rename_i b rest heq
      have hl := congrArg List.length heq
      simp only [List.length_drop, List.length_cons] at hl
      simp only [Turn.size, size_cons, List.length_take, List.length_cons]
      omega

/-- A read that does not end the input uses up a turn or a byte. -/
theorem read_weight_lt {limit : Nat} {s t : Source} {turn : Turn} (h : s.read limit = (turn, t))
    (go : turn = .interrupted ∨ 0 < turn.size) : t.weight < s.weight := by
  match s with
  | ⟨[], .finished⟩ | ⟨[], .failing _⟩ =>
    simp only [read, Prod.mk.injEq] at h
    obtain ⟨rfl, rfl⟩ := h
    simp [Turn.size] at go
  | ⟨.interrupted :: _, _⟩ | ⟨.failed _ :: _, _⟩ =>
    simp only [read, Prod.mk.injEq] at h
    obtain ⟨rfl, rfl⟩ := h
    simp
  | ⟨.bytes piece :: later, ending⟩ =>
    simp only [read] at h
    split at h <;> simp only [Prod.mk.injEq] at h <;> obtain ⟨rfl, rfl⟩ := h
    · simp
    · rename_i b rest heq
      have hl := congrArg List.length heq
      simp only [List.length_drop, List.length_cons] at hl
      simp only [Turn.size, List.length_take, reduceCtorEq, false_or] at go
      simp only [weight_cons, Turn.size, List.length_cons]
      omega

/-! ## Asking until there is enough -/

/-- Why asking stopped. -/
inductive Outcome where
  | enough
  | ended
  | failed (cause : String)
deriving Repr

/-- The bytes that came, why asking stopped, and the source afterwards. -/
structure Pulled where
  bytes : Bytes
  outcome : Outcome
  rest : Source

/-- Reads until `n` bytes have come, the input ends or a read fails; interruptions are retried.
The pieces that came before are in reverse. -/
def pullFrom (limit : Nat) (pieces : List Bytes) (n : Nat) (s : Source) : Pulled :=
  if n = 0 then ⟨pieces.reverse.flatten, .enough, s⟩
  else
    match h : s.read limit with
    | (.bytes [], t) => ⟨pieces.reverse.flatten, .ended, t⟩
    | (.bytes (b :: piece), t) =>
      have : t.weight < s.weight := read_weight_lt h (.inr (by simp [Turn.size]))
      pullFrom limit ((b :: piece) :: pieces) (n - (b :: piece).length) t
    | (.interrupted, t) =>
      have : t.weight < s.weight := read_weight_lt h (.inl rfl)
      pullFrom limit pieces n t
    | (.failed cause, t) => ⟨pieces.reverse.flatten, .failed cause, t⟩
termination_by s.weight

/-- Bytes are asked for in one read after another. -/
theorem pullFrom_eq (limit : Nat) (pieces : List Bytes) (n : Nat) (s : Source) :
    pullFrom limit pieces n s = if n = 0 then ⟨pieces.reverse.flatten, .enough, s⟩
      else match s.read limit with
        | (.bytes [], t) => ⟨pieces.reverse.flatten, .ended, t⟩
        | (.bytes (b :: piece), t) =>
          pullFrom limit ((b :: piece) :: pieces) (n - (b :: piece).length) t
        | (.interrupted, t) => pullFrom limit pieces n t
        | (.failed cause, t) => ⟨pieces.reverse.flatten, .failed cause, t⟩ := by
  rw [pullFrom]
  split
  · rfl
  · split <;> simp only [*]

theorem pullFrom_zero (limit : Nat) (pieces : List Bytes) (s : Source) :
    pullFrom limit pieces 0 s = ⟨pieces.reverse.flatten, .enough, s⟩ := by
  rw [pullFrom_eq, if_pos rfl]

def pull (limit n : Nat) (s : Source) : Pulled := pullFrom limit [] n s

theorem pullFrom_size (limit : Nat) (pieces : List Bytes) (n : Nat) (s : Source) :
    (pullFrom limit pieces n s).bytes.length + (pullFrom limit pieces n s).rest.size =
      pieces.flatten.length + s.size := by
  fun_induction pullFrom limit pieces n s with
  | case1 => simp [List.sum_reverse]
  | case2 => have := read_size ‹_›; simp_all [Turn.size, List.sum_reverse]
  | case3 => have := read_size ‹_›; simp_all [Turn.size]; omega
  | case4 => have := read_size ‹_›; simp_all [Turn.size]
  | case5 => have := read_size ‹_›; simp_all [Turn.size, List.sum_reverse]

/-- What came and what is left make up the source. -/
theorem pull_size (limit n : Nat) (s : Source) :
    (s.pull limit n).bytes.length + (s.pull limit n).rest.size = s.size := by
  simpa [pull] using pullFrom_size limit [] n s

/-- All that a source hands out, unless a read fails. -/
def contents (s : Source) : Except String Bytes :=
  let p := s.pull (s.size + 1) (s.size + 1)
  match p.outcome with
  | .failed cause => .error cause
  | .enough | .ended => .ok p.bytes

end Source

end JitDump
