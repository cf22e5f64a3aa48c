import JitDump.Cursor.Layer
import JitDump.Rope

/-! # Reading through a rope

A cursor may keep its buffer in a rope, so that a buffer of gigabytes is as large as the pieces that
it came in. Each operation on such a cursor follows the one on the bytes of the rope: it answers the
same, and leaves a rope whose bytes are the buffer that the other one leaves. -/

namespace JitDump

open Fallible

/-! ## Sources of pieces -/

/-- What one read reports, a piece with its size. -/
inductive RopeTurn where
  | piece (p : Piece)
  | interrupted
  | failed (cause : String)

/-- A source that hands out pieces. -/
structure RopeSource where
  turns : List RopeTurn
  ending : Ending

/-- What the read reports, told by the bytes alone. -/
def RopeTurn.toTurn : RopeTurn → Turn
  | piece p => .bytes p.bytes
  | interrupted => .interrupted
  | failed cause => .failed cause

theorem Piece.size_toTurn (p : Piece) : (RopeTurn.piece p).toTurn.size = p.size := p.length_bytes

/-- The pieces that came, why asking stopped, and the source afterwards. -/
structure RopePulled where
  pieces : Rope
  outcome : Source.Outcome
  rest : RopeSource

namespace RopeSource

def toSource (s : RopeSource) : Source := ⟨s.turns.map RopeTurn.toTurn, s.ending⟩

def read (limit : Nat) : RopeSource → RopeTurn × RopeSource
  | ⟨[], .finished⟩ => (.piece (.of []), ⟨[], .finished⟩)
  | ⟨[], .failing cause⟩ => (.failed cause, ⟨[], .failing cause⟩)
  | ⟨.piece p :: later, ending⟩ =>
    if p.size ≤ limit then (.piece p, ⟨later, ending⟩)
    else (.piece (p.take limit), ⟨.piece (p.drop limit) :: later, ending⟩)
  | ⟨.interrupted :: later, ending⟩ => (.interrupted, ⟨later, ending⟩)
  | ⟨.failed cause :: later, ending⟩ => (.failed cause, ⟨later, ending⟩)

variable {limit : Nat}

theorem read_toSource (limit : Nat) (s : RopeSource) :
    s.toSource.read limit = ((s.read limit).1.toTurn, (s.read limit).2.toSource) := by
  match s with
  | ⟨[], .finished⟩ | ⟨[], .failing _⟩ | ⟨.interrupted :: _, _⟩ | ⟨.failed _ :: _, _⟩ => rfl
  | ⟨.piece p :: later, ending⟩ =>
    have hp := p.length_bytes
    simp only [toSource, List.map_cons, RopeTurn.toTurn, Source.read, read]
    split
    · rename_i hdrop
      rw [List.drop_eq_nil_iff, hp] at hdrop
      rw [if_pos hdrop]
    · rename_i b rest hdrop
      have hlt : ¬ p.size ≤ limit := by
        rw [← hp, ← List.drop_eq_nil_iff, hdrop]
        exact List.cons_ne_nil _ _
      rw [if_neg hlt]
      simp only [List.map_cons, RopeTurn.toTurn, Piece.take, Piece.drop, hdrop]

theorem toSource_of_read {s t : RopeSource} {turn : RopeTurn} (h : s.read limit = (turn, t)) :
    s.toSource.read limit = (turn.toTurn, t.toSource) := by
  rw [read_toSource, h]

/-- Reads until `n` bytes have come, the input ends or a read fails; interruptions are retried.
The pieces that came before are in reverse. -/
def pullFrom (limit : Nat) (pieces : List Piece) (n : Nat) (s : RopeSource) : RopePulled :=
  if n = 0 then ⟨pieces.reverse, .enough, s⟩
  else
    match h : s.read limit with
    | (.piece p, t) =>
      if hp : p.size = 0 then ⟨pieces.reverse, .ended, t⟩
      else
        have : t.toSource.weight < s.toSource.weight :=
          Source.read_weight_lt (toSource_of_read h) (.inr (p.size_toTurn ▸ Nat.pos_of_ne_zero hp))
        pullFrom limit (p :: pieces) (n - p.size) t
    | (.interrupted, t) =>
      have : t.toSource.weight < s.toSource.weight :=
        Source.read_weight_lt (toSource_of_read h) (.inl rfl)
      pullFrom limit pieces n t
    | (.failed cause, t) => ⟨pieces.reverse, .failed cause, t⟩
termination_by s.toSource.weight

def pull (limit n : Nat) (s : RopeSource) : RopePulled := pullFrom limit [] n s

end RopeSource

def RopePulled.toPulled (p : RopePulled) : Source.Pulled :=
  ⟨p.pieces.bytes, p.outcome, p.rest.toSource⟩

theorem RopeSource.toPulled_pullFrom (limit : Nat) (pieces : List Piece) (n : Nat)
    (s : RopeSource) : (s.pullFrom limit pieces n).toPulled =
      s.toSource.pullFrom limit (pieces.map Piece.bytes) n := by
  have hspelled (pieces : List Piece) :
      Rope.bytes pieces.reverse = (pieces.map Piece.bytes).reverse.flatten := by
    rw [Rope.bytes, List.map_reverse]
  fun_induction pullFrom limit pieces n s with
  | case1 pieces s => rw [Source.pullFrom_zero, RopePulled.toPulled, hspelled]
  | case2 pieces n s hn p t h hp =>
    have hnil : p.bytes = [] := List.eq_nil_of_length_eq_zero (p.length_bytes.trans hp)
    rw [Source.pullFrom_eq, if_neg hn, toSource_of_read h, RopeTurn.toTurn, hnil,
      RopePulled.toPulled, hspelled]
  | case3 pieces n s hn p t h hp _ ih =>
    have hcons : p.bytes ≠ [] := fun hnil => hp (by rw [← p.length_bytes, hnil]; rfl)
    obtain ⟨b, u, hb⟩ := List.exists_cons_of_ne_nil hcons
    rw [Source.pullFrom_eq, if_neg hn, toSource_of_read h, RopeTurn.toTurn, hb, ih, List.map_cons,
      ← p.length_bytes, hb]
  | case4 pieces n s hn t h _ ih =>
    rw [Source.pullFrom_eq, if_neg hn, toSource_of_read h]
    exact ih
  | case5 pieces n s hn cause t h =>
    rw [Source.pullFrom_eq, if_neg hn, toSource_of_read h, RopeTurn.toTurn, RopePulled.toPulled,
      hspelled]

/-! ## Cursors -/

structure RopeCursor where
  buffer : Rope
  position : Nat
  ended : Bool
  source : RopeSource

/-- An operation on a cursor that keeps its buffer in a rope. -/
abbrev RopeReading := Fallible RopeCursor

namespace RopeCursor

def ofSource (s : RopeSource) : RopeCursor := ⟨[], 0, false, s⟩

def remaining (c : RopeCursor) : Nat := c.buffer.size

def atEnd (c : RopeCursor) : Bool := c.ended && !c.buffer.holds 1

def failure (c : RopeCursor) (fault : Fault) : Failure := ⟨"", c.position, fault⟩

/-- The cursor whose buffer is the bytes of the rope. -/
def toCursor (c : RopeCursor) : Cursor :=
  ⟨c.buffer.bytes, c.position, c.ended, c.source.toSource⟩

end RopeCursor

namespace RopeReading

open Cursor (maxBuffer refillChunk)

/-- Fills the buffer until it holds `n` bytes or the input is over. -/
def fill (n : Nat) : RopeReading Unit := fun c =>
  if maxBuffer < n then .error (c.failure (.bufferLimit n)) c
  else if c.ended then .ok () c
  else
    let p := c.source.pull refillChunk (n - c.buffer.size)
    let c := { c with buffer := c.buffer ++ p.pieces, source := p.rest }
    match p.outcome with
    | .enough => .ok () c
    | .ended => .ok () { c with ended := true }
    | .failed cause => .error (c.failure (.io cause)) c

/-- Has `n` bytes in the buffer, or fails. -/
def need (n : Nat) : RopeReading Unit := fun c =>
  if c.buffer.holds n then .ok () c
  else
    match fill n c with
    | .ok _ c => if c.buffer.holds n then .ok () c else .error (c.failure .truncatedInput) c
    | .error e c => .error e c

/-- Has `n` bytes in the buffer if the input goes that far. -/
def want (n : Nat) : RopeReading Unit := fun c =>
  if c.buffer.holds n || c.ended then .ok () c else fill n c

/-- The next byte in the buffer. -/
def peek : RopeReading (Option UInt8) := fun c => .ok c.buffer.head? c

/-- Consumes and returns `n` bytes. -/
def block (n : Nat) : RopeReading Bytes := fun c =>
  match need n c with
  | .ok _ c =>
    .ok (c.buffer.take n) { c with buffer := c.buffer.drop n, position := c.position + n }
  | .error e c => .error e c

def skip (n : Nat) : RopeReading Unit := fun c =>
  match need n c with
  | .ok _ c => .ok () { c with buffer := c.buffer.drop n, position := c.position + n }
  | .error e c => .error e c

def byte : RopeReading UInt8 := fun c =>
  match need 1 c with
  | .ok _ c =>
    match c.buffer.head? with
    | some b => .ok b { c with buffer := c.buffer.drop 1, position := c.position + 1 }
    | none => .error (c.failure .truncatedInput) c
  | .error e c => .error e c

/-! ## Following -/

theorem follows_fill (n : Nat) : Follows RopeCursor.toCursor (fill n) (Reading.fill n) := by
  rintro ⟨buffer, position, ended, source⟩
  have hpull := source.toPulled_pullFrom refillChunk [] (n - buffer.size)
  simp only [fill, Reading.fill, RopeCursor.toCursor, Rope.length_bytes, Source.pull,
    RopeSource.pull]
  split
  · rfl
  split
  · rfl
  rw [List.map_nil] at hpull
  rw [← hpull]
  generalize source.pullFrom refillChunk [] (n - buffer.size) = p
  obtain ⟨pieces, outcome, rest⟩ := p
  cases outcome <;> simp [image, RopeCursor.toCursor, RopePulled.toPulled,
    RopeCursor.failure, Cursor.failure]

theorem holds_toCursor (c : RopeCursor) (n : Nat) : c.toCursor.holds n = c.buffer.holds n := by
  rw [Cursor.holds_eq, Rope.holds_eq]
  rfl

theorem follows_need (n : Nat) : Follows RopeCursor.toCursor (need n) (Reading.need n) := by
  intro c
  rw [need, Reading.need, holds_toCursor]
  split
  · rfl
  cases hf : fill n c with
  | ok _ c' =>
    rw [(follows_fill n).of_ok hf]
    simp only [holds_toCursor]
    split <;> rfl
  | error e c' =>
    rw [(follows_fill n).of_error hf]
    rfl

theorem follows_want (n : Nat) : Follows RopeCursor.toCursor (want n) (Reading.want n) := by
  intro c
  have hended : c.toCursor.ended = c.ended := rfl
  rw [want, Reading.want, holds_toCursor, hended]
  split
  · rfl
  · exact follows_fill n c

theorem follows_peek : Follows RopeCursor.toCursor peek Reading.peek := by
  intro c
  rw [peek, Rope.head?_eq]
  rfl

theorem follows_block (n : Nat) : Follows RopeCursor.toCursor (block n) (Reading.block n) := by
  intro c
  rw [block, Reading.block]
  cases hn : need n c with
  | ok _ c' =>
    rw [(follows_need n).of_ok hn]
    simp [image, RopeCursor.toCursor]
  | error e c' =>
    rw [(follows_need n).of_error hn]
    rfl

theorem follows_skip (n : Nat) : Follows RopeCursor.toCursor (skip n) (Reading.skip n) := by
  intro c
  rw [skip, Reading.skip]
  cases hn : need n c with
  | ok _ c' =>
    rw [(follows_need n).of_ok hn]
    simp [image, RopeCursor.toCursor]
  | error e c' =>
    rw [(follows_need n).of_error hn]
    rfl

theorem follows_byte : Follows RopeCursor.toCursor byte Reading.byte := by
  intro c
  rw [byte, Reading.byte]
  cases hn : need 1 c with
  | ok _ c' =>
    rw [(follows_need 1).of_ok hn]
    simp only [Rope.head?_eq, RopeCursor.toCursor]
    cases hb : c'.buffer.bytes <;> simp [image, RopeCursor.toCursor, hb,
      RopeCursor.failure, Cursor.failure]
  | error e c' =>
    rw [(follows_need 1).of_error hn]
    rfl

end RopeReading

namespace RopeCursor

theorem atEnd_toCursor (c : RopeCursor) : c.toCursor.atEnd = c.atEnd := by
  have hempty : c.buffer.bytes.isEmpty = !c.buffer.holds 1 := by
    rw [Rope.holds_eq]
    cases c.buffer.bytes <;> rfl
  rw [Cursor.atEnd, atEnd, ← hempty]
  rfl

/-- Cursors that keep their buffer in a rope. -/
def layer : Cursor.Layer RopeCursor where
  view := toCursor
  position := position
  remaining := remaining
  atEnd := atEnd
  need := RopeReading.need
  want := RopeReading.want
  skip := RopeReading.skip
  peek := RopeReading.peek
  byte := RopeReading.byte
  block := RopeReading.block
  view_position _ := rfl
  view_remaining c := Rope.length_bytes c.buffer
  view_atEnd := atEnd_toCursor
  follows_need := RopeReading.follows_need
  follows_want := RopeReading.follows_want
  follows_skip := RopeReading.follows_skip
  follows_peek := RopeReading.follows_peek
  follows_byte := RopeReading.follows_byte
  follows_block := RopeReading.follows_block

end RopeCursor

end JitDump
