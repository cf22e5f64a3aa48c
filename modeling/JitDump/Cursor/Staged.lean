import JitDump.Cursor.Layer

/-! # The staging buffer

A cursor may keep what it has consumed in front of what it has not, and tell them apart by a place
in the buffer. Only a fill drops what has been consumed. A read is given room behind the buffer, of
which what it did not use is cut off again. -/

namespace JitDump

open Fallible

structure StagedCursor where
  buf : Bytes
  /-- How many bytes of the buffer have been consumed. -/
  pos : Nat
  /-- How many bytes have been dropped in front of the buffer. -/
  base : Nat
  ended : Bool
  source : Source
  pos_le : pos ≤ buf.length

/-- An operation on a cursor with a staging buffer. -/
abbrev StagedReading := Fallible StagedCursor

namespace StagedCursor

open Cursor (maxBuffer refillChunk)

def ofSource (s : Source) : StagedCursor := ⟨[], 0, 0, false, s, Nat.le_refl 0⟩

def position (c : StagedCursor) : Nat := c.base + c.pos

def remaining (c : StagedCursor) : Nat := c.buf.length - c.pos

def atEnd (c : StagedCursor) : Bool := c.ended && c.remaining == 0

def failure (c : StagedCursor) (fault : Fault) : Failure := ⟨"", c.position, fault⟩

/-- The cursor whose buffer is what has not been consumed. -/
def toCursor (c : StagedCursor) : Cursor := ⟨c.buf.drop c.pos, c.position, c.ended, c.source⟩

/-- The cursor behind bytes of the buffer that are consumed. -/
def beyond (c : StagedCursor) (n : Nat) (h : n ≤ c.remaining) : StagedCursor where
  buf := c.buf
  pos := c.pos + n
  base := c.base
  ended := c.ended
  source := c.source
  pos_le := Nat.add_le_of_le_sub' c.pos_le h

/-- Drops what has been consumed. -/
def compact (c : StagedCursor) : StagedCursor :=
  if 0 < c.pos then ⟨c.buf.drop c.pos, 0, c.base + c.pos, c.ended, c.source, Nat.zero_le _⟩ else c

/-- A buffer behind a read: it is made longer by as much as is asked for, what comes is put into
that room, and what is left of the room is cut off. -/
def receive (buf piece : Bytes) : Bytes :=
  let room := buf ++ List.replicate refillChunk 0
  let filled := room.take buf.length ++ piece ++ room.drop (buf.length + piece.length)
  filled.take (buf.length + piece.length)

@[simp] theorem receive_eq (buf piece : Bytes) : receive buf piece = buf ++ piece := by
  have hlength : (buf ++ piece).length = buf.length + piece.length := List.length_append
  rw [receive, List.take_left, ← hlength, List.take_left]

/-- The cursor behind a read. -/
def received (c : StagedCursor) (piece : Bytes) (rest : Source) : StagedCursor where
  buf := receive c.buf piece
  pos := c.pos
  base := c.base
  ended := c.ended
  source := rest
  pos_le := by
    rw [receive_eq, List.length_append]
    exact Nat.le_add_right_of_le c.pos_le

@[simp] theorem buf_received (c : StagedCursor) (piece : Bytes) (rest : Source) :
    (c.received piece rest).buf = c.buf ++ piece := receive_eq c.buf piece

/-- The cursor behind a read that said that the input is over. -/
def exhausted (c : StagedCursor) : StagedCursor := { c with ended := true }

@[simp] theorem pos_compact (c : StagedCursor) : c.compact.pos = 0 := by
  rw [compact]
  split
  · rfl
  · exact Nat.eq_zero_of_not_pos ‹_›

theorem toCursor_of_pos {c : StagedCursor} (h : c.pos = 0) :
    c.toCursor = ⟨c.buf, c.base, c.ended, c.source⟩ := by
  rw [toCursor, position, h]
  rfl

theorem toCursor_exhausted (c : StagedCursor) :
    c.exhausted.toCursor = { c.toCursor with ended := true } := rfl

theorem toCursor_received {c : StagedCursor} (h : c.pos = 0) (piece : Bytes) (rest : Source) :
    (c.received piece rest).toCursor = ⟨c.buf ++ piece, c.base, c.ended, rest⟩ := by
  rw [toCursor_of_pos (show (c.received piece rest).pos = 0 from h), buf_received]
  rfl

theorem toCursor_compact (c : StagedCursor) : c.compact.toCursor = c.toCursor := by
  rw [compact]
  split <;> rfl

theorem toCursor_beyond (c : StagedCursor) {n : Nat} (h : n ≤ c.remaining) :
    (c.beyond n h).toCursor =
      ⟨c.toCursor.buffer.drop n, c.position + n, c.ended, c.source⟩ := by
  simp only [toCursor, beyond, position, List.drop_drop, Nat.add_assoc]

theorem remaining_toCursor (c : StagedCursor) : c.toCursor.remaining = c.remaining :=
  List.length_drop

theorem holds_toCursor (c : StagedCursor) (n : Nat) :
    c.toCursor.holds n = decide (n ≤ c.remaining) := by
  rw [Cursor.holds_eq, ← remaining_toCursor]
  rfl

theorem atEnd_toCursor (c : StagedCursor) : c.toCursor.atEnd = c.atEnd := by
  have hempty : (c.buf.drop c.pos).isEmpty = (c.remaining == 0) := by
    rw [remaining, ← List.length_drop]
    cases c.buf.drop c.pos <;> rfl
  rw [Cursor.atEnd, atEnd, ← hempty]
  rfl

end StagedCursor

namespace StagedReading

open Cursor (maxBuffer refillChunk)
open StagedCursor (toCursor)

/-- Reads until the buffer has `n` bytes, the input is over or a read fails; interruptions are
retried. -/
def refill (n : Nat) (c : StagedCursor) : EStateM.Result Failure StagedCursor Unit :=
  if n ≤ c.buf.length || c.ended then .ok () c
  else
    match h : c.source.read refillChunk with
    | (.bytes [], t) => .ok () (c.received [] t).exhausted
    | (.bytes (b :: piece), t) =>
      have : t.weight < c.source.weight := Source.read_weight_lt h (.inr (Nat.succ_pos _))
      refill n (c.received (b :: piece) t)
    | (.interrupted, t) =>
      have : t.weight < c.source.weight := Source.read_weight_lt h (.inl rfl)
      refill n (c.received [] t)
    | (.failed cause, t) => .error (c.failure (.io cause)) (c.received [] t)
termination_by c.source.weight

/-- Has `n` bytes in the buffer or the input over, with nothing consumed in front of them. -/
def fill (n : Nat) : StagedReading Unit := fun c =>
  if maxBuffer < n then .error (c.failure (.bufferLimit n)) c else refill n c.compact

/-- Has `n` bytes to consume, or fails. -/
def need (n : Nat) : StagedReading Unit := fun c =>
  if n ≤ c.remaining then .ok () c
  else
    match fill n c with
    | .ok _ c => if n ≤ c.remaining then .ok () c else .error (c.failure .truncatedInput) c
    | .error e c => .error e c

/-- Has `n` bytes to consume if the input goes that far. -/
def want (n : Nat) : StagedReading Unit := fun c =>
  if n ≤ c.remaining || c.ended then .ok () c else fill n c

/-- The next byte in the buffer. -/
def peek : StagedReading (Option UInt8) := fun c => .ok c.buf[c.pos]? c

/-- Consumes bytes of the buffer, of which there have to be enough. -/
def advance (n : Nat) : StagedReading Unit := fun c =>
  if h : n ≤ c.remaining then .ok () (c.beyond n h) else .error (c.failure .truncatedInput) c

def skip (n : Nat) : StagedReading Unit := do
  need n
  advance n

def byte : StagedReading UInt8 := do
  need 1
  let c ← get
  advance 1
  return c.buf.getD c.pos 0

/-- Consumes and returns `n` bytes. -/
def block (n : Nat) : StagedReading Bytes := do
  need n
  let c ← get
  advance n
  return (c.buf.drop c.pos).take n

/-! ## Following -/

variable {n : Nat} {c c' : StagedCursor}

/-- What a fill from a front of the buffer comes to, given what was pulled behind that. -/
theorem image_refill {front : Bytes} {pieces : List Bytes} (hpos : c.pos = 0)
    (hended : c.ended = false) (hbuf : c.buf = front ++ pieces.reverse.flatten) :
    image toCursor (refill n c) =
      let p := c.source.pullFrom refillChunk pieces (n - c.buf.length)
      let d : Cursor := ⟨front ++ p.bytes, c.base, false, p.rest⟩
      match p.outcome with
      | .enough => .ok () d
      | .ended => .ok () { d with ended := true }
      | .failed cause => .error (d.failure (.io cause)) d := by
  fun_induction refill n c generalizing pieces with
  | case1 c h =>
    rw [hended, Bool.or_false, decide_eq_true_eq] at h
    rw [Nat.sub_eq_zero_of_le h, Source.pullFrom_zero, image, StagedCursor.toCursor_of_pos hpos,
      hbuf, hended]
  | case2 c h t hread =>
    rw [hended, Bool.or_false, decide_eq_true_eq, Nat.not_le] at h
    have hview := StagedCursor.toCursor_received hpos [] t
    rw [List.append_nil, hbuf] at hview
    rw [Source.pullFrom_eq, if_neg (Nat.sub_ne_zero_of_lt h), hread, image,
      StagedCursor.toCursor_exhausted, hview]
  | case3 c h b piece t hread _ ih =>
    rw [hended, Bool.or_false, decide_eq_true_eq, Nat.not_le] at h
    have hbuf' : (c.received (b :: piece) t).buf =
        front ++ ((b :: piece) :: pieces).reverse.flatten := by
      rw [StagedCursor.buf_received, hbuf]
      simp
    have hleft : n - (c.received (b :: piece) t).buf.length =
        n - c.buf.length - (b :: piece).length := by
      rw [StagedCursor.buf_received, List.length_append, Nat.sub_sub]
    rw [Source.pullFrom_eq, if_neg (Nat.sub_ne_zero_of_lt h), hread, ih hpos hended hbuf', hleft]
    rfl
  | case4 c h t hread _ ih =>
    rw [hended, Bool.or_false, decide_eq_true_eq, Nat.not_le] at h
    have hbuf' : (c.received [] t).buf = c.buf := by
      rw [StagedCursor.buf_received, List.append_nil]
    rw [Source.pullFrom_eq, if_neg (Nat.sub_ne_zero_of_lt h), hread,
      ih hpos hended (hbuf'.trans hbuf), hbuf']
    rfl
  | case5 c h cause t hread =>
    rw [hended, Bool.or_false, decide_eq_true_eq, Nat.not_le] at h
    have hview := StagedCursor.toCursor_received hpos [] t
    rw [List.append_nil, hbuf, hended] at hview
    rw [Source.pullFrom_eq, if_neg (Nat.sub_ne_zero_of_lt h), hread, image, hview,
      StagedCursor.failure, StagedCursor.position, hpos]
    rfl

theorem follows_fill (n : Nat) : Follows toCursor (fill n) (Reading.fill n) := by
  intro c
  rw [fill, Reading.fill]
  split
  · rfl
  rw [← StagedCursor.toCursor_compact, StagedCursor.toCursor_of_pos c.pos_compact]
  cases hended : c.compact.ended with
  | true =>
    rw [refill, hended, Bool.or_true, if_pos rfl, image, StagedCursor.toCursor_of_pos c.pos_compact,
      hended]
    rfl
  | false =>
    have hbuf : c.compact.buf = c.compact.buf ++ ([] : List Bytes).reverse.flatten :=
      (List.append_nil _).symm
    exact image_refill c.pos_compact hended hbuf

theorem follows_need (n : Nat) : Follows toCursor (need n) (Reading.need n) := by
  intro c
  rw [need, Reading.need, StagedCursor.holds_toCursor]
  simp only [decide_eq_true_eq]
  split
  · rfl
  cases hf : fill n c with
  | ok _ c' =>
    rw [(follows_fill n).of_ok hf]
    simp only [StagedCursor.holds_toCursor, decide_eq_true_eq]
    split <;> rfl
  | error e c' =>
    rw [(follows_fill n).of_error hf]
    rfl

theorem follows_want (n : Nat) : Follows toCursor (want n) (Reading.want n) := by
  intro c
  have hended : c.toCursor.ended = c.ended := rfl
  rw [want, Reading.want, StagedCursor.holds_toCursor, hended]
  split
  · rfl
  · exact follows_fill n c

theorem follows_peek : Follows toCursor peek Reading.peek := by
  intro c
  rw [peek, Reading.peek, toCursor, List.head?_drop]
  rfl

theorem le_remaining_of_need (h : need n c = .ok () c') : n ≤ c'.remaining := by
  rw [need] at h
  split at h
  · next hle =>
    cases h
    exact hle
  · split at h
    · split at h
      · next hle =>
        cases h
        exact hle
      · cases h
    · cases h

/-- Nothing goes beyond the buffer that was needed before. -/
theorem advance_of_need (h : need n c = .ok () c') :
    advance n c' = .ok () (c'.beyond n (le_remaining_of_need h)) :=
  dif_pos (le_remaining_of_need h)

theorem follows_skip (n : Nat) : Follows toCursor (skip n) (Reading.skip n) := by
  intro c
  rw [skip, Reading.skip]
  cases hn : need n c with
  | ok _ c' =>
    rw [bind_of_ok hn, (follows_need n).of_ok hn, advance_of_need hn, image,
      StagedCursor.toCursor_beyond]
    rfl
  | error e c' =>
    rw [bind_of_error hn, (follows_need n).of_error hn]
    rfl

theorem follows_block (n : Nat) : Follows toCursor (block n) (Reading.block n) := by
  intro c
  rw [block, Reading.block]
  cases hn : need n c with
  | ok _ c' =>
    have hconsumed : (do let c ← get; advance n; return (c.buf.drop c.pos).take n) c' =
        .ok ((c'.buf.drop c'.pos).take n) (c'.beyond n (le_remaining_of_need hn)) :=
      bind_of_ok (advance_of_need hn)
    rw [bind_of_ok hn, hconsumed, (follows_need n).of_ok hn, image, StagedCursor.toCursor_beyond]
    simp only [List.splitAt_eq]
    rfl
  | error e c' =>
    rw [bind_of_error hn, (follows_need n).of_error hn]
    rfl

theorem follows_byte : Follows toCursor byte Reading.byte := by
  intro c
  rw [byte, Reading.byte]
  cases hn : need 1 c with
  | ok _ c' =>
    have hconsumed : (do let c ← get; advance 1; return c.buf.getD c.pos 0) c' =
        .ok (c'.buf.getD c'.pos 0) (c'.beyond 1 (le_remaining_of_need hn)) :=
      bind_of_ok (advance_of_need hn)
    have hlt : c'.pos < c'.buf.length := Nat.lt_of_sub_pos (le_remaining_of_need hn)
    have hbuffer : c'.toCursor.buffer = c'.buf.getD c'.pos 0 :: c'.buf.drop (c'.pos + 1) := by
      rw [List.getD_eq_getElem?_getD, List.getElem?_eq_getElem hlt, Option.getD_some]
      exact List.drop_eq_getElem_cons hlt
    rw [bind_of_ok hn, hconsumed, (follows_need 1).of_ok hn, image, StagedCursor.toCursor_beyond]
    simp only [hbuffer]
    rfl
  | error e c' =>
    rw [bind_of_error hn, (follows_need 1).of_error hn]
    rfl

end StagedReading

namespace StagedCursor

/-- Cursors with a staging buffer. -/
def layer : Cursor.Layer StagedCursor where
  view := toCursor
  position := position
  remaining := remaining
  atEnd := atEnd
  need := StagedReading.need
  want := StagedReading.want
  skip := StagedReading.skip
  peek := StagedReading.peek
  byte := StagedReading.byte
  block := StagedReading.block
  view_position _ := rfl
  view_remaining := remaining_toCursor
  view_atEnd := atEnd_toCursor
  follows_need := StagedReading.follows_need
  follows_want := StagedReading.follows_want
  follows_skip := StagedReading.follows_skip
  follows_peek := StagedReading.follows_peek
  follows_byte := StagedReading.follows_byte
  follows_block := StagedReading.follows_block

end StagedCursor

end JitDump
