import JitDump.Cursor

/-! # Cursors that are kept in another way

A cursor is known by the bytes that have come and are not yet consumed, but may keep them in
whatever way. A layer says how it is seen as a cursor on those bytes, and has the operations that
look into the buffer, each with the proof that it follows the one on the bytes. The others are made
of these. -/

namespace JitDump

open Fallible

/-- A way to keep a cursor. -/
structure Cursor.Layer (σ : Type) where
  view : σ → Cursor
  position : σ → Nat
  remaining : σ → Nat
  atEnd : σ → Bool
  need : Nat → Fallible σ Unit
  want : Nat → Fallible σ Unit
  skip : Nat → Fallible σ Unit
  peek : Fallible σ (Option UInt8)
  byte : Fallible σ UInt8
  block : Nat → Fallible σ Bytes
  view_position : ∀ c, (view c).position = position c
  view_remaining : ∀ c, (view c).remaining = remaining c
  view_atEnd : ∀ c, (view c).atEnd = atEnd c
  follows_need : ∀ n, Follows view (need n) (Reading.need n)
  follows_want : ∀ n, Follows view (want n) (Reading.want n)
  follows_skip : ∀ n, Follows view (skip n) (Reading.skip n)
  follows_peek : Follows view peek Reading.peek
  follows_byte : Follows view byte Reading.byte
  follows_block : ∀ n, Follows view (block n) (Reading.block n)

namespace Cursor.Layer

variable {σ α : Type} (L : Cursor.Layer σ)

def fail (fault : Fault) : Fallible σ α := fun c => .error ⟨"", L.position c, fault⟩ c

def word16 (order : ByteOrder) : Fallible σ UInt16 := do
  match ← L.block 2 with
  | [a, b] => pure (order.word16 a b)
  | _ => L.fail .truncatedInput

def word32 (order : ByteOrder) : Fallible σ UInt32 := do
  match ← L.block 4 with
  | [a, b, c, d] => pure (order.word32 a b c d)
  | _ => L.fail .truncatedInput

/-- The bytes of a number of variable length after those already read, which are in reverse. -/
def groupsFrom (done : Bytes) (c : σ) : EStateM.Result Failure σ Bytes :=
  match h : L.byte c with
  | .ok b c' =>
    have : (L.view c').undelivered < (L.view c).undelivered :=
      Reading.byte_undelivered (L.follows_byte.of_ok h)
    if Varint.continues b then groupsFrom (b :: done) c' else .ok (b :: done).reverse c'
  | .error e c' => .error e c'
termination_by (L.view c).undelivered

def groups : Fallible σ Bytes := L.groupsFrom []

def varint : Fallible σ UInt32 := Varint.value <$> L.groups

/-- A tagged number and its tag. -/
def taggedVarint : Fallible σ (UInt32 × Bool) := Varint.taggedValue <$> L.groups

theorem follows_fail (fault : Fault) :
    Follows L.view (L.fail fault : Fallible σ α) (Reading.fail fault) := by
  intro c
  rw [fail, Reading.fail, Cursor.failure, L.view_position]
  rfl

theorem follows_word16 (order : ByteOrder) :
    Follows L.view (L.word16 order) (Reading.word16 order) := by
  refine (L.follows_block 2).bind fun u => ?_
  match u with
  | [_, _] => exact fun _ => rfl
  | [] | [_] | _ :: _ :: _ :: _ => exact L.follows_fail _

theorem follows_word32 (order : ByteOrder) :
    Follows L.view (L.word32 order) (Reading.word32 order) := by
  refine (L.follows_block 4).bind fun u => ?_
  match u with
  | [_, _, _, _] => exact fun _ => rfl
  | [] | [_] | [_, _] | [_, _, _] | _ :: _ :: _ :: _ :: _ :: _ => exact L.follows_fail _

theorem follows_groupsFrom (done : Bytes) :
    Follows L.view (L.groupsFrom done) (Reading.groupsFrom done) := by
  intro c
  fun_induction groupsFrom L done c with
  | case1 done c b c' h _ hb ih =>
    rw [Reading.groupsFrom_eq, L.follows_byte.of_ok h]
    exact ih.trans (if_pos hb).symm
  | case2 done c b c' h _ hb =>
    rw [Reading.groupsFrom_eq, L.follows_byte.of_ok h]
    exact (if_neg hb).symm
  | case3 done c e c' h =>
    rw [Reading.groupsFrom_eq, L.follows_byte.of_error h]
    rfl

theorem follows_varint : Follows L.view L.varint Reading.varint :=
  (L.follows_groupsFrom []).map _

theorem follows_taggedVarint : Follows L.view L.taggedVarint Reading.taggedVarint :=
  (L.follows_groupsFrom []).map _

end Cursor.Layer

end JitDump
