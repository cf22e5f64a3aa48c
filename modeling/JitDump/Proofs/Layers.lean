import JitDump.Cursor.Staged
import JitDump.Proofs.Accounts
import JitDump.Rope.Cursor

/-!
# Calls on cursors that are kept in another way

Whatever a reader calls for, one after another and behind failures as well, a
cursor that is kept in another way gives the answers of the cursor that it is
seen as, stands at the same position and has as many bytes left.  So what is
told of calls on a cursor holds of one that drops what it has consumed only when
it is filled, and of one that keeps its buffer in a rope.
-/

namespace JitDump

open Fallible

namespace Cursor.Layer

variable {σ : Type} (L : Layer σ)

/-- What a call does to a cursor that is kept in another way. -/
def reading : (k : Call) → Fallible σ k.Answer
  | .need n => L.need n
  | .want n => L.want n
  | .skip n => L.skip n
  | .peek => L.peek
  | .byte => L.byte
  | .word16 order => L.word16 order
  | .word32 order => L.word32 order
  | .block n => L.block n
  | .varint => L.varint
  | .taggedVarint => L.taggedVarint

theorem follows_reading (k : Call) : Follows L.view (L.reading k) k.reading := by
  cases k with
  | need n => exact L.follows_need n
  | want n => exact L.follows_want n
  | skip n => exact L.follows_skip n
  | peek => exact L.follows_peek
  | byte => exact L.follows_byte
  | word16 order => exact L.follows_word16 order
  | word32 order => exact L.follows_word32 order
  | block n => exact L.follows_block n
  | varint => exact L.follows_varint
  | taggedVarint => exact L.follows_taggedVarint

/-- The cursor behind a call, which may have failed. -/
def apply (k : Call) (c : σ) : σ :=
  match L.reading k c with
  | .ok _ c' | .error _ c' => c'

/-- The cursor behind some calls, one after another. -/
def after (c : σ) (calls : List Call) : σ := calls.foldl (fun c k ↦ L.apply k c) c

theorem view_apply (k : Call) (c : σ) : L.view (L.apply k c) = k.apply (L.view c) := by
  have hfollows := L.follows_reading k c
  unfold apply Call.apply
  rw [← hfollows]
  cases L.reading k c with
  | ok a c' | error e c' => rfl

theorem view_after (c : σ) (calls : List Call) :
    L.view (L.after c calls) = (L.view c).after calls := by
  induction calls generalizing c with
  | nil => rfl
  | cons k calls ih =>
    exact (ih (L.apply k c)).trans (congrArg (·.after calls) (L.view_apply k c))

/-- Behind any calls, any call answers as it does on the cursor that is seen. -/
theorem calls_follow (c : σ) (calls : List Call) (k : Call) :
    image L.view (L.reading k (L.after c calls)) = k.reading ((L.view c).after calls) ∧
      L.position (L.after c calls) = ((L.view c).after calls).position ∧
      L.remaining (L.after c calls) = ((L.view c).after calls).remaining ∧
      L.atEnd (L.after c calls) = ((L.view c).after calls).atEnd := by
  rw [← L.view_after]
  exact ⟨L.follows_reading k _, (L.view_position _).symm, (L.view_remaining _).symm,
    (L.view_atEnd _).symm⟩

end Cursor.Layer

open Cursor (Call)

/-- A staging buffer that is compacted and refilled answers any calls as the bytes do that are not
yet consumed. -/
theorem StagedCursor.calls_staged (s : Source) (calls : List Call) (k : Call) :
    image toCursor (layer.reading k (layer.after (ofSource s) calls)) =
        k.reading ((Cursor.ofSource s).after calls) ∧
      (layer.after (ofSource s) calls).position =
        ((Cursor.ofSource s).after calls).position ∧
      (layer.after (ofSource s) calls).remaining =
        ((Cursor.ofSource s).after calls).remaining ∧
      (layer.after (ofSource s) calls).atEnd = ((Cursor.ofSource s).after calls).atEnd :=
  layer.calls_follow (ofSource s) calls k

/-- A rope answers any calls as its bytes do. -/
theorem RopeCursor.calls_on_rope (s : RopeSource) (calls : List Call) (k : Call) :
    image toCursor (layer.reading k (layer.after (ofSource s) calls)) =
        k.reading ((Cursor.ofSource s.toSource).after calls) ∧
      (layer.after (ofSource s) calls).position =
        ((Cursor.ofSource s.toSource).after calls).position ∧
      (layer.after (ofSource s) calls).remaining =
        ((Cursor.ofSource s.toSource).after calls).remaining ∧
      (layer.after (ofSource s) calls).atEnd =
        ((Cursor.ofSource s.toSource).after calls).atEnd :=
  layer.calls_follow (ofSource s) calls k

end JitDump
