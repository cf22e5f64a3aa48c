import Std.Data.HashMap

/-! # Pairs in the order of their keys' first insertion

Inserting under a known key keeps its place and replaces its value; a new key goes to the end. The
index says where each key stands. -/

namespace JitDump

structure Pairs (κ υ : Type) [BEq κ] [Hashable κ] where
  items : Array (κ × υ)
  index : Std.HashMap κ Nat

namespace Pairs

variable {κ υ : Type} [BEq κ] [Hashable κ]

def empty : Pairs κ υ := ⟨#[], ∅⟩

def size (p : Pairs κ υ) : Nat := p.items.size

def toList (p : Pairs κ υ) : List (κ × υ) := p.items.toList

def insert (p : Pairs κ υ) (k : κ) (v : υ) : Pairs κ υ :=
  let ⟨items, index⟩ := p
  match index[k]? with
  | some i => ⟨items.modify i fun item => (item.1, v), index⟩
  | none =>
    let place := items.size
    ⟨items.push (k, v), index.insert k place⟩

def get? (p : Pairs κ υ) (k : κ) : Option υ :=
  match p.index[k]? with
  | some i => p.items[i]?.map (·.2)
  | none => none

@[simp] theorem size_empty : (empty : Pairs κ υ).size = 0 := rfl
@[simp] theorem toList_empty : (empty : Pairs κ υ).toList = [] := rfl

end Pairs

end JitDump
