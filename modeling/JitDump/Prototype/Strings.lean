import JitDump.Prototype.Tree

/-! # The strings of a tree

Every string object that a tree of prototypes refers to: chunk names, string constants, and the
keys and values of tables. -/

namespace JitDump

namespace Template

/-- The string that a value is, if it is one. -/
def Value.strings : Value → List Str
  | .str s => [s]
  | .nil | .false | .true | .int _ | .num _ => []

/-- The strings of a pair. -/
def pairStrings (item : Key × Value) : List Str := item.1.toValue.strings ++ item.2.strings

/-- The strings of a table, those of its array part first. -/
def strings (t : Template) : List Str :=
  t.array.toList.flatMap Value.strings ++ t.hash.toList.flatMap pairStrings

end Template

/-- The strings of an object, apart from those of a child. -/
def Constant.strings {child : Type} : Constant child → List Str
  | .str s => [s]
  | .table t => t.strings
  | .child _ | .int64 _ | .uint64 _ | .complex _ _ => []

namespace Prototype

/-- The strings of a prototype, apart from those of its children. -/
def strings (p : Prototype) : List Str := p.chunkName :: p.objects.flatMap Constant.strings

/-- The strings of a prototype and of all that are below it. -/
def allStrings (p : Prototype) : List Str := p.postorder.flatMap strings

end Prototype

/-- The strings of an object with those of a child. -/
def Constant.allStrings : Constant Prototype → List Str
  | .child p => p.allStrings
  | .str s => [s]
  | .table t => t.strings
  | .int64 _ | .uint64 _ | .complex _ _ => []

variable {p : Prototype} {a : Str}

theorem Constant.mem_allStrings {o : Constant Prototype} :
    a ∈ o.allStrings ↔ a ∈ o.strings ∨ ∃ q, o = .child q ∧ a ∈ q.allStrings := by
  cases o <;> simp [allStrings, strings]

theorem Prototype.allStrings_eq (p : Prototype) :
    p.allStrings = p.children.flatMap allStrings ++ p.strings := by
  have hroot : List.flatMap strings [p] = p.strings := List.append_nil _
  rw [allStrings, postorder_eq_children, List.flatMap_append, List.flatMap_assoc, hroot]
  rfl

/-- A string of a tree is the chunk name of its root or one of an object's. -/
theorem Prototype.mem_allStrings :
    a ∈ p.allStrings ↔ a = p.chunkName ∨ ∃ o ∈ p.objects, a ∈ o.allStrings := by
  rw [allStrings_eq]
  simp only [Constant.mem_allStrings, strings, List.mem_append, List.mem_flatMap, List.mem_cons,
    mem_children, and_or_left, exists_or]
  constructor
  · rintro (⟨q, hq, ha⟩ | hname | ho)
    · exact .inr (.inr ⟨_, hq, q, rfl, ha⟩)
    · exact .inl hname
    · exact .inr (.inl ho)
  · rintro (hname | ho | ⟨_, hq, q, rfl, ha⟩)
    · exact .inr (.inl hname)
    · exact .inr (.inr ho)
    · exact .inl ⟨q, hq, ha⟩

end JitDump
