import JitDump.Prototype

/-! # Trees of prototypes

The prototypes of a tree in the order in which a container stores them, and how deep they nest. -/

namespace JitDump

mutual

/-- The prototypes of a tree, children in addressing order before their parent. -/
def Prototype.postorder : Prototype → List Prototype
  | ⟨flags, params, frame, upvalueCount, code, upvalues, numbers, objects, debug, name⟩ =>
    Constant.postorders objects ++
      [⟨flags, params, frame, upvalueCount, code, upvalues, numbers, objects, debug, name⟩]

/-- The prototypes below one object. -/
def Constant.postorder : Constant Prototype → List Prototype
  | .child p => p.postorder
  | .str _ | .table _ | .int64 _ | .uint64 _ | .complex _ _ => []

/-- The prototypes below a pool. -/
def Constant.postorders : List (Constant Prototype) → List Prototype
  | [] => []
  | o :: objects => o.postorder ++ Constant.postorders objects

end

mutual

/-- The length of the longest chain of children below a prototype. -/
def Prototype.height : Prototype → Nat
  | ⟨_, _, _, _, _, _, _, objects, _, _⟩ => Constant.nesting objects

/-- How deep an object makes its owner nest. -/
def Constant.depth : Constant Prototype → Nat
  | .child p => p.height + 1
  | .str _ | .table _ | .int64 _ | .uint64 _ | .complex _ _ => 0

/-- How deep a pool makes its owner nest. -/
def Constant.nesting : List (Constant Prototype) → Nat
  | [] => 0
  | o :: objects => max o.depth (Constant.nesting objects)

end

namespace Constant

theorem postorders_eq_children (objects : List (Constant Prototype)) :
    postorders objects = (objects.filterMap child?).flatMap Prototype.postorder := by
  induction objects with
  | nil => rw [postorders]; rfl
  | cons o objects ih =>
    rw [postorders, ih, List.filterMap_cons]
    cases o <;> simp [postorder, child?]

theorem nesting_append (objects objects' : List (Constant Prototype)) :
    nesting (objects ++ objects') = max (nesting objects) (nesting objects') := by
  induction objects with
  | nil => rw [List.nil_append, nesting, Nat.zero_max]
  | cons o objects ih => rw [List.cons_append, nesting, ih, nesting, Nat.max_assoc]

/-- How deep a pool nests does not depend on its order. -/
theorem nesting_reverse (objects : List (Constant Prototype)) :
    nesting objects.reverse = nesting objects := by
  induction objects with
  | nil => rfl
  | cons o objects ih =>
    rw [List.reverse_cons, nesting_append, ih, nesting, nesting, nesting, Nat.max_zero,
      Nat.max_comm]

end Constant

namespace Prototype

theorem postorder_eq (p : Prototype) : p.postorder = Constant.postorders p.objects ++ [p] := by
  cases p; rw [postorder]

/-- The trees of the children in addressing order, then the root. -/
theorem postorder_eq_children (p : Prototype) :
    p.postorder = p.children.flatMap postorder ++ [p] := by
  rw [postorder_eq, Constant.postorders_eq_children, children]

theorem height_eq (p : Prototype) : p.height = Constant.nesting p.objects := by
  cases p; rw [height]

/-- A tree holds its root. -/
theorem mem_postorder_self (p : Prototype) : p ∈ p.postorder := by simp [postorder_eq]

/-! ## Children -/

variable {p q r : Prototype}

theorem mem_children : q ∈ p.children ↔ .child q ∈ p.objects := by
  rw [children, List.mem_filterMap]
  constructor
  · rintro ⟨o, ho, hq⟩
    cases o with
    | child p => cases hq; exact ho
    | _ => cases hq
  · exact fun h => ⟨.child q, h, rfl⟩

theorem reverse_children (p : Prototype) :
    p.children.reverse = p.objects.reverse.filterMap Constant.child? := List.filterMap_reverse.symm

theorem nesting_reverse_objects (p : Prototype) :
    Constant.nesting p.objects.reverse = p.height := by rw [Constant.nesting_reverse, height_eq]

/-- The trees below a tree are trees in it. -/
theorem mem_postorder_of_mem_children (hq : q ∈ p.children) (hr : r ∈ q.postorder) :
    r ∈ p.postorder := by
  rw [postorder_eq_children]
  exact List.mem_append_left _ (List.mem_flatMap.2 ⟨q, hq, hr⟩)

theorem height_lt_of_mem_children (hq : q ∈ p.children) : q.height < p.height := by
  obtain ⟨before, after, h⟩ := List.append_of_mem (mem_children.1 hq)
  rw [height_eq p, h, Constant.nesting_append, Constant.nesting, Constant.depth]
  omega

/-- What holds of a tree when it holds of its children holds of all trees. -/
theorem induction {P : Prototype → Prop} (h : ∀ p, (∀ q ∈ p.children, P q) → P p) (p : Prototype) :
    P p := by
  generalize hn : p.height = n
  induction n using Nat.strongRecOn generalizing p with
  | ind n ih => exact h p fun q hq => ih q.height (hn ▸ height_lt_of_mem_children hq) q rfl

end Prototype

end JitDump
