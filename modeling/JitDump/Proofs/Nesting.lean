import JitDump.Proofs.Trees

/-!
# Records that nest too deep

A decode refuses a child that would make its parent nest deeper than it allows.
So a record whose children nest as deep as children may is read up to the object
that refers to the first such child, and there the decode fails.
-/

namespace JitDump

open Cursor

/-! ## What breaks a decode -/

namespace Decoding

open Container

variable {α β γ : Type} {x : Decoding α} {f : α → Decoding β} {u v : Bytes} {fault : Fault}
variable {s : Session} {P : α → Session → Prop}

/-- From `s`, if its heap is sound, `x` fails with some fault when the bytes `u` come next. -/
def Breaks (x : Decoding α) (s : Session) (u : Bytes) (fault : Fault) : Prop :=
  s.heap.Sound → u.length ≤ maxBuffer → ∀ rest, s.cursor.pending = u ++ rest →
    ∃ e t, x s = .error e t ∧ e.fault = fault

theorem Breaks.bind (h : Breaks x s u fault) (f : α → Decoding β) (v : Bytes) :
    Breaks (x >>= f) s (u ++ v) fault := by
  intro hs hl rest hp
  rw [List.length_append] at hl
  obtain ⟨e, t, hx, he⟩ := h hs (by omega) (v ++ rest) (by rw [hp, List.append_assoc])
  exact ⟨e, t, Fallible.bind_of_error hx, he⟩

/-- What is yielded first does not matter to what breaks. -/
theorem Yields.breaks (h : Yields x s u P)
    (h' : ∀ a t, s.heap.Extends t.heap → P a t → Breaks (f a) t v fault) :
    Breaks (x >>= f) s (u ++ v) fault := by
  intro hs hl rest hp
  rw [List.length_append] at hl
  rw [List.append_assoc] at hp
  obtain ⟨a, t, hx, ha, he, hPa⟩ := h hs (by omega) (v ++ rest) hp
  obtain ⟨e, r, hf, hfault⟩ := h' a t he hPa he.sound (by omega) rest (ha.pending_of_append hp)
  exact ⟨e, r, (Fallible.bind_of_ok hx).trans hf, hfault⟩

theorem Breaks.read {y : Reading γ} {g : γ → Decoding β} {c : γ} (hy : y.Takes u c)
    (h : ∀ cursor, Breaks (g c) { s with cursor } v fault) :
    Breaks (ofReading y >>= g) s (u ++ v) fault := by
  refine (yields_ofReading hy).breaks ?_
  rintro _ _ - ⟨rfl, cursor, rfl⟩
  exact h cursor

theorem breaks_position {g : Nat → Decoding β} (h : ∀ i, Breaks (g i) s u fault) :
    Breaks (ofReading Reading.position >>= g) s u fault := h s.cursor.position

theorem breaks_failAt (offset : Nat) :
    Breaks (Fallible.failAt offset fault : Decoding α) s u fault :=
  fun _ _ _ _ ↦ ⟨_, s, rfl, rfl⟩

end Decoding

namespace Container

open Decoding

variable {N : Str → Str → Prop} {ctx : Context} {p : Prototype}
variable {s : Session}

/-! ## Records -/

/-- A child that is at the deepest level is refused. -/
theorem breaks_child {top : Prototype × Nat} {stack : List (Prototype × Nat)}
    (hs : s.stack = top :: stack) (hd : maxNesting < top.2 + 1) :
    Breaks object s (Encode.object (.child p)) (.nestingTooDeep (top.2 + 1)) := by
  apply breaks_position
  intro start
  apply Breaks.read (u := [0]) (v := []) (takes_kind (b := 0) rfl)
  intro cursor
  refine Yields.breaks (u := []) (yields_pop? hs) ?_
  rintro _ t _ ⟨rfl, ht⟩
  simp only [hd, if_true]
  exact breaks_failAt start

/-- The objects of a pool that nests too deep are read back up to a child at the deepest level. -/
theorem breaks_objectsFrom {os : List (Constant Prototype)} {tops stack : List (Prototype × Nat)}
    (pool : List (Constant Prototype)) (depth : Nat) (hs : s.stack = tops ++ stack)
    (htops : List.Forall₂ (Finished N) (os.filterMap Constant.child?) tops)
    (ht : ∀ t, .table t ∈ os → t.Canonical) (hd : maxNesting < Constant.nesting os)
    (hchild : ∀ q, .child q ∈ os → q.height ≤ maxNesting) :
    Breaks (objectsFrom pool depth os.length) s (os.flatMap Encode.object)
      (.nestingTooDeep (maxNesting + 1)) := by
  induction os generalizing pool depth s tops with
  | nil => exact absurd hd (by rw [Constant.nesting]; exact Nat.not_lt_zero _)
  | cons o os ih =>
    rw [Constant.nesting] at hd
    obtain ⟨tops₁, tops₂, rfl, htop, hrest⟩ := exists_tops_of_cons htops
    rw [List.append_assoc] at hs
    rw [List.flatMap_cons]
    by_cases ho : o.depth ≤ maxNesting
    · refine (yields_object hs htop (fun t h ↦ ht t (h ▸ List.mem_cons_self ..)) ho).breaks ?_
      rintro ⟨o', d⟩ r - ⟨ha, rfl, hr⟩
      exact ih (o' :: pool) (max depth o.depth) hr hrest
        (fun t h ↦ ht t (List.mem_cons_of_mem _ h)) (by omega)
        (fun q h ↦ hchild q (List.mem_cons_of_mem _ h))
    · cases o with
      | child q =>
        -- the child is at the deepest level, so the stack has it with that depth
        rw [Constant.depth] at ho
        have hq := hchild q (List.mem_cons_self ..)
        cases htop with
        | @cons _ top _ _ htop hnil =>
          cases hnil
          have hdepth : top.2 = maxNesting := by
            have := htop.2
            omega
          have hb := breaks_child (p := q) hs (by omega)
          rw [hdepth] at hb
          exact hb.bind _ _
      | _ => exact absurd (Nat.zero_le _) ho

/-- A record that nests too deep is read back up to a child at the deepest level. -/
theorem breaks_record {tops stack : List (Prototype × Nat)} (h : Readable ctx p)
    (hd : maxNesting < p.height) (hchildren : ∀ q ∈ p.children, q.height ≤ maxNesting)
    (hs : s.stack = tops ++ stack) (htops : List.Forall₂ (Finished N) p.children.reverse tops) :
    Breaks (record ctx) s (Encode.record ctx.flags p) (.nestingTooDeep (maxNesting + 1)) := by
  have ht : ∀ t, .table t ∈ p.objects.reverse → t.Canonical := fun t hm ↦
    h.tables t (List.mem_reverse.1 hm)
  have hchild : ∀ q, .child q ∈ p.objects.reverse → q.height ≤ maxNesting := fun q hq ↦
    hchildren q (Prototype.mem_children.2 (List.mem_reverse.1 hq))
  rw [p.reverse_children] at htops
  rw [← p.nesting_reverse_objects] at hd
  simp only [Encode.record, List.append_assoc]
  apply Breaks.read (takes_front h)
  intro cursor
  rw [h.objectCount]
  exact (breaks_objectsFrom [] 0 (s := { s with cursor }) hs htops ht hd hchild).bind _ _

end Container

end JitDump
