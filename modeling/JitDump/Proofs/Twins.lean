import JitDump.Proofs.Pools

/-!
# The same tables on two heaps

Two heaps hold different objects for the same strings, and the keys of a table
are compared as objects. Values are `Twin` if they are alike and each is held by
its own heap. Within a sound heap objects are one exactly if their bytes are
equal, so twin keys are found in the same places of twin tables, and insertion
merges them in the same way.
-/

namespace JitDump

variable {g g' h h' : Heap}

/-! ## Values and keys -/

namespace Template

/-- Alike values, each held by its own heap. -/
structure Value.Twin (g h : Heap) (v w : Value) : Prop where
  alike : v.Alike w
  left : v.HeldBy g
  right : w.HeldBy h

variable {v w : Value} {k k' l l' : Key} {t u : Template}

theorem Value.Twin.mono (hv : v.Twin g h w) (hg : g.Extends g') (hh : h.Extends h') :
    v.Twin g' h' w := ⟨hv.alike, hv.left.mono hg, hv.right.mono hh⟩

/-- Twins are no keys or twin keys. -/
theorem Value.Twin.key? (hv : v.Twin g h w) :
    (v.key? = none ∧ w.key? = none) ∨
      ∃ k l, v.key? = some k ∧ w.key? = some l ∧ k.toValue.Twin g h l.toValue := by
  obtain ⟨ha, hl, hr⟩ := hv
  cases ha with
  | nil => exact .inl ⟨rfl, rfl⟩
  | «false» => exact .inr ⟨_, _, rfl, rfl, .false, trivial, trivial⟩
  | «true» => exact .inr ⟨_, _, rfl, rfl, .true, trivial, trivial⟩
  | int i => exact .inr ⟨_, _, rfl, rfl, .int i, trivial, trivial⟩
  | num d =>
    refine .inr ⟨_, _, rfl, rfl, ?_⟩
    cases d.toInt32? with
    | none => exact ⟨.num d, trivial, trivial⟩
    | some i => exact ⟨.int i, trivial, trivial⟩
  | str hb => exact .inr ⟨_, _, rfl, rfl, .str hb, hl, hr⟩

/-- A heap takes alike keys for the same. -/
theorem Key.beq_of_alike (hs : h.Sound) (hk : k.toValue.HeldBy h) (hl : l.toValue.HeldBy h)
    (ha : k.toValue.Alike l.toValue) : (k == l) = Bool.true := by
  rw [beq_iff]
  cases k <;> cases l <;> cases ha
  case str.str s t hb => rw [hs.eq_of_bytes_eq hk hl hb]
  all_goals rfl

/-- Two heaps agree on which of their keys are the same. -/
theorem Key.beq_eq_beq (hg : g.Sound) (hh : h.Sound) (hk : k.toValue.Twin g h l.toValue)
    (hk' : k'.toValue.Twin g h l'.toValue) : (k == k') = (l == l') := by
  rw [Bool.eq_iff_iff]
  constructor
  · intro heq
    have ha := alike_of_beq hg hk.left hk'.left heq
    exact beq_of_alike hh hk.right hk'.right ((hk.alike.symm.trans ha).trans hk'.alike)
  · intro heq
    have ha := alike_of_beq hh hk.right hk'.right heq
    exact beq_of_alike hg hk.left hk'.left ((hk.alike.trans ha).trans hk'.alike.symm)

/-! ## Tables -/

/-- Alike tables, the keys of each held by its own heap. -/
structure Twin (g h : Heap) (t u : Template) : Prop where
  array : List.Forall₂ Value.Alike t.array.toList u.array.toList
  hash : List.Forall₂ (fun a b ↦ a.1.toValue.Twin g h b.1.toValue ∧ a.2.Alike b.2)
    t.hash.toList u.hash.toList
  left : t.hash.Sound
  right : u.hash.Sound

theorem Twin.alike (ht : t.Twin g h u) : t.Alike u :=
  ⟨ht.array, ht.hash.imp fun _ _ hi ↦ ⟨hi.1.alike, hi.2⟩⟩

theorem Twin.mono (ht : t.Twin g h u) (hg : g.Extends g') (hh : h.Extends h') : t.Twin g' h' u :=
  ⟨ht.array, ht.hash.imp fun _ _ hi ↦ ⟨hi.1.mono hg hh, hi.2⟩, ht.left, ht.right⟩

theorem twin_of_array {vs ws : List Value} (hv : List.Forall₂ (Value.Twin g h) vs ws) :
    (⟨vs.toArray, .empty⟩ : Template).Twin g h ⟨ws.toArray, .empty⟩ :=
  ⟨hv.imp fun _ _ ha ↦ ha.alike, .nil, Pairs.sound_empty, Pairs.sound_empty⟩

theorem forall₂_set {α β : Type} {R : α → β → Prop} {as : List α} {bs : List β} {a : α} {b : β}
    (hl : List.Forall₂ R as bs) (hab : R a b) (i : Nat) :
    List.Forall₂ R (as.set i a) (bs.set i b) := by
  induction hl generalizing i with
  | nil => exact .nil
  | cons hr hl ih =>
    cases i with
    | zero => exact .cons hab hl
    | succ i => exact .cons hr (ih i)

/-- Pairs are placed alike where their keys are found alike. -/
theorem forall₂_place {R : Key × Value → Key × Value → Prop} {as bs : List (Key × Value)}
    (hl : List.Forall₂ R as bs) (hk : ∀ a b, R a b → (a.1 == k) = (b.1 == l))
    (hnew : R (k, v) (l, w)) (hset : ∀ a b, R a b → R (a.1, v) (b.1, w)) :
    List.Forall₂ R (Pairs.place k v as) (Pairs.place l w bs) := by
  induction hl with
  | nil => exact .cons hnew .nil
  | @cons a b as bs hr hl ih =>
    rw [Pairs.place, Pairs.place, hk a b hr]
    split
    · exact .cons (hset a b hr) hl
    · exact .cons hr ih

/-- Inserting twins into twins. -/
theorem Twin.insert (hg : g.Sound) (hh : h.Sound) (ht : t.Twin g h u)
    (hk : k.toValue.Twin g h l.toValue) (hv : v.Alike w) :
    (t.insert k v).Twin g h (u.insert l w) := by
  obtain ⟨array, hash, left, right⟩ := ht
  obtain ⟨vs, ps⟩ := t
  obtain ⟨ws, qs⟩ := u
  have hslot : l.arraySlot? ws.size = k.arraySlot? vs.size := by
    rw [Key.arraySlot?_eq hk.alike, ← Array.length_toList, ← Array.length_toList, array.length_eq]
  simp only [Template.insert, hslot]
  cases k.arraySlot? vs.size with
  | some i =>
    refine ⟨?_, hash, left, right⟩
    rw [Array.toList_setIfInBounds, Array.toList_setIfInBounds]
    exact forall₂_set array hv i
  | none =>
    refine ⟨array, ?_, left.insert k v, right.insert l w⟩
    rw [left.toList_insert, right.toList_insert]
    exact forall₂_place hash (fun a b hi ↦ Key.beq_eq_beq hg hh hi.1 hk) ⟨hk, hv⟩
      fun a b hi ↦ ⟨hi.1, hv⟩

end Template

end JitDump
