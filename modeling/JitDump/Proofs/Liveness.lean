import JitDump.Proofs.Handles

/-!
# What interning does to liveness

Liveness is kept in the entries of a table, next to the objects.  Interning
brings one object to life, which may be new, and leaves the entries of all live
objects as they are; growth only moves them.  So between two cycles objects come
to life and none dies.
-/

namespace JitDump.Heap

namespace StringTable

variable {t t' : StringTable} {s : Bytes} {a str : Str} {e e' : Entry} {l : Liveness}

/-! ## Entries -/

theorem Sound.ne_empty (h : t.Sound) (ha : a ∈ t.objects) : (a == .empty) = false := by
  rw [Bool.eq_false_iff, Str.beq_eq, ne_eq, beq_iff_eq]
  intro hid
  have heq := h.eq_of_id_eq (.inr ha) (.inl rfl) hid
  exact h.nonempty a ha (congrArg Str.bytes heq)

/-- An object has one entry. -/
theorem Sound.eq_of_str_eq (h : t.Sound) (he : e ∈ t.entries) (he' : e' ∈ t.entries)
    (heq : e.str = e'.str) : e = e' :=
  List.inj_on_of_nodup_map (.of_map _ h.bytes) he he' heq

/-- The liveness of an object is that of its entry. -/
theorem Sound.liveness_str (h : t.Sound) (he : e ∈ t.entries) : t.liveness e.str = e.liveness := by
  have hobj : e.str ∈ t.objects := List.mem_map_of_mem he
  have hchain : e ∈ t.chain e.str.hash := h.routed.mem_chain he
  rw [liveness, h.ne_empty hobj, if_neg Bool.false_ne_true]
  cases hf : (t.chain e.str.hash).find? (·.str == e.str) with
  | none =>
    have hno := List.find?_eq_none.1 hf e hchain
    rw [Str.beq_eq, beq_self_eq_true] at hno
    exact absurd rfl hno
  | some e' =>
    have hid := List.find?_some hf
    rw [Str.beq_eq, beq_iff_eq] at hid
    have he' := mem_entries_of_mem_chain (List.mem_of_find?_eq_some hf)
    have hstr : e'.str = e.str := h.eq_of_id_eq (.inr (List.mem_map_of_mem he')) (.inr hobj) hid
    rw [h.eq_of_str_eq he' he hstr]

theorem entries_resize (t : StringTable) (mask : UInt32) :
    (t.resize mask).entries.Perm t.entries := by
  rw [resize]
  split
  · exact .refl _
  · exact (rehash_spec mask t.buckets).2.2

theorem entries_grow (t : StringTable) : t.grow.entries.Perm t.entries := by
  rw [grow]
  split
  · exact entries_resize t _
  · exact .refl _

theorem Sound.entries_insert (h : t.Sound) (str : Str) :
    (t.insert str).entries.Perm (⟨str, .live⟩ :: t.entries) := by
  refine link_perm (e := ⟨str, .live⟩) ?_
  rw [h.size]
  exact Nat.lt_succ_of_le (slot_le _ _)

/-- The entry of an object is known by its number. -/
theorem Sound.str_eq_of_beq (h : t.Sound) (he : e ∈ t.entries) (hs : str ∈ t.objects)
    (heq : (e.str == str) = true) : e.str = str := by
  rw [Str.beq_eq, beq_iff_eq] at heq
  exact h.eq_of_id_eq (.inr (List.mem_map_of_mem he)) (.inr hs) heq

/-- The entry that is found for a text is its only one. -/
theorem Sound.eq_of_find?_eq_some (h : t.Sound) (hf : t.find? s (hashBytes s) = some e')
    (he : e ∈ t.entries) (hb : e.str.bytes = s) : e = e' := by
  obtain ⟨he', hb'⟩ := of_find?_eq_some hf
  exact h.eq_of_str_eq he he' (List.inj_on_of_nodup_map h.bytes (List.mem_map_of_mem he)
    (List.mem_map_of_mem he') (hb.trans hb'.symm))

/-- Marking an object changes its own entry and no other. -/
theorem Sound.entries_mark (h : t.Sound) (hs : str ∈ t.objects) (l : Liveness) :
    (t.mark str l).entries =
      t.entries.map fun e ↦ if e.str == str then { e with liveness := l } else e := by
  rw [StringTable.mark, h.ne_empty hs, if_neg Bool.false_ne_true, entries, entries,
    List.map_flatten, Array.toList_modify]
  refine congrArg List.flatten (List.ext_getElem? fun i ↦ ?_)
  rw [List.getElem?_modify, List.getElem?_map]
  refine Option.map_congr fun chain hi ↦ ?_
  rw [Array.getElem?_toList] at hi
  by_cases hslot : slot t.mask str.hash = i
  · rw [if_pos hslot]
  · -- another chain than the one in which the marked object is found through its hash
    rw [if_neg hslot]
    refine ((List.map_congr_left fun e he ↦ if_neg fun heq ↦ hslot ?_).trans (List.map_id _)).symm
    rw [← h.str_eq_of_beq (mem_flatten_iff.2 ⟨i, chain, hi, he⟩) hs heq]
    exact h.routed i chain hi e he

/-- Interning leaves one live entry for the text, and all entries of other texts as they are. -/
theorem Sound.mem_entries_intern_iff (h : t.Sound) (hs : s ≠ []) :
    e ∈ (t.intern s).2.entries ↔ e = ⟨(t.intern s).1, .live⟩ ∨ e ∈ t.entries ∧ e.str.bytes ≠ s := by
  rcases t.intern_cases hs with ⟨str, hf, heq⟩ | ⟨str, hf, heq⟩ | ⟨hf, heq⟩
  · rw [heq]
    constructor
    · intro he
      by_cases hb : e.str.bytes = s
      · exact .inl (h.eq_of_find?_eq_some hf he hb)
      · exact .inr ⟨he, hb⟩
    · rintro (rfl | ⟨he, -⟩)
      · exact (of_find?_eq_some hf).1
      · exact he
  · obtain ⟨hmem, hbytes⟩ := of_find?_eq_some hf
    have hobj : str ∈ t.objects := List.mem_map_of_mem hmem
    have hother : ∀ e ∈ t.entries, e.str.bytes ≠ s → ¬ (e.str == str) = true := fun e he hb hbeq ↦
      hb ((congrArg Str.bytes (h.str_eq_of_beq he hobj hbeq)).trans hbytes)
    rw [heq, h.entries_mark hobj, List.mem_map]
    constructor
    · rintro ⟨e, he, rfl⟩
      by_cases hb : e.str.bytes = s
      · left
        rw [h.eq_of_find?_eq_some hf he hb, Str.beq_eq, beq_self_eq_true, if_pos rfl]
      · rw [if_neg (hother e he hb)]
        exact .inr ⟨he, hb⟩
    · rintro (rfl | ⟨he, hb⟩)
      · exact ⟨_, hmem, by rw [Str.beq_eq, beq_self_eq_true, if_pos rfl]⟩
      · exact ⟨e, he, if_neg (hother e he hb)⟩
  · have hnew := h.ne_of_find?_eq_none hf
    rw [heq, (entries_grow _).mem_iff, (h.entries_insert _).mem_iff, List.mem_cons]
    refine or_congr_right ?_
    exact ⟨fun he ↦ ⟨he, hnew _ (List.mem_map_of_mem he)⟩, And.left⟩

/-- Interning leaves the entries of live objects as they are. -/
theorem Sound.mem_entries_intern (h : t.Sound) (s : Bytes) (he : e ∈ t.entries)
    (hl : e.liveness = .live) : e ∈ (t.intern s).2.entries := by
  by_cases hs : s = []
  · subst hs
    exact he
  · refine (h.mem_entries_intern_iff hs).2 ?_
    by_cases hb : e.str.bytes = s
    · have hi := h.intern s
      have hheld := hi.subset (List.mem_map_of_mem he)
      have hstr := hi.sound.eq_of_bytes_eq (.inr hheld) hi.held (hb.trans hi.bytes.symm)
      left
      rw [← hstr, ← hl]
    · exact .inr ⟨he, hb⟩

/-- The object of a byte string that is not empty has a live entry once it is interned. -/
theorem Sound.live_mem_intern (h : t.Sound) (hs : s ≠ []) :
    ⟨(t.intern s).1, .live⟩ ∈ (t.intern s).2.entries :=
  (h.mem_entries_intern_iff hs).2 (.inl rfl)

/-- The empty string is in no entry, and only marking it changes its liveness. -/
theorem Sound.empty_intern (h : t.Sound) (s : Bytes) : (t.intern s).2.empty = t.empty := by
  have hgrow : ∀ t : StringTable, t.grow.empty = t.empty := by
    intro t
    rw [StringTable.grow]
    split
    · rw [StringTable.resize]
      split <;> rfl
    · rfl
  by_cases hs : s = []
  · subst hs
    rfl
  · rcases t.intern_cases hs with ⟨str, hf, heq⟩ | ⟨str, hf, heq⟩ | ⟨-, heq⟩
    · rw [heq]
    · have hne := h.ne_empty (List.mem_map_of_mem (of_find?_eq_some hf).1)
      rw [heq, StringTable.mark, hne, if_neg Bool.false_ne_true]
    · rw [heq]
      exact hgrow _

end StringTable

/-! ## Heaps -/

variable {h h' h'' : Heap} {s : Bytes} {a : Str}

/-- An object is held and is not to be reclaimed. -/
structure Live (h : Heap) (a : Str) : Prop where
  holds : h.Holds a
  live : h.strings.liveness a = .live

/-- An object with a live entry is live. -/
theorem Sound.live_of_mem (hs : h.Sound) (ha : ⟨a, .live⟩ ∈ h.strings.entries) : h.Live a :=
  ⟨.inr (List.mem_map_of_mem ha), StringTable.Sound.liveness_str hs ha⟩

/-- A live object is the empty string or has a live entry. -/
theorem Sound.mem_of_live (hs : h.Sound) (ha : h.Live a) :
    (a = .empty ∧ h.strings.empty = .live) ∨ ⟨a, .live⟩ ∈ h.strings.entries := by
  obtain ⟨rfl | hobj, hl⟩ := ha
  · exact .inl ⟨rfl, hl⟩
  · obtain ⟨e, he, rfl⟩ := List.mem_map.1 hobj
    rw [StringTable.Sound.liveness_str hs he] at hl
    right
    rwa [← hl]

/-- `h'` extends `h`, and what is live in `h` is live in `h'`. -/
structure Grows (h h' : Heap) : Prop extends h.Extends h' where
  live : ∀ a, h.Live a → h'.Live a

theorem Grows.refl (hs : h.Sound) : h.Grows h := ⟨.refl hs, fun _ ↦ id⟩

theorem Grows.trans (hg : h.Grows h') (hg' : h'.Grows h'') : h.Grows h'' :=
  ⟨hg.toExtends.trans hg'.toExtends, fun a ha ↦ hg'.live a (hg.live a ha)⟩

theorem Sound.grows_intern (hs : h.Sound) (s : Bytes) : h.Grows (h.intern s).2 := by
  obtain ⟨-, -, he⟩ := hs.intern s
  refine ⟨he, fun a ha ↦ ?_⟩
  rcases hs.mem_of_live ha with ⟨rfl, hl⟩ | hm
  · exact ⟨.inl rfl, (StringTable.Sound.empty_intern hs s).trans hl⟩
  · exact he.sound.live_of_mem (StringTable.Sound.mem_entries_intern hs s hm rfl)

/-- What is interned is live, as long as the empty string is. -/
theorem Sound.live_intern (hs : h.Sound) (he : h.Live .empty) (s : Bytes) :
    (h.intern s).2.Live (h.intern s).1 := by
  by_cases hn : s = []
  · subst hn
    exact (hs.grows_intern []).live _ he
  · exact (hs.intern s).2.2.sound.live_of_mem (StringTable.Sound.live_mem_intern hs hn)

/-- A cycle never condemns the empty string. -/
theorem Reachable.live_empty (hr : h.Reachable) : h.Live .empty := by
  refine ⟨.inl rfl, ?_⟩
  induction hr with
  | ofMask mask => rfl
  | intern hr s ih => exact (StringTable.Sound.empty_intern hr.sound s).trans ih
  | beginCycle _ ih => exact ih

end JitDump.Heap
