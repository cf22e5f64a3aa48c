import Mathlib.Data.List.Nodup
import Mathlib.Data.List.Perm.Basic
import JitDump.Heap

/-!
# Interned strings are known by their bytes

The table of a heap is an open hash: a string can be found because it stands in
the bucket that its hash routes to, and because no other string has its bytes.
`Sound` says this of a table, and every operation keeps it, growth included.
What a caller sees of it is short: interning a byte string gives an object with
these bytes, objects that the heap `Holds` stay held, and two held objects are
one as soon as their bytes or their numbers agree.
-/

namespace JitDump.Heap

/-! ## Buckets -/

section Buckets

variable {mask : UInt32} {buckets buckets' : Array (List Entry)} {e : Entry} {entries : List Entry}

/-- Every entry stands in the bucket that its hash routes to. -/
def Routed (mask : UInt32) (buckets : Array (List Entry)) : Prop :=
  ∀ (i : Nat) chain, buckets[i]? = some chain → ∀ e ∈ chain, StringTable.slot mask e.str.hash = i

theorem slot_le (mask hash : UInt32) : StringTable.slot mask hash ≤ mask.toNat := by
  rw [StringTable.slot, UInt32.toNat_and]
  exact Nat.and_le_right

theorem mem_flatten_iff :
    e ∈ buckets.toList.flatten ↔ ∃ i : Nat, ∃ chain, buckets[i]? = some chain ∧ e ∈ chain := by
  rw [List.mem_flatten]
  constructor
  · rintro ⟨chain, hc, he⟩
    obtain ⟨i, hi⟩ := List.mem_iff_getElem?.1 hc
    exact ⟨i, chain, by rwa [Array.getElem?_toList] at hi, he⟩
  · rintro ⟨i, chain, hi, he⟩
    exact ⟨chain, List.mem_of_getElem? (i := i) (by rwa [Array.getElem?_toList]), he⟩

/-- In routed buckets an entry is found through its hash. -/
theorem Routed.mem_chain (h : Routed mask buckets) (he : e ∈ buckets.toList.flatten) :
    e ∈ buckets.getD (StringTable.slot mask e.str.hash) [] := by
  obtain ⟨i, chain, hi, he⟩ := mem_flatten_iff.1 he
  rw [h i chain hi e he, Array.getD_eq_getD_getElem?, hi]
  exact he

/-- Linking puts an entry among the others. -/
theorem link_perm (h : StringTable.slot mask e.str.hash < buckets.size) :
    (StringTable.link mask buckets e).toList.flatten.Perm (e :: buckets.toList.flatten) := by
  obtain ⟨chains⟩ := buckets
  simp only [StringTable.link, Array.toList_modify]
  generalize StringTable.slot mask e.str.hash = i at h
  simp only [List.size_toArray] at h
  induction chains generalizing i with
  | nil => simp at h
  | cons chain chains ih =>
    cases i with
    | zero => simp
    | succ i =>
      simp only [List.modify_succ_cons, List.flatten_cons]
      exact ((ih i (by simpa using h)).append_left chain).trans List.perm_middle

theorem size_link : (StringTable.link mask buckets e).size = buckets.size := by
  simp [StringTable.link]

theorem Routed.link (h : Routed mask buckets) : Routed mask (StringTable.link mask buckets e) := by
  intro i chain hi e' he'
  rw [StringTable.link, Array.getElem?_modify] at hi
  by_cases hs : StringTable.slot mask e.str.hash = i
  · rw [if_pos hs] at hi
    obtain ⟨old, ho, rfl⟩ := Option.map_eq_some_iff.1 hi
    rcases List.mem_cons.1 he' with rfl | he'
    · exact hs
    · exact h i old ho e' he'
  · rw [if_neg hs] at hi
    exact h i chain hi e' he'

/-- Linking entries one by one, into enough buckets. -/
theorem foldl_link (h : Routed mask buckets) (hs : mask.toNat < buckets.size) :
    Routed mask (entries.foldl (StringTable.link mask) buckets) ∧
      (entries.foldl (StringTable.link mask) buckets).size = buckets.size ∧
      (entries.foldl (StringTable.link mask) buckets).toList.flatten.Perm
        (entries ++ buckets.toList.flatten) := by
  induction entries generalizing buckets with
  | nil => exact ⟨h, rfl, .refl _⟩
  | cons e entries ih =>
    rw [List.foldl_cons]
    obtain ⟨hr, hz, hp⟩ := ih (h.link (e := e)) (by rwa [size_link])
    refine ⟨hr, hz.trans size_link, hp.trans ?_⟩
    have hlt := Nat.lt_of_le_of_lt (slot_le mask e.str.hash) hs
    have hl := (link_perm (e := e) hlt).append_left entries
    exact hl.trans List.perm_middle

/-- Rehashing routes the same entries by the new mask. -/
theorem rehash_spec (mask : UInt32) (buckets : Array (List Entry)) :
    Routed mask (StringTable.rehash mask buckets) ∧
      (StringTable.rehash mask buckets).size = mask.toNat + 1 ∧
      (StringTable.rehash mask buckets).toList.flatten.Perm buckets.toList.flatten := by
  have heq : StringTable.rehash mask buckets = buckets.toList.flatten.foldl (StringTable.link mask)
      (Array.replicate (mask.toNat + 1) []) := by
    rw [StringTable.rehash, ← Array.foldl_toList, List.foldl_flatten]
  have hempty : Routed mask (Array.replicate (mask.toNat + 1) []) := by
    intro i chain hi e he
    rw [Array.getElem?_replicate] at hi
    split at hi
    · cases hi
      cases he
    · cases hi
  obtain ⟨hr, hz, hp⟩ := foldl_link hempty (by simp)
  rw [heq]
  refine ⟨hr, by simpa using hz, by simpa using hp⟩

/-- Buckets that differ in liveness only are routed alike. -/
theorem Routed.of_strings (h : Routed mask buckets)
    (hb : buckets'.map (List.map Entry.str) = buckets.map (List.map Entry.str)) :
    Routed mask buckets' := by
  intro i chain hi e he
  have hm : (buckets.map (List.map Entry.str))[i]? = some (chain.map Entry.str) := by
    rw [← hb, Array.getElem?_map, hi]
    rfl
  rw [Array.getElem?_map] at hm
  obtain ⟨old, ho, hs⟩ := Option.map_eq_some_iff.1 hm
  have he' : e.str ∈ old.map Entry.str := hs ▸ List.mem_map_of_mem he
  obtain ⟨e₀, he₀, hstr⟩ := List.mem_map.1 he'
  rw [← hstr]
  exact h i old ho e₀ he₀

theorem strings_modify (buckets : Array (List Entry)) {f : List Entry → List Entry}
    (hf : ∀ chain, (f chain).map Entry.str = chain.map Entry.str) (i : Nat) :
    (buckets.modify i f).map (List.map Entry.str) = buckets.map (List.map Entry.str) := by
  apply Array.ext_getElem?
  intro j
  rw [Array.getElem?_map, Array.getElem?_map, Array.getElem?_modify]
  split
  · simp [Function.comp_def, hf]
  · rfl

end Buckets

/-! ## Sound tables -/

namespace StringTable

variable {t t' : StringTable} {s : Bytes} {str a b : Str} {e : Entry}

/-- The objects of a table other than the empty string. -/
def objects (t : StringTable) : List Str := t.entries.map Entry.str

/-- What the operations of a table rely on and keep. -/
structure Sound (t : StringTable) : Prop where
  size : t.buckets.size = t.mask.toNat + 1
  routed : Routed t.mask t.buckets
  hash : ∀ str ∈ t.objects, str.hash = hashBytes str.bytes
  nonempty : ∀ str ∈ t.objects, str.bytes ≠ []
  bytes : (t.objects.map Str.bytes).Nodup
  /-- Objects are numbered from one in the order in which they were made. -/
  ids : (t.objects.map Str.id).Perm (List.range' 1 t.count)

/-- The same objects in other buckets, where they can still be found. -/
theorem Sound.of_perm (h : t.Sound) (hs : t'.buckets.size = t'.mask.toNat + 1)
    (hr : Routed t'.mask t'.buckets) (hp : t'.objects.Perm t.objects) (hc : t'.count = t.count) :
    t'.Sound where
  size := hs
  routed := hr
  hash str hstr := h.hash str (hp.subset hstr)
  nonempty str hstr := h.nonempty str (hp.subset hstr)
  bytes := (hp.map _).nodup_iff.2 h.bytes
  ids := (hp.map _).trans (hc ▸ h.ids)

theorem objects_of_strings
    (hb : t'.buckets.map (List.map Entry.str) = t.buckets.map (List.map Entry.str)) :
    t'.objects = t.objects := by
  have hl := congrArg (List.flatten ∘ Array.toList) hb
  simpa [objects, entries, List.map_flatten] using hl

theorem Sound.of_strings (h : t.Sound) (hm : t'.mask = t.mask) (hc : t'.count = t.count)
    (hb : t'.buckets.map (List.map Entry.str) = t.buckets.map (List.map Entry.str)) : t'.Sound := by
  refine h.of_perm ?_ ?_ (.of_eq (objects_of_strings hb)) hc
  · have hl := congrArg Array.size hb
    rw [hm, ← h.size]
    simpa using hl
  · rw [hm]
    exact h.routed.of_strings hb

theorem sound_ofMask (mask : UInt32) : (ofMask mask).Sound := by
  have hempty : (ofMask mask).objects = [] := by simp [objects, entries, ofMask]
  refine ⟨?_, ?_, by rw [hempty]; simp, by rw [hempty]; simp, by rw [hempty]; simp, ?_⟩
  · have hn := Nat.pos_of_isPowerOfTwo (Nat.isPowerOfTwo_nextPowerOfTwo (mask.toNat + 1))
    have hmax : maxBuckets = 67108864 := rfl
    have hlt : min (mask.toNat + 1).nextPowerOfTwo maxBuckets - 1 < UInt32.size := by
      simp only [UInt32.size]
      omega
    simp only [ofMask, Array.size_replicate]
    rw [UInt32.toNat_ofNat_of_lt' hlt]
    omega
  · intro i chain hi e he
    simp only [ofMask, Array.getElem?_replicate] at hi
    split at hi
    · cases hi
      cases he
    · cases hi
  · rw [hempty]
    exact .refl _

/-! ## Finding -/

theorem mem_entries_of_mem_chain {hash : UInt32} (h : e ∈ t.chain hash) : e ∈ t.entries := by
  rw [chain, Array.getD_eq_getD_getElem?] at h
  cases hb : t.buckets[slot t.mask hash]? with
  | none => simp [hb] at h
  | some chain =>
    rw [hb] at h
    exact mem_flatten_iff.2 ⟨_, chain, hb, h⟩

theorem of_find?_eq_some {hash : UInt32} (h : t.find? s hash = some e) :
    e ∈ t.entries ∧ e.str.bytes = s := by
  have hp := List.find?_some h
  simp only [Bool.and_eq_true, beq_iff_eq] at hp
  exact ⟨mem_entries_of_mem_chain (List.mem_of_find?_eq_some h), hp.2⟩

/-- A string that is not found is not there. -/
theorem Sound.ne_of_find?_eq_none (h : t.Sound) (hn : t.find? s (hashBytes s) = none) :
    ∀ str ∈ t.objects, str.bytes ≠ s := by
  rintro str hstr rfl
  obtain ⟨e, he, rfl⟩ := List.mem_map.1 hstr
  have hc : e ∈ t.chain (hashBytes e.str.bytes) := by
    rw [← h.hash _ hstr]
    exact h.routed.mem_chain he
  have := List.find?_eq_none.1 hn e hc
  simp [h.hash _ hstr] at this

/-! ## Identity -/

/-- Objects of one table with the same bytes are one object. -/
theorem Sound.eq_of_bytes_eq (h : t.Sound) (ha : a = .empty ∨ a ∈ t.objects)
    (hb : b = .empty ∨ b ∈ t.objects) (heq : a.bytes = b.bytes) : a = b := by
  rcases ha with rfl | ha <;> rcases hb with rfl | hb
  · rfl
  · exact absurd heq.symm (h.nonempty b hb)
  · exact absurd heq (h.nonempty a ha)
  · exact List.inj_on_of_nodup_map h.bytes ha hb heq

/-- Objects of one table with the same number are one object. -/
theorem Sound.eq_of_id_eq (h : t.Sound) (ha : a = .empty ∨ a ∈ t.objects)
    (hb : b = .empty ∨ b ∈ t.objects) (heq : a.id = b.id) : a = b := by
  have hpos : ∀ c ∈ t.objects, c.id ≠ 0 := by
    intro c hc
    have hr := h.ids.subset (List.mem_map_of_mem hc)
    rw [List.mem_range'_1] at hr
    omega
  rcases ha with rfl | ha <;> rcases hb with rfl | hb
  · rfl
  · exact absurd heq.symm (hpos b hb)
  · exact absurd heq (hpos a ha)
  · have hn : (t.objects.map Str.id).Nodup := h.ids.nodup_iff.2 List.nodup_range'
    exact List.inj_on_of_nodup_map hn ha hb heq

/-! ## Operations -/

/-- Keeping the objects of a table and its numbering, with liveness left open. -/
structure Keeps (t t' : StringTable) : Prop where
  sound : t'.Sound
  objects : t'.objects.Perm t.objects

theorem Sound.mark (h : t.Sound) (str : Str) (l : Liveness) : Keeps t (t.mark str l) := by
  by_cases hs : (str == .empty) = true
  · rw [StringTable.mark, if_pos hs]
    exact ⟨h.of_strings rfl rfl rfl, .refl _⟩
  · rw [StringTable.mark, if_neg hs]
    have hb := strings_modify t.buckets (f := List.map fun e ↦
      if e.str == str then { e with liveness := l } else e) (fun chain ↦ ?_) (slot t.mask str.hash)
    · exact ⟨h.of_strings rfl rfl hb, .of_eq (objects_of_strings hb)⟩
    · rw [List.map_map]
      apply List.map_congr_left
      intro e _
      simp only [Function.comp]
      split <;> rfl

theorem Sound.condemnAll (h : t.Sound) : Keeps t t.condemnAll := by
  have hb : t.condemnAll.buckets.map (List.map Entry.str) = t.buckets.map (List.map Entry.str) := by
    simp [StringTable.condemnAll, Function.comp_def]
  exact ⟨h.of_strings rfl rfl hb, .of_eq (objects_of_strings hb)⟩

theorem Sound.resize (h : t.Sound) (mask : UInt32) : Keeps t (t.resize mask) := by
  by_cases hm : maxBuckets - 1 ≤ mask.toNat
  · rw [StringTable.resize, if_pos hm]
    exact ⟨h, .refl _⟩
  · rw [StringTable.resize, if_neg hm]
    obtain ⟨hr, hs, hp⟩ := rehash_spec mask t.buckets
    exact ⟨h.of_perm hs hr (hp.map _) rfl, hp.map _⟩

theorem Sound.grow (h : t.Sound) : Keeps t t.grow := by
  by_cases hm : t.mask.toNat < t.count
  · rw [StringTable.grow, if_pos hm]
    exact h.resize _
  · rw [StringTable.grow, if_neg hm]
    exact ⟨h, .refl _⟩

theorem Sound.insert (h : t.Sound) (hn : s ≠ []) (hs : ∀ str ∈ t.objects, str.bytes ≠ s) :
    (t.insert ⟨t.count + 1, hashBytes s, s⟩).Sound ∧
      (t.insert ⟨t.count + 1, hashBytes s, s⟩).objects.Perm
        (⟨t.count + 1, hashBytes s, s⟩ :: t.objects) := by
  have hlt : slot t.mask (hashBytes s) < t.buckets.size := by
    rw [h.size]
    exact Nat.lt_succ_of_le (slot_le _ _)
  have hp : (t.insert ⟨t.count + 1, hashBytes s, s⟩).objects.Perm
      (⟨t.count + 1, hashBytes s, s⟩ :: t.objects) :=
    (link_perm (e := ⟨⟨t.count + 1, hashBytes s, s⟩, .live⟩) hlt).map Entry.str
  refine ⟨⟨?_, h.routed.link, ?_, ?_, ?_, ?_⟩, hp⟩
  · exact size_link.trans h.size
  · intro str hstr
    rcases List.mem_cons.1 (hp.subset hstr) with rfl | hstr
    · rfl
    · exact h.hash str hstr
  · intro str hstr
    rcases List.mem_cons.1 (hp.subset hstr) with rfl | hstr
    · exact hn
    · exact h.nonempty str hstr
  · refine (hp.map Str.bytes).nodup_iff.2 (List.nodup_cons.2 ⟨?_, h.bytes⟩)
    rw [List.mem_map]
    rintro ⟨str, hstr, heq⟩
    exact hs str hstr heq
  · refine (hp.map Str.id).trans ?_
    have hi := (h.ids.cons (t.count + 1)).trans (List.perm_append_singleton _ _).symm
    rwa [Nat.add_comm, ← List.range'_1_concat, Nat.add_comm] at hi

/-- All that interning a text may come to, unless it is empty. -/
theorem intern_cases (t : StringTable) (hs : s ≠ []) :
    (∃ str, t.find? s (hashBytes s) = some ⟨str, .live⟩ ∧ t.intern s = (str, t)) ∨
    (∃ str, t.find? s (hashBytes s) = some ⟨str, .condemned⟩ ∧
      t.intern s = (str, t.mark str .live)) ∨
    (t.find? s (hashBytes s) = none ∧ t.intern s = (⟨t.count + 1, hashBytes s, s⟩,
      (t.insert ⟨t.count + 1, hashBytes s, s⟩).grow)) := by
  have he : s.isEmpty = false := by simpa using hs
  simp only [StringTable.intern, he, Bool.false_eq_true, if_false]
  cases t.find? s (hashBytes s) with
  | none => exact .inr (.inr ⟨rfl, rfl⟩)
  | some e =>
    obtain ⟨str, _ | _⟩ := e
    · exact .inl ⟨str, rfl, rfl⟩
    · exact .inr (.inl ⟨str, rfl, rfl⟩)

/-- What interning a byte string does to a table: it gives an object with these bytes, which stands
in the table from then on. -/
structure Interned (t : StringTable) (s : Bytes) (str : Str) (t' : StringTable) : Prop where
  sound : t'.Sound
  bytes : str.bytes = s
  held : str = .empty ∨ str ∈ t'.objects
  subset : t.objects ⊆ t'.objects
  only : ∀ other ∈ t'.objects, other ∈ t.objects ∨ other = str

theorem Sound.intern (h : t.Sound) (s : Bytes) : Interned t s (t.intern s).1 (t.intern s).2 := by
  by_cases hs : s = []
  · subst hs
    exact ⟨h, rfl, .inl rfl, fun _ ↦ id, fun _ ↦ .inl⟩
  · rcases t.intern_cases hs with ⟨str, hf, heq⟩ | ⟨str, hf, heq⟩ | ⟨hf, heq⟩
    · obtain ⟨hm, hb⟩ := of_find?_eq_some hf
      rw [heq]
      exact ⟨h, hb, .inr (List.mem_map_of_mem hm), fun _ ↦ id, fun _ ↦ .inl⟩
    · obtain ⟨hm, hb⟩ := of_find?_eq_some hf
      have hk := h.mark str .live
      rw [heq]
      exact ⟨hk.sound, hb, .inr (hk.objects.symm.subset (List.mem_map_of_mem hm)),
        hk.objects.symm.subset, fun _ ho ↦ .inl (hk.objects.subset ho)⟩
    · rw [heq]
      obtain ⟨hi, hp⟩ := h.insert hs (h.ne_of_find?_eq_none hf)
      have hk := hi.grow
      have hp' := hp.symm.trans hk.objects.symm
      exact ⟨hk.sound, rfl, .inr (hp'.subset (List.mem_cons_self ..)),
        fun _ hm ↦ hp'.subset (List.mem_cons_of_mem _ hm),
        fun _ ho ↦ (List.mem_cons.1 (hp'.symm.subset ho)).symm⟩

end StringTable

/-! ## Heaps -/

variable {h h' h'' : Heap} {s : Bytes} {a b : Str}

/-- A heap of sound strings. -/
def Sound (h : Heap) : Prop := h.strings.Sound

/-- An object is the empty string or stands in the table. -/
def Holds (h : Heap) (a : Str) : Prop := a = .empty ∨ a ∈ h.strings.objects

/-- The heaps that a host can come to. -/
inductive Reachable : Heap → Prop
  | ofMask (mask : UInt32) : Reachable (ofMask mask)
  | intern {h : Heap} (hr : Reachable h) (s : Bytes) : Reachable (h.intern s).2
  | beginCycle {h : Heap} (hr : Reachable h) : Reachable h.beginCycle

theorem Reachable.sound (hr : h.Reachable) : h.Sound := by
  induction hr with
  | ofMask mask => exact StringTable.sound_ofMask mask
  | intern _ s ih => exact (StringTable.Sound.intern ih s).sound
  | beginCycle _ ih => exact (StringTable.Sound.condemnAll ih).sound

/-- Objects of one heap with the same bytes are one object. -/
theorem Sound.eq_of_bytes_eq (hs : h.Sound) (ha : h.Holds a) (hb : h.Holds b)
    (heq : a.bytes = b.bytes) : a = b := StringTable.Sound.eq_of_bytes_eq hs ha hb heq

/-- Objects of one heap with the same number are one object. -/
theorem Sound.eq_of_id_eq (hs : h.Sound) (ha : h.Holds a) (hb : h.Holds b)
    (heq : a.id = b.id) : a = b := StringTable.Sound.eq_of_id_eq hs ha hb heq

/-- `h'` is sound and holds all that `h` holds. -/
structure Extends (h h' : Heap) : Prop where
  sound : h'.Sound
  holds : ∀ a, h.Holds a → h'.Holds a

theorem Extends.refl (hs : h.Sound) : h.Extends h := ⟨hs, fun _ ↦ id⟩

theorem Extends.trans (he : h.Extends h') (he' : h'.Extends h'') : h.Extends h'' :=
  ⟨he'.sound, fun a ha ↦ he'.holds a (he.holds a ha)⟩

/-- Interning gives an object with the bytes that were asked for, which is held from then on. -/
theorem Sound.intern (hs : h.Sound) (s : Bytes) :
    (h.intern s).1.bytes = s ∧ (h.intern s).2.Holds (h.intern s).1 ∧ h.Extends (h.intern s).2 := by
  have hi := StringTable.Sound.intern hs s
  exact ⟨hi.bytes, hi.held, hi.sound, fun a ha ↦ ha.imp id fun hm ↦ hi.subset hm⟩

end JitDump.Heap
