import Mathlib.Data.List.Dedup
import JitDump.Proofs.Interning

/-!
# A table of strings as a map from bytes to objects

A host calls the operations of a table in any order and keeps the objects that
it is given. Whatever it called, the table answers for the texts that were
interned so far and for nothing else, and the objects it handed out at any two
moments are one exactly if their bytes are equal. One call after another
preserves `Accounts`, which says so of the objects that stand in the table.
-/

namespace JitDump.Heap.StringTable

variable {t : StringTable} {s : Bytes} {a b : Str}

/-! ## Runs of calls -/

/-- An operation that a host may call on a table. -/
inductive Call
  | intern (s : Bytes)
  | lookup (s : Bytes)
  | contains (s : Bytes)
  | condemnAll
  | iterate

namespace Call

/-- The table after a call. -/
def apply : Call → StringTable → StringTable
  | .intern s, t => (t.intern s).2
  | .condemnAll, t => t.condemnAll
  | .lookup _, t | .contains _, t | .iterate, t => t

/-- The objects that a call gives its caller. -/
def gives : Call → StringTable → List Str
  | .intern s, t => [(t.intern s).1]
  | .lookup s, t => (t.lookup? s).toList
  | .iterate, t => t.iter.visited
  | .contains _, _ | .condemnAll, _ => []

/-- The text that a call interns, if it interns one. -/
def texts : Call → List Bytes
  | .intern s => [s]
  | .lookup _ | .contains _ | .condemnAll | .iterate => []

end Call

/-- The table after some calls, one after another. -/
def after : List Call → StringTable → StringTable
  | [], t => t
  | call :: calls, t => after calls (call.apply t)

/-- All the objects that some calls gave their caller, from the first call to the last. -/
def handed : List Call → StringTable → List Str
  | [], _ => []
  | call :: calls, t => call.gives t ++ handed calls (call.apply t)

/-- The texts that some calls interned. -/
def interned (calls : List Call) : List Bytes := calls.flatMap Call.texts

/-! ## One table -/

theorem Visit.visited_eq (v : Visit) : v.visited = v.ahead.map (·.str) := by
  induction v using Visit.visited.induct with
  | case1 v hn =>
    have heq := advance_eq v.node v.buckets
    rw [← Visit.next?, hn, Option.map_none] at heq
    rw [Visit.visited, hn]
    split at heq
    · rename_i hnil
      rw [show v.ahead = [] from hnil]
      rfl
    · cases heq
  | case2 v s v' hn ih =>
    rw [Visit.visited, hn, ahead_of_next? hn]
    exact congrArg (s :: ·) ih

theorem visited_iter (t : StringTable) : t.iter.visited = t.objects := by
  rw [Visit.visited_eq]
  rfl

theorem Sound.length_objects (h : t.Sound) : t.objects.length = t.count := by
  simpa using h.ids.length_eq

theorem Sound.hash_eq (h : t.Sound) (ha : a = .empty ∨ a ∈ t.objects) :
    a.hash = hashBytes a.bytes := by
  rcases ha with rfl | ha
  · rfl
  · exact h.hash a ha

theorem Sound.lookup?_eq_some_iff (h : t.Sound) :
    t.lookup? s = some a ↔ (a = .empty ∨ a ∈ t.objects) ∧ a.bytes = s := by
  by_cases hs : s = []
  · subst hs
    constructor
    · intro hl
      cases hl
      exact ⟨.inl rfl, rfl⟩
    · rintro ⟨rfl | ha, hb⟩
      · rfl
      · exact absurd hb (h.nonempty a ha)
  · have hne : s.isEmpty = false := by simpa using hs
    rw [lookup?, hne, if_neg Bool.false_ne_true, Option.map_eq_some_iff]
    constructor
    · rintro ⟨e, hf, rfl⟩
      obtain ⟨he, hb⟩ := of_find?_eq_some hf
      exact ⟨.inr (List.mem_map_of_mem he), hb⟩
    · rintro ⟨rfl | ha, hb⟩
      · exact absurd hb.symm hs
      · cases hf : t.find? s (hashBytes s) with
        | none => exact absurd hb (h.ne_of_find?_eq_none hf a ha)
        | some e =>
          obtain ⟨he, hb'⟩ := of_find?_eq_some hf
          exact ⟨e, rfl, List.inj_on_of_nodup_map h.bytes (List.mem_map_of_mem he) ha
            (hb'.trans hb.symm)⟩

theorem contains_eq (t : StringTable) (s : Bytes) : t.contains s = (t.lookup? s).isSome := by
  by_cases hs : s.isEmpty = true
  · simp [contains, lookup?, hs]
  · simp [contains, lookup?, hs]

/-! ## What a run preserves -/

/-- The objects of a sound table are those of the texts that were interned, and all that was handed
out is still there. -/
structure Accounts (t : StringTable) (texts : List Bytes) (given : List Str) : Prop where
  sound : t.Sound
  texts : ∀ s, s ∈ t.objects.map Str.bytes ↔ s ≠ [] ∧ s ∈ texts
  given : ∀ a ∈ given, a = .empty ∨ a ∈ t.objects

variable {texts : List Bytes} {given : List Str}

theorem accounts_ofMask (mask : UInt32) : Accounts (ofMask mask) [] [] where
  sound := sound_ofMask mask
  texts s := by simp [objects, entries, ofMask]
  given := by simp

theorem Accounts.intern (h : Accounts t texts given) (s : Bytes) :
    Accounts (t.intern s).2 (texts ++ [s]) (given ++ [(t.intern s).1]) := by
  have hi := h.sound.intern s
  refine ⟨hi.sound, fun text ↦ ?_, fun a ha ↦ ?_⟩
  · rw [List.mem_append, List.mem_singleton]
    constructor
    · intro hm
      obtain ⟨str, hstr, rfl⟩ := List.mem_map.1 hm
      refine ⟨hi.sound.nonempty str hstr, ?_⟩
      rcases hi.only str hstr with ho | rfl
      · exact .inl ((h.texts _).1 (List.mem_map_of_mem ho)).2
      · exact .inr hi.bytes
    · rintro ⟨hne, ht | rfl⟩
      · obtain ⟨str, hstr, heq⟩ := List.mem_map.1 ((h.texts text).2 ⟨hne, ht⟩)
        exact heq ▸ List.mem_map_of_mem (hi.subset hstr)
      · rcases hi.held with he | hm
        · exact absurd (hi.bytes.symm.trans (congrArg Str.bytes he)) hne
        · have hb := List.mem_map_of_mem (f := Str.bytes) hm
          rwa [hi.bytes] at hb
  · rcases List.mem_append.1 ha with ha | ha
    · exact (h.given a ha).imp id fun hm ↦ hi.subset hm
    · rw [List.mem_singleton.1 ha]
      exact hi.held

theorem Accounts.condemnAll (h : Accounts t texts given) :
    Accounts t.condemnAll texts given := by
  have hk := h.sound.condemnAll
  refine ⟨hk.sound, fun s ↦ ?_, fun a ha ↦ (h.given a ha).imp id hk.objects.mem_iff.2⟩
  rw [(hk.objects.map Str.bytes).mem_iff]
  exact h.texts s

theorem Accounts.give (h : Accounts t texts given) {more : List Str}
    (hm : ∀ a ∈ more, a = .empty ∨ a ∈ t.objects) : Accounts t texts (given ++ more) :=
  ⟨h.sound, h.texts, fun a ha ↦ (List.mem_append.1 ha).elim (h.given a) (hm a)⟩

/-- Whatever a call is, it keeps the accounts. -/
theorem Accounts.apply (h : Accounts t texts given) (call : Call) :
    Accounts (call.apply t) (texts ++ call.texts) (given ++ call.gives t) := by
  cases call with
  | intern s => exact h.intern s
  | lookup s =>
    rw [Call.texts, List.append_nil]
    refine h.give fun a ha ↦ ?_
    exact (h.sound.lookup?_eq_some_iff.1 (Option.mem_toList.1 ha)).1
  | contains s => simpa [Call.apply, Call.texts, Call.gives] using h
  | condemnAll => simpa [Call.apply, Call.texts, Call.gives] using h.condemnAll
  | iterate =>
    rw [Call.texts, List.append_nil]
    refine h.give fun a ha ↦ .inr ?_
    rwa [Call.gives, visited_iter] at ha

theorem Accounts.after (h : Accounts t texts given) (calls : List Call) :
    Accounts (after calls t) (texts ++ interned calls) (given ++ handed calls t) := by
  induction calls generalizing t texts given with
  | nil => simpa [StringTable.after, interned, handed] using h
  | cons call calls ih =>
    rw [interned, List.flatMap_cons, handed, ← List.append_assoc, ← List.append_assoc]
    exact ih (h.apply call)

/-! ## What a host may rely on -/

/-- What a table answers once some texts were interned in it and some objects handed out. -/
structure Faithful (t : StringTable) (texts : List Bytes) (given : List Str) : Prop where
  intern : ∀ s, (t.intern s).1.bytes = s ∧ (t.intern s).1.hash = hashBytes s
  same : ∀ a ∈ given, ∀ b ∈ given, (a == b) = true ↔ a.bytes = b.bytes
  lookup : ∀ s, (t.lookup? s).isSome = true ↔ s = [] ∨ s ∈ texts
  lookup_same : ∀ s a, t.lookup? s = some a → a.bytes = s ∧ ∀ b ∈ given, b.bytes = s → b = a
  contains : ∀ s, t.contains s = (t.lookup? s).isSome
  count : t.count = (texts.filter (· ≠ [])).dedup.length
  /-- A visit comes to one object for each text but the empty one. -/
  visited : (t.iter.visited.map Str.bytes).Perm (texts.filter (· ≠ [])).dedup
  visited_once : t.iter.visited.Nodup
  /-- The objects of a visit are those that were handed out. -/
  given : ∀ a ∈ given, a.bytes ≠ [] → a ∈ t.iter.visited

theorem Accounts.texts_perm (h : Accounts t texts given) :
    (t.objects.map Str.bytes).Perm (texts.filter (· ≠ [])).dedup := by
  refine (List.perm_ext_iff_of_nodup h.sound.bytes (List.nodup_dedup _)).2 fun s ↦ ?_
  rw [h.texts s, List.mem_dedup, List.mem_filter, decide_eq_true_iff, and_comm]

theorem Accounts.faithful (h : Accounts t texts given) : Faithful t texts given where
  intern s := by
    have hi := h.sound.intern s
    refine ⟨hi.bytes, ?_⟩
    rw [hi.sound.hash_eq hi.held, hi.bytes]
  same a ha b hb := by
    constructor
    · intro heq
      have hid : a.id = b.id := by rwa [Str.beq_eq, beq_iff_eq] at heq
      rw [h.sound.eq_of_id_eq (h.given a ha) (h.given b hb) hid]
    · intro heq
      rw [h.sound.eq_of_bytes_eq (h.given a ha) (h.given b hb) heq, Str.beq_eq, beq_self_eq_true]
  lookup s := by
    rw [Option.isSome_iff_exists]
    constructor
    · rintro ⟨a, ha⟩
      obtain ⟨rfl | hm, rfl⟩ := h.sound.lookup?_eq_some_iff.1 ha
      · exact .inl rfl
      · exact .inr ((h.texts _).1 (List.mem_map_of_mem hm)).2
    · intro hs
      by_cases hne : s = []
      · exact ⟨.empty, h.sound.lookup?_eq_some_iff.2 ⟨.inl rfl, hne.symm⟩⟩
      · obtain ⟨a, ha, heq⟩ := List.mem_map.1 ((h.texts s).2 ⟨hne, hs.resolve_left hne⟩)
        exact ⟨a, h.sound.lookup?_eq_some_iff.2 ⟨.inr ha, heq⟩⟩
  lookup_same s a ha := by
    obtain ⟨hm, hb⟩ := h.sound.lookup?_eq_some_iff.1 ha
    exact ⟨hb, fun b hgiven heq ↦ h.sound.eq_of_bytes_eq (h.given b hgiven) hm (heq.trans hb.symm)⟩
  contains := contains_eq t
  count := by
    rw [← h.texts_perm.length_eq, List.length_map, h.sound.length_objects]
  visited := by
    rw [visited_iter]
    exact h.texts_perm
  visited_once := by
    rw [visited_iter]
    exact .of_map _ h.sound.bytes
  given a ha hne := by
    rw [visited_iter]
    refine (h.given a ha).resolve_left ?_
    rintro rfl
    exact hne rfl

/-- A table is a faithful map from bytes to objects after any calls, whatever its first size: by
`Accounts.after`, along the calls. -/
theorem faithful_after (mask : UInt32) (calls : List Call) :
    Faithful (after calls (ofMask mask)) (interned calls) (handed calls (ofMask mask)) :=
  ((accounts_ofMask mask).after calls).faithful

end JitDump.Heap.StringTable
