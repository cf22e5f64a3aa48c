import JitDump.Proofs.Handles
import JitDump.Proofs.Liveness

/-!
# Liveness reflects what was used since the last cycle

A host interns texts, looks them up and begins cycles in any order. The flag of
an object is then a matter of two kinds of calls: it is condemned exactly if a
cycle began after its text was interned last, whatever was interned, looked up
or rehashed in between. `Lapsed` says this of a list of calls, and what one more
call does to it is `lapsed_concat`. `Flagged` ties it to the entries of a table
and is kept by every call; the rest is what no call does, which is to change a
flag of another text, to touch the empty string, or to remove an object.
-/

namespace JitDump.Heap

namespace StringTable

variable {t t' : StringTable} {s : Bytes} {a : Str} {e : Entry} {l : Liveness} {call : Call}
  {calls : List Call} {given objs : List Str}

/-! ## Histories -/

/-- A cycle began after a text was interned last. -/
def Lapsed (calls : List Call) (s : Bytes) : Prop :=
  ∃ before later, calls = before ++ .condemnAll :: later ∧
    .intern s ∈ before ∧ .intern s ∉ later

/-- What one more call does to a text: a cycle lapses it, and nothing but interning revives it. -/
theorem lapsed_concat : Lapsed (calls ++ [call]) s ↔
    (call = .condemnAll ∧ .intern s ∈ calls) ∨ (call ≠ .intern s ∧ Lapsed calls s) := by
  constructor
  · rintro ⟨before, later, heq, hb, hl⟩
    -- the cycle is the last call, or it is one of the earlier ones
    rcases List.eq_nil_or_concat later with rfl | ⟨between, last, rfl⟩
    · obtain ⟨rfl, hcall⟩ := List.append_inj' heq rfl
      exact .inl ⟨List.singleton_inj.1 hcall, hb⟩
    · rw [List.concat_eq_append] at heq hl
      rw [← List.cons_append, ← List.append_assoc] at heq
      obtain ⟨rfl, hcall⟩ := List.append_inj' heq rfl
      cases List.singleton_inj.1 hcall
      rw [List.mem_append, List.mem_singleton, not_or] at hl
      exact .inr ⟨Ne.symm hl.2, before, between, rfl, hb, hl.1⟩
  · rintro (⟨rfl, hb⟩ | ⟨hne, before, later, rfl, hb, hl⟩)
    · exact ⟨calls, [], rfl, hb, List.not_mem_nil⟩
    · refine ⟨before, later ++ [call], by simp, hb, ?_⟩
      rw [List.mem_append, List.mem_singleton, not_or]
      exact ⟨hl, hne.symm⟩

theorem mem_interned_iff : s ∈ interned calls ↔ .intern s ∈ calls := by
  rw [interned, List.mem_flatMap]
  constructor
  · rintro ⟨call, hc, hs⟩
    cases call with
    | intern text =>
      rw [Call.texts, List.mem_singleton] at hs
      rwa [hs]
    | lookup | contains | condemnAll | iterate => cases hs
  · exact fun hc ↦ ⟨_, hc, List.mem_singleton_self s⟩

/-! ## What a call leaves as it is -/

theorem Sound.apply (h : t.Sound) (call : Call) : (call.apply t).Sound := by
  cases call with
  | intern s => exact (h.intern s).sound
  | condemnAll => exact h.condemnAll.sound
  | lookup | contains | iterate => exact h

theorem Sound.empty_apply (h : t.Sound) (call : Call) : (call.apply t).empty = t.empty := by
  cases call with
  | intern s => exact h.empty_intern s
  | condemnAll | lookup | contains | iterate => rfl

/-- No call removes an object. -/
theorem Sound.objects_subset_apply (h : t.Sound) (call : Call) :
    t.objects ⊆ (call.apply t).objects := by
  cases call with
  | intern s => exact (h.intern s).subset
  | condemnAll => exact h.condemnAll.objects.symm.subset
  | lookup | contains | iterate => exact List.Subset.refl _

theorem Sound.objects_subset_after (h : t.Sound) (calls : List Call) :
    t.objects ⊆ (StringTable.after calls t).objects := by
  induction calls generalizing t with
  | nil => exact List.Subset.refl _
  | cons call calls ih =>
    exact List.Subset.trans (h.objects_subset_apply call) (ih (h.apply call))

/-- Between two cycles only interning its text changes an entry. -/
theorem Sound.mem_entries_apply (h : t.Sound) (hc : call ≠ .condemnAll)
    (hs : call ≠ .intern e.str.bytes) (he : e ∈ t.entries) : e ∈ (call.apply t).entries := by
  cases call with
  | intern s =>
    by_cases hn : s = []
    · subst hn
      exact he
    · refine (h.mem_entries_intern_iff hn).2 (.inr ⟨he, fun heq ↦ hs ?_⟩)
      rw [heq]
  | condemnAll => exact absurd rfl hc
  | lookup | contains | iterate => exact he

/-! ## Flags -/

theorem liveness_empty (t : StringTable) : t.liveness .empty = t.empty := rfl

/-- Entries that are held in two tables have one flag in both. -/
theorem Sound.liveness_eq (h : t.Sound) (h' : t'.Sound) (hempty : t'.empty = t.empty)
    (hsub : ∀ e ∈ t.entries, e.str = a → e ∈ t'.entries) (ha : a = .empty ∨ a ∈ t.objects) :
    t'.liveness a = t.liveness a := by
  rcases ha with rfl | ha
  · rw [liveness_empty, liveness_empty, hempty]
  · obtain ⟨e, he, rfl⟩ := List.mem_map.1 ha
    rw [h.liveness_str he, h'.liveness_str (hsub e he rfl)]

theorem Sound.liveness_apply (h : t.Sound) (hc : call ≠ .condemnAll)
    (hs : call ≠ .intern a.bytes) (ha : a = .empty ∨ a ∈ t.objects) :
    (call.apply t).liveness a = t.liveness a := by
  refine h.liveness_eq (h.apply call) (h.empty_apply call) (fun e he heq ↦ ?_) ha
  exact h.mem_entries_apply hc (heq ▸ hs) he

/-- As long as no cycle begins and a text is not interned, its object keeps its flag. -/
theorem Sound.liveness_after (h : t.Sound) (hc : .condemnAll ∉ calls)
    (hs : .intern a.bytes ∉ calls) (ha : a = .empty ∨ a ∈ t.objects) :
    (StringTable.after calls t).liveness a = t.liveness a := by
  induction calls generalizing t with
  | nil => rfl
  | cons call calls ih =>
    rw [List.mem_cons, not_or] at hc hs
    have hone := h.liveness_apply (Ne.symm hc.1) (Ne.symm hs.1) ha
    refine (ih (h.apply call) hc.2 hs.2 ?_).trans hone
    exact ha.imp_right fun hm ↦ h.objects_subset_apply call hm

/-- Growth to any size changes no flag. -/
theorem Sound.liveness_resize (h : t.Sound) (mask : UInt32) (ha : a = .empty ∨ a ∈ t.objects) :
    (t.resize mask).liveness a = t.liveness a := by
  refine h.liveness_eq (h.resize mask).sound ?_ (fun e he _ ↦ (entries_resize t mask).mem_iff.2 he)
    ha
  rw [StringTable.resize]
  split <;> rfl

theorem Sound.liveness_grow (h : t.Sound) (ha : a = .empty ∨ a ∈ t.objects) :
    t.grow.liveness a = t.liveness a := by
  rw [StringTable.grow]
  split
  · exact h.liveness_resize _ ha
  · rfl

/-! ## Cycles -/

theorem entries_condemnAll (t : StringTable) :
    t.condemnAll.entries = t.entries.map ({ · with liveness := .condemned }) := by
  rw [entries, entries, List.map_flatten, condemnAll, Array.toList_map]

/-- Marking some objects one after another changes their entries and no others. -/
theorem Sound.entries_foldl_mark (h : t.Sound) (hobjs : ∀ str ∈ objs, str ∈ t.objects) :
    (objs.foldl (fun t str ↦ t.mark str l) t).entries =
      t.entries.map fun e ↦ if objs.any (e.str == ·) then { e with liveness := l } else e := by
  induction objs generalizing t with
  | nil => simp
  | cons str objs ih =>
    have hstr := hobjs str (List.mem_cons_self ..)
    have hk := h.mark str l
    rw [List.foldl_cons, ih hk.sound fun o ho ↦
      hk.objects.mem_iff.2 (hobjs o (List.mem_cons_of_mem _ ho)), h.entries_mark hstr, List.map_map]
    refine List.map_congr_left fun e _ ↦ ?_
    rw [Function.comp_apply, List.any_cons]
    by_cases heq : (e.str == str) = true
    · rw [if_pos heq, heq, Bool.true_or, if_pos rfl]
      exact ite_self _
    · rw [if_neg heq, Bool.eq_false_iff.2 heq, Bool.false_or]

/-- A cycle condemns the objects that a visit comes to, which are all of them. -/
theorem Sound.entries_condemnAll_eq_visited (h : t.Sound) :
    t.condemnAll.entries =
      (t.iter.visited.foldl (fun t str ↦ t.mark str .condemned) t).entries := by
  rw [visited_iter, h.entries_foldl_mark fun _ ↦ id, entries_condemnAll]
  refine List.map_congr_left fun e he ↦ (if_pos ?_).symm
  exact List.any_eq_true.2 ⟨e.str, List.mem_map_of_mem he, beq_self_eq_true e.str.id⟩

/-! ## What a run preserves -/

/-- The flags of a table after some calls. -/
structure Flagged (t : StringTable) (calls : List Call) (given : List Str) : Prop
    extends Accounts t (interned calls) given where
  empty : t.empty = .live
  flag : ∀ e ∈ t.entries, e.liveness = .condemned ↔ Lapsed calls e.str.bytes

theorem flagged_ofMask (mask : UInt32) : Flagged (ofMask mask) [] [] where
  toAccounts := accounts_ofMask mask
  empty := rfl
  flag e he := by simp [entries, ofMask] at he

/-- The entries of a table after one more call carry the flags of the longer history. -/
theorem Flagged.flag_apply (h : Flagged t calls given) (call : Call) :
    ∀ e ∈ (call.apply t).entries,
      e.liveness = .condemned ↔ Lapsed (calls ++ [call]) e.str.bytes := by
  -- neither a cycle nor its own text: the flag and the history are the old ones
  have hold : ∀ e ∈ t.entries, call ≠ .condemnAll → call ≠ .intern e.str.bytes →
      (e.liveness = .condemned ↔ Lapsed (calls ++ [call]) e.str.bytes) := by
    intro e he hc hs
    rw [lapsed_concat, h.flag e he]
    simp [hc, hs]
  intro e he
  cases call with
  | intern s =>
    by_cases hn : s = []
    · subst hn
      refine hold e he Call.noConfusion fun heq ↦ ?_
      exact h.sound.nonempty e.str (List.mem_map_of_mem he) (Call.intern.inj heq).symm
    · rcases (h.sound.mem_entries_intern_iff hn).1 he with rfl | ⟨he, hb⟩
      · rw [lapsed_concat, (h.sound.intern s).bytes]
        simp
      · exact hold e he Call.noConfusion fun heq ↦ hb (Call.intern.inj heq).symm
  | condemnAll =>
    rw [Call.apply, entries_condemnAll, List.mem_map] at he
    obtain ⟨e, he, rfl⟩ := he
    have htext := (h.texts e.str.bytes).1 (List.mem_map_of_mem (List.mem_map_of_mem he))
    rw [lapsed_concat]
    exact iff_of_true rfl (.inl ⟨rfl, mem_interned_iff.1 htext.2⟩)
  | lookup | contains | iterate => exact hold e he Call.noConfusion Call.noConfusion

theorem Flagged.apply (h : Flagged t calls given) (call : Call) :
    Flagged (call.apply t) (calls ++ [call]) (given ++ call.gives t) where
  toAccounts := by
    rw [interned, List.flatMap_append, List.flatMap_singleton]
    exact h.toAccounts.apply call
  empty := (h.sound.empty_apply call).trans h.empty
  flag := h.flag_apply call

theorem Flagged.after (h : Flagged t calls given) (more : List Call) :
    Flagged (StringTable.after more t) (calls ++ more) (given ++ handed more t) := by
  induction more generalizing t calls given with
  | nil => simpa [StringTable.after, handed] using h
  | cons call more ih =>
    rw [handed, ← List.append_assoc, ← List.singleton_append, ← List.append_assoc]
    exact ih (h.apply call)

theorem Flagged.liveness_iff (h : Flagged t calls given) (ha : a ∈ t.objects) :
    t.liveness a = .condemned ↔ Lapsed calls a.bytes := by
  obtain ⟨e, he, rfl⟩ := List.mem_map.1 ha
  rw [h.sound.liveness_str he, h.flag e he]

/-- The object that interning gives is live. -/
theorem Flagged.liveness_intern (h : Flagged t calls given) (s : Bytes) :
    (t.intern s).2.liveness (t.intern s).1 = .live := by
  by_cases hn : s = []
  · subst hn
    exact h.empty
  · exact (h.sound.intern s).sound.liveness_str (h.sound.live_mem_intern hn)

end StringTable

/-! ## Heaps -/

open StringTable (Call Lapsed handed)

variable {h : Heap} {calls : List Call} {given : List Str}

/-- The heap after a call of its host. -/
def call : Call → Heap → Heap
  | .intern s, h => (h.intern s).2
  | .condemnAll, h => h.beginCycle
  | .lookup _, h | .contains _, h | .iterate, h => h

/-- The heap after some calls, one after another. -/
def after : List Call → Heap → Heap
  | [], h => h
  | call :: calls, h => after calls (h.call call)

theorem strings_call (call : Call) (h : Heap) :
    (h.call call).strings = call.apply h.strings := by
  cases call <;> rfl

theorem strings_after (calls : List Call) (h : Heap) :
    (h.after calls).strings = StringTable.after calls h.strings := by
  induction calls generalizing h with
  | nil => rfl
  | cons call calls ih => rw [after, ih, strings_call, StringTable.after]

/-- What the flags of a heap say once its host made some calls and was given some objects, and what
its next calls do to them. -/
structure Reflects (h : Heap) (calls : List Call) (given : List Str) : Prop where
  /-- A text that was interned has an object, condemned if a cycle began since it was interned. -/
  texts : ∀ s, s ≠ [] → .intern s ∈ calls → ∃ a, h.strings.lookup? s = some a ∧
    (h.strings.liveness a = .condemned ↔ Lapsed calls s)
  given : ∀ a ∈ given, a.bytes ≠ [] → h.Holds a ∧
    (h.strings.liveness a = .condemned ↔ Lapsed calls a.bytes)
  /-- No table has an entry that was not interned. -/
  entries : ∀ e ∈ h.strings.entries, .intern e.str.bytes ∈ calls ∧
    (e.liveness = .condemned ↔ Lapsed calls e.str.bytes)
  empty : h.strings.liveness .empty = .live
  intern : ∀ s, (h.intern s).2.strings.liveness (h.intern s).1 = .live
  /-- Without a cycle, only interning its own text changes the flag of an object. -/
  frame : ∀ later a, h.Holds a → .condemnAll ∉ later → .intern a.bytes ∉ later →
    (h.after later).strings.liveness a = h.strings.liveness a
  resize : ∀ mask a, h.Holds a → (h.strings.resize mask).liveness a = h.strings.liveness a
  /-- Growth as it comes about, when a new text stands in the table. -/
  grow : ∀ s, s ≠ [] → h.strings.lookup? s = none →
    let t := h.strings.insert ⟨h.strings.count + 1, hashBytes s, s⟩
    ∀ a, a = .empty ∨ a ∈ t.objects → t.grow.liveness a = t.liveness a
  cycle : ∀ e ∈ h.beginCycle.strings.entries, e.liveness = .condemned
  /-- A cycle condemns what a visit of the table comes to. -/
  visit : h.beginCycle.strings.entries =
    (h.strings.iter.visited.foldl (fun t str ↦ t.mark str .condemned) h.strings).entries
  holds : ∀ later a, h.Holds a → (h.after later).Holds a

theorem reflects_of_flagged (hf : StringTable.Flagged h.strings calls given) :
    h.Reflects calls given where
  texts s hs hc := by
    obtain ⟨a, ha, rfl⟩ := List.mem_map.1 ((hf.texts s).2 ⟨hs, StringTable.mem_interned_iff.2 hc⟩)
    exact ⟨a, hf.sound.lookup?_eq_some_iff.2 ⟨.inr ha, rfl⟩, hf.liveness_iff ha⟩
  given a ha hne := by
    have hheld := hf.given a ha
    refine ⟨hheld, hf.liveness_iff (hheld.resolve_left ?_)⟩
    rintro rfl
    exact hne rfl
  entries e he := by
    have htext := (hf.texts e.str.bytes).1 (List.mem_map_of_mem (List.mem_map_of_mem he))
    exact ⟨StringTable.mem_interned_iff.1 htext.2, hf.flag e he⟩
  empty := hf.empty
  intern := hf.liveness_intern
  frame later a ha hc hs := by
    rw [strings_after]
    exact hf.sound.liveness_after hc hs ha
  resize mask _ := hf.sound.liveness_resize mask
  grow s hs hn _ := by
    refine (hf.sound.insert hs fun str hstr heq ↦ ?_).1.liveness_grow
    rw [hf.sound.lookup?_eq_some_iff.2 ⟨.inr hstr, heq⟩] at hn
    cases hn
  cycle e he := by
    rw [beginCycle, StringTable.entries_condemnAll, List.mem_map] at he
    obtain ⟨-, -, rfl⟩ := he
    rfl
  visit := hf.sound.entries_condemnAll_eq_visited
  holds later a ha := by
    refine ha.imp_right fun hm ↦ ?_
    rw [strings_after]
    exact hf.sound.objects_subset_after later hm

/-- Whatever a host calls, and whatever the first size of its table, the flags of its heap are those
of the calls: by `Flagged.after`, along the calls. -/
theorem liveness_reflects_calls (mask : UInt32) (calls : List Call) :
    ((ofMask mask).after calls).Reflects calls (handed calls (.ofMask mask)) := by
  refine reflects_of_flagged ?_
  rw [strings_after]
  exact (StringTable.flagged_ofMask mask).after calls

/-- Of two strings, in a table that grows with each of them, the one that is interned again outlives
a cycle. -/
example : let h := (ofMask 0).after [.intern [107], .intern [100], .condemnAll, .intern [107]]
    h.strings.mask = 3 ∧ h.strings.entries.map (fun e ↦ (e.str.bytes, e.liveness)) =
      [([107], .live), ([100], .condemned)] := by
  decide +kernel

end JitDump.Heap
