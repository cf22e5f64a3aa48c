import JitDump.Proofs.Liveness
import JitDump.Proofs.Service
import JitDump.Proofs.Templates
import JitDump.Prototype.Strings

/-!
# The strings of decoded trees

Every string of a tree is interned while the tree is read, and interning brings
to life.  Later interning lets none die, so all strings of an accepted tree are
live when the decode ends.  A decode that fails has done no more to the heap than
to intern.  Over the whole service of a heap the strings of all trees stay held,
and there objects and bytes are the same thing.
-/

namespace JitDump

variable {α β : Type}

namespace Heap

variable {g h : Heap} {as : List Str}

/-- Objects that are all live. -/
def Houses (h : Heap) (as : List Str) : Prop := ∀ a ∈ as, h.Live a

theorem Houses.mono (ha : g.Houses as) (hg : g.Grows h) : h.Houses as :=
  fun a hm ↦ hg.live a (ha a hm)

theorem houses_nil : h.Houses [] := by
  rintro _ ⟨⟩

theorem houses_singleton {a : Str} (ha : h.Live a) : h.Houses [a] := by
  simpa [Houses] using ha

end Heap

open Container

/-- A session whose heap is in order, and on whose stack all strings are live. -/
structure Container.Session.Settled (s : Session) : Prop where
  sound : s.heap.Sound
  empty : s.heap.Live .empty
  stack : ∀ top ∈ s.stack, s.heap.Houses top.1.allStrings

/-! ## What an operation leaves -/

/-- From a settled session the operation comes to a settled one in a heap that has grown, with a
value as `P` says of that heap. -/
def Decoding.Leaves (P : Heap → α → Prop) (x : Decoding α) (s : Session) : Prop :=
  s.Settled → ∀ a t, x s = .ok a t → s.heap.Grows t.heap ∧ t.Settled ∧ P t.heap a

namespace Decoding

variable {P P' : Heap → α → Prop} {Q : Heap → β → Prop} {x : Decoding α} {f : α → Decoding β}
variable {s : Session} {a : α}

theorem leaves_pure (h : P s.heap a) : Leaves P (pure a) s := by
  rintro hs _ _ ⟨⟩
  exact ⟨.refl hs.sound, hs, h⟩

theorem Leaves.bind (hx : Leaves P x s)
    (hf : ∀ a t, s.heap.Grows t.heap → P t.heap a → Leaves Q (f a) t) : Leaves Q (x >>= f) s := by
  intro hs b r h
  obtain ⟨a, t, ha, h⟩ := Fallible.bind_eq_ok.1 h
  obtain ⟨hg, ht, hP⟩ := hx hs a t ha
  obtain ⟨hg', hr, hQ⟩ := hf a t hg hP ht b r h
  exact ⟨hg.trans hg', hr, hQ⟩

theorem leaves_read {r : Reading α} (hf : ∀ a cursor, Leaves Q (f a) { s with cursor }) :
    Leaves Q (ofReading r >>= f) s := by
  intro hs b t h
  obtain ⟨a, _, ha, h⟩ := Fallible.bind_eq_ok.1 h
  obtain ⟨c, -, rfl⟩ := ofReading_eq_ok_iff.1 ha
  exact hf a c ⟨hs.sound, hs.empty, hs.stack⟩ b t h

theorem leaves_failAt (i : Nat) (fault : Fault) : Leaves P (Fallible.failAt i fault) s := by
  rintro - _ _ ⟨⟩

theorem leaves_fail (fault : Fault) : Leaves P (ofReading (Reading.fail fault)) s := by
  rintro - _ _ ⟨⟩

theorem leaves_get {f : Session → Decoding β} (hf : s.Settled → Leaves Q (f s) s) :
    Leaves Q (MonadState.get >>= f) s := fun hs ↦ hf hs hs

theorem leaves_intern (text : Bytes) : Leaves Heap.Live (intern text) s := by
  rintro hs _ _ ⟨⟩
  have hg := hs.sound.grows_intern text
  exact ⟨hg, ⟨hg.sound, hg.live _ hs.empty, fun top ht ↦ (hs.stack top ht).mono hg⟩,
    hs.sound.live_intern hs.empty text⟩

theorem leaves_note {e : Event} {f : Unit → Decoding β}
    (hf : Leaves Q (f ()) { s with events := e :: s.events }) : Leaves Q (note e >>= f) s :=
  fun hs ↦ hf ⟨hs.sound, hs.empty, hs.stack⟩

theorem leaves_push {p : Prototype} {d : Nat} {f : Unit → Decoding β}
    (hp : s.heap.Houses p.allStrings) (hf : Leaves Q (f ()) { s with stack := (p, d) :: s.stack }) :
    Leaves Q (push p d >>= f) s := by
  intro hs
  refine hf ⟨hs.sound, hs.empty, fun top ht ↦ ?_⟩
  rcases List.mem_cons.1 ht with rfl | ht
  · exact hp
  · exact hs.stack top ht

theorem leaves_pop? : Leaves (fun h top? ↦ ∀ top ∈ top?, h.Houses top.1.allStrings) pop? s := by
  intro hs a t h
  rw [pop?_eq] at h
  cases h
  refine ⟨.refl hs.sound, ⟨hs.sound, hs.empty, fun top ht ↦ hs.stack top ?_⟩, fun top ht ↦
    hs.stack top ?_⟩
  · exact List.mem_of_mem_tail ht
  · exact List.mem_of_mem_head? ht

/-- Repeating an operation, where what is said of its values stays true in larger heaps. -/
theorem leaves_timesFrom (hx : ∀ s, Leaves P x s)
    (hP : ∀ g h a, Heap.Grows g h → P g a → P h a) {done : List α}
    (hd : ∀ a ∈ done, P s.heap a) (n : Nat) :
    Leaves (fun h as ↦ ∀ a ∈ as, P h a) (Fallible.timesFrom x done n) s := by
  induction n generalizing done s with
  | zero => exact leaves_pure fun a ha ↦ hd a (List.mem_reverse.1 ha)
  | succ n ih =>
    rw [Fallible.timesFrom_succ]
    refine (hx s).bind fun a t hg ha ↦ ih ?_
    exact List.forall_mem_cons.2 ⟨ha, fun b hb ↦ hP _ _ b hg (hd b hb)⟩

end Decoding

/-! ## Tables -/

namespace Template

variable {t : Template} {k : Key} {v : Value} {a : Str}

theorem Value.strings_of_key? (h : v.key? = some k) : k.toValue.strings = v.strings := by
  cases v with
  | num d =>
    simp only [Value.key?, Option.some.injEq] at h
    subst h
    cases d.toInt32? <;> rfl
  | _ =>
    cases h
    try rfl

/-- The strings of a table after an insertion were there before or come with the pair. -/
theorem of_mem_strings_insert (h : a ∈ (t.insert k v).strings) :
    a ∈ t.strings ∨ a ∈ k.toValue.strings ∨ a ∈ v.strings := by
  obtain ⟨array, hash⟩ := t
  simp only [Template.insert] at h
  split at h
  · simp only [strings, List.mem_append, Array.toList_setIfInBounds, List.mem_flatMap] at h ⊢
    rcases h with ⟨w, hw, ha⟩ | h
    · rcases List.mem_or_eq_of_mem_set hw with hw | rfl
      · exact .inl (.inl ⟨w, hw, ha⟩)
      · exact .inr (.inr ha)
    · exact .inl (.inr h)
  · simp only [strings, List.mem_append, List.mem_flatMap, pairStrings] at h ⊢
    rcases h with h | ⟨item, hi, ha⟩
    · exact .inl (.inl h)
    · obtain ⟨hk, hv⟩ := Pairs.of_mem_insert hi
      rcases ha with ha | ha
      · rcases hk with rfl | ⟨old, ho, heq⟩
        · exact .inr (.inl ha)
        · exact .inl (.inr ⟨old, ho, .inl (heq ▸ ha)⟩)
      · rcases hv with rfl | ⟨old, ho, heq⟩
        · exact .inr (.inr ha)
        · exact .inl (.inr ⟨old, ho, .inr (heq ▸ ha)⟩)

end Template

namespace Container

open Decoding

variable {s : Session}

theorem leaves_maskedString (n : Nat) : Leaves Heap.Live (maskedString n) s :=
  leaves_read fun _ _ ↦ leaves_intern _

theorem leaves_templateValue : Leaves (fun h v ↦ h.Houses v.strings) templateValue s := by
  refine leaves_read fun kind _ ↦ ?_
  split
  · exact leaves_pure Heap.houses_nil
  · exact leaves_pure Heap.houses_nil
  · exact leaves_pure Heap.houses_nil
  · exact leaves_read fun _ _ ↦ leaves_pure Heap.houses_nil
  · exact leaves_read fun _ _ ↦ leaves_pure Heap.houses_nil
  · exact (leaves_maskedString _).bind fun a t _ ha ↦ leaves_pure (Heap.houses_singleton ha)

theorem leaves_templatePair {t : Template} (ht : s.heap.Houses t.strings) :
    Leaves (fun h t ↦ h.Houses t.strings) (templatePair t) s := by
  refine leaves_read fun start _ ↦ leaves_templateValue.bind fun v s₁ hg₁ hv ↦ ?_
  cases hk : v.key? with
  | none => exact leaves_failAt _ _
  | some k =>
    refine leaves_templateValue.bind fun w s₂ hg₂ hw ↦ leaves_pure fun a ha ↦ ?_
    rcases Template.of_mem_strings_insert ha with ha | ha | ha
    · exact (ht.mono (hg₁.trans hg₂)) a ha
    · rw [Template.Value.strings_of_key? hk] at ha
      exact (hv.mono hg₂) a ha
    · exact hw a ha

theorem leaves_templatePairs {t : Template} (ht : s.heap.Houses t.strings) (n : Nat) :
    Leaves (fun h t ↦ h.Houses t.strings) (templatePairs t n) s := by
  induction n generalizing t s with
  | zero => exact leaves_pure ht
  | succ n ih => exact (leaves_templatePair ht).bind fun t' s' _ ht' ↦ ih ht'

theorem leaves_template : Leaves (fun h t ↦ h.Houses t.strings) template s := by
  refine leaves_read fun pairs _ ↦ leaves_read fun values _ ↦ ?_
  refine (leaves_timesFrom (fun _ ↦ leaves_templateValue) (fun _ _ _ hg hv ↦ hv.mono hg)
    (by simp) _).bind fun vs s' _ hvs ↦ leaves_templatePairs ?_ _
  intro a ha
  obtain ⟨v, hv, ha⟩ : ∃ v ∈ vs, a ∈ v.strings := by
    simpa [Template.strings] using ha
  exact hvs v hv a ha

/-! ## Records -/

theorem leaves_object : Leaves (fun h o ↦ h.Houses o.1.allStrings) object s := by
  refine leaves_read fun start _ ↦ leaves_read fun kind _ ↦ ?_
  split
  · refine leaves_pop?.bind fun top? t _ htop ↦ ?_
    rcases top? with _ | ⟨p, d⟩
    · exact leaves_failAt _ _
    · dsimp only
      split
      · exact leaves_failAt _ _
      · exact leaves_pure (htop _ rfl)
  · exact leaves_template.bind fun t s' _ ht ↦ leaves_pure ht
  · exact leaves_read fun _ _ ↦ leaves_pure Heap.houses_nil
  · exact leaves_read fun _ _ ↦ leaves_pure Heap.houses_nil
  · exact leaves_read fun _ _ ↦ leaves_read fun _ _ ↦ leaves_pure Heap.houses_nil
  · exact (leaves_maskedString _).bind fun a t _ ha ↦ leaves_pure (Heap.houses_singleton ha)

theorem leaves_objectsFrom {pool : List (Constant Prototype)}
    (hp : ∀ o ∈ pool, s.heap.Houses o.allStrings) (depth n : Nat) :
    Leaves (fun h r ↦ ∀ o ∈ r.1, h.Houses o.allStrings) (objectsFrom pool depth n) s := by
  induction n generalizing pool depth s with
  | zero => exact leaves_pure hp
  | succ n ih =>
    refine leaves_object.bind fun (o, d) t hg ho ↦ ih ?_ _
    exact List.forall_mem_cons.2 ⟨ho, fun o' ho' ↦ (hp o' ho').mono hg⟩

variable {ctx : Context}

theorem leaves_record (hn : s.heap.Live ctx.chunkName) :
    Leaves (fun h r ↦ h.Houses r.1.allStrings) (record ctx) s := by
  refine leaves_read fun f _ ↦ (leaves_objectsFrom (by simp) 0 _).bind ?_
  rintro ⟨objects, d⟩ t hg ho
  refine leaves_note (leaves_read fun debug _ ↦ leaves_pure fun a ha ↦ ?_)
  rcases Prototype.mem_allStrings.1 ha with rfl | ⟨o, hmem, ha⟩
  · exact hg.live _ hn
  · exact ho o hmem a ha

theorem leaves_nextRecord (hn : s.heap.Live ctx.chunkName) :
    Leaves (fun h r ↦ ∀ top ∈ r, h.Houses top.1.allStrings) (nextRecord ctx) s := by
  refine leaves_read fun length? _ ↦ ?_
  cases length? with
  | none => exact leaves_pure (by simp)
  | some length =>
    refine leaves_read fun start _ ↦ (leaves_record (by exact hn)).bind ?_
    rintro ⟨p, d⟩ t - hp
    refine leaves_read fun stop _ ↦ ?_
    dsimp only
    split
    · exact leaves_note (leaves_pure (by simpa using hp))
    · exact leaves_failAt _ _

/-! ## Containers -/

theorem leaves_records (hn : s.heap.Live ctx.chunkName) (rounds : Nat) :
    Leaves (fun _ _ ↦ True) (records (nextRecord ctx) rounds) s := by
  induction rounds generalizing s with
  | zero => exact leaves_fail _
  | succ rounds ih =>
    refine (leaves_nextRecord hn).bind fun r t hg hr ↦ ?_
    rcases r with _ | ⟨p, d⟩
    · exact leaves_pure trivial
    · exact leaves_push (hr _ rfl) (ih (hg.live _ hn))

theorem leaves_root : Leaves (fun h p ↦ h.Houses p.allStrings) root s := by
  refine leaves_read fun _ cursor ↦ leaves_get fun hs ↦ ?_
  dsimp only at hs ⊢
  split
  · rename_i p d _ hstack
    exact leaves_pure (hs.stack (p, d) (by rw [hstack]; exact List.mem_singleton_self _))
  · exact leaves_fail _

theorem leaves_header (options : Options) (source : Bytes) :
    Leaves (fun h head ↦ h.Live head.chunkName) (header options source) s :=
  leaves_read fun _ _ ↦ (leaves_intern _).bind fun _ _ _ ha ↦ leaves_pure ha

/-- The strings of an accepted tree are live. -/
theorem leaves_container (options : Options) (source : Bytes) :
    Leaves (fun h p ↦ h.Houses p.allStrings) (container options source) s := by
  refine (leaves_header options source).bind fun head t _ hn ↦ leaves_note (leaves_get fun _ ↦ ?_)
  exact (leaves_records (by exact hn) _).bind fun _ _ _ _ ↦ leaves_root

end Container

/-! ## One decode -/

variable {h h' : Heap} {options : Options} {source : Source} {name : String} {p : Prototype}

/-- However it ends, a decode has done nothing to its heap but grow it. -/
theorem decode_grows (hs : h.Sound) : h.Grows (decode options h source name).heap :=
  keeps_decode (fun _ text hg ↦ hg.trans (hg.sound.grows_intern text)) (.refl hs)

theorem decode_houses (hs : h.Sound) (he : h.Live .empty)
    (hp : (decode options h source name).result = .ok p) :
    (decode options h source name).heap.Houses p.allStrings := by
  obtain ⟨t, ht⟩ := Decoded.ofRun_eq_ok.1 hp
  obtain ⟨-, -, hhouses⟩ :=
    leaves_container options (Utf8.encode name) ⟨hs, he, by simp [Session.start]⟩ p t ht
  rwa [decode, ht]

namespace Heap

/-- What a host may rely on when a heap goes over into another one: the table stays in order, every
string is found as before, no object is lost, and objects at most come back to life. -/
structure Kept (h h' : Heap) : Prop where
  sound : h'.Sound
  lookup : ∀ s a, h.strings.lookup? s = some a → h'.strings.lookup? s = some a
  objects : h.strings.objects ⊆ h'.strings.objects
  liveness : ∀ a, h.Holds a → h'.strings.liveness a = h.strings.liveness a ∨
    h.strings.liveness a = .condemned ∧ h'.strings.liveness a = .live

theorem Grows.kept (hs : h.Sound) (hg : h.Grows h') : h.Kept h' where
  sound := hg.sound
  lookup s a ha := by
    obtain ⟨hold, hb⟩ := (StringTable.Sound.lookup?_eq_some_iff hs).1 ha
    exact (StringTable.Sound.lookup?_eq_some_iff hg.sound).2 ⟨hg.holds a hold, hb⟩
  objects a ha := by
    refine (hg.holds a (.inr ha)).resolve_left ?_
    rintro rfl
    exact hs.nonempty _ ha rfl
  liveness a ha := by
    cases hl : h.strings.liveness a with
    | live => exact .inl (hg.live a ⟨ha, hl⟩).live
    | condemned =>
      cases hl' : h'.strings.liveness a with
      | live => exact .inr ⟨rfl, rfl⟩
      | condemned => exact .inl rfl

/-! ## The whole service of a heap -/

/-- The heaps that have served a host, with the trees that they have given it, the latest first. -/
inductive Served : Heap → List Prototype → Prop
  | ofMask (mask : UInt32) : Served (ofMask mask) []
  | intern {h : Heap} {ps : List Prototype} (hs : Served h ps) (s : Bytes) :
      Served (h.intern s).2 ps
  | beginCycle {h : Heap} {ps : List Prototype} (hs : Served h ps) : Served h.beginCycle ps
  | decode {h : Heap} {ps : List Prototype} (hs : Served h ps) (options : Options)
      (source : Source) (name : String) :
      Served (Container.decode options h source name).heap
        ((Container.decode options h source name).result.toOption.toList ++ ps)

variable {ps : List Prototype}

theorem Served.reachable (hs : h.Served ps) : h.Reachable := by
  induction hs with
  | ofMask mask => exact .ofMask mask
  | intern _ s ih => exact ih.intern s
  | beginCycle _ ih => exact ih.beginCycle
  | decode _ _ _ _ ih => exact ih.decode

theorem Reachable.extends_beginCycle (hr : h.Reachable) : h.Extends h.beginCycle :=
  ⟨hr.beginCycle.sound, fun _ ha ↦ ha.imp id fun hm ↦
    (StringTable.Sound.condemnAll hr.sound).objects.mem_iff.2 hm⟩

/-- A heap holds the strings of all trees that it has given, condemned or not. -/
theorem Served.holds (hs : h.Served ps) : ∀ p ∈ ps, ∀ a ∈ p.allStrings, h.Holds a := by
  induction hs with
  | ofMask mask =>
    rintro _ ⟨⟩
  | intern hs s ih =>
    exact fun p hp a ha ↦ (hs.reachable.sound.grows_intern s).holds a (ih p hp a ha)
  | beginCycle hs ih =>
    exact fun p hp a ha ↦ hs.reachable.extends_beginCycle.holds a (ih p hp a ha)
  | @decode h ps hs options source name ih =>
    intro p hp a ha
    rcases List.mem_append.1 hp with hp | hp
    · have hr := hs.reachable
      have hok := Decoded.result_eq_ok (Option.mem_toList.1 hp)
      exact (decode_houses hr.sound hr.live_empty hok a ha).holds
    · exact (decode_grows hs.reachable.sound).holds a (ih p hp a ha)

end Heap

/-- A decode never damages the heap that serves it, whether or not it succeeds, and the string
objects of trees are canonical.  Those of an accepted tree are live and are what a look-up of their
bytes gives, and among all trees that the heap has given, this one included, two strings are one
object exactly if their bytes are equal. -/
theorem decode_canonical {ps : List Prototype} (hs : h.Served ps) (options : Options)
    (source : Source) (name : String) :
    h.Kept (decode options h source name).heap ∧
    (∀ p, (decode options h source name).result = .ok p → ∀ a ∈ p.allStrings,
      (decode options h source name).heap.strings.liveness a = .live ∧
        (decode options h source name).heap.strings.lookup? a.bytes = some a) ∧
    ∀ p ∈ (decode options h source name).result.toOption.toList ++ ps,
      ∀ q ∈ (decode options h source name).result.toOption.toList ++ ps,
        ∀ a ∈ p.allStrings, ∀ b ∈ q.allStrings, (a == b) = true ↔ a.bytes = b.bytes := by
  have hr := hs.reachable
  have hg : h.Grows (decode options h source name).heap := decode_grows hr.sound
  have hserved := hs.decode options source name
  refine ⟨hg.kept hr.sound, fun p hp a ha ↦ ?_, fun p hp q hq a ha b hb ↦ ?_⟩
  · obtain ⟨hold, hlive⟩ := decode_houses hr.sound hr.live_empty hp a ha
    exact ⟨hlive, (Heap.StringTable.Sound.lookup?_eq_some_iff hg.sound).2 ⟨hold, rfl⟩⟩
  · have hold := hserved.holds p hp a ha
    have hold' := hserved.holds q hq b hb
    rw [Str.beq_eq, beq_iff_eq]
    constructor
    · intro hid
      rw [hg.sound.eq_of_id_eq hold hold' hid]
    · intro hbytes
      rw [hg.sound.eq_of_bytes_eq hold hold' hbytes]

/-- A heap whose one string is condemned. -/
def condemnedHeap : Heap := ((Heap.ofMask 0).intern [107]).2.beginCycle

/-- A stripped container of one record with that string as a constant. -/
def condemnedConstant : Bytes := [0x1b, 0x4c, 0x4a, 2, 2, 9, 0, 0, 0, 0, 0, 1, 0, 6, 0x94, 0]

/-- The string becomes a constant and, from the name of the source, the name of the chunk. -/
theorem decode_canonical_of_condemned : condemnedHeap.Served [] ∧
    ∃ p, (decode .default condemnedHeap (.ofBytes condemnedConstant) "k").result = .ok p ∧
      p.allStrings.map (·.bytes) = [[107], [107]] ∧
      ∀ a ∈ p.allStrings, ∀ b ∈ p.allStrings, (a == b) = true ↔ a.bytes = b.bytes := by
  have hs : condemnedHeap.Served [] := .beginCycle (.intern (.ofMask 0) [107])
  have hbytes : (decode .default condemnedHeap (.ofBytes condemnedConstant) "k").result.toOption.map
      (·.allStrings.map (·.bytes)) = some [[107], [107]] := by decide +kernel
  obtain ⟨p, hp, hstrings⟩ := Option.map_eq_some_iff.1 hbytes
  have hmem := List.mem_append_left [] (Option.mem_toList.2 hp)
  obtain ⟨-, -, hsame⟩ := decode_canonical hs .default (.ofBytes condemnedConstant) "k"
  exact ⟨hs, p, Decoded.result_eq_ok hp, hstrings, hsame p hmem p hmem⟩

end JitDump
