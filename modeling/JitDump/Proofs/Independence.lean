import JitDump.Proofs.Listings
import JitDump.Proofs.Service
import JitDump.Proofs.Twins

/-!
# One container on two heaps

What a decode returns does not depend on what its heap has served before. Two
runs of one decode, each on a sound heap of its own, are taken together: they
consume the same bytes, what they read is twin, and so are their stacks, or they
fail alike. This is carried through every operation once, and then along the
rounds of a container.
-/

namespace JitDump

open Container

/-! ## Two runs -/

/-- Trees of the same nesting depth that agree in all but the identity of their strings. -/
inductive Container.Same : Prototype × Nat → Prototype × Nat → Prop
  | mk {p q : Prototype} (h : p.Alike Str.SameBytes q) (d : Nat) : Same (p, d) (q, d)

/-- Two sessions that have read the same bytes and hold the same trees, each in a sound heap. -/
structure Container.Session.Twin (s t : Session) : Prop where
  cursor : s.cursor = t.cursor
  left : s.heap.Sound
  right : t.heap.Sound
  stack : List.Forall₂ Same s.stack t.stack

/-- A session on a sound heap is its own twin. -/
theorem Container.Session.twin_self {s : Session} (hs : s.heap.Sound) : s.Twin s where
  cursor := rfl
  left := hs
  right := hs
  stack := List.forall₂_same.2 fun (p, d) _ ↦ .mk (.refl (fun a ↦ show a.SameBytes a from rfl) p) d

variable {α β γ δ : Type}

/-- What two runs on the heaps `g` and `h` come to: values that `V` relates in larger heaps, or one
failure. -/
inductive Decoding.Agree (V : Heap → Heap → α → β → Prop) (g h : Heap) :
    EStateM.Result Failure Session α → EStateM.Result Failure Session β → Prop
  | ok {a : α} {b : β} {s t : Session} (hst : s.Twin t) (hg : g.Extends s.heap)
      (hh : h.Extends t.heap) (hv : V s.heap t.heap a b) : Agree V g h (.ok a s) (.ok b t)
  | error {e : Failure} {s t : Session} : Agree V g h (.error e s) (.error e t)

/-- If `s` and `t` are twins, the two operations agree there. -/
def Decoding.Together (V : Heap → Heap → α → β → Prop) (x : Decoding α) (y : Decoding β)
    (s t : Session) : Prop := s.Twin t → Decoding.Agree V s.heap t.heap (x s) (y t)

namespace Decoding

variable {V : Heap → Heap → α → β → Prop} {W : Heap → Heap → γ → δ → Prop}
variable {x : Decoding α} {y : Decoding β} {f : α → Decoding γ} {f' : β → Decoding δ}
variable {s t : Session} {a : α} {b : β}

theorem together_pure (hv : V s.heap t.heap a b) :
    Together V (pure a) (pure b) s t :=
  fun hst ↦ .ok hst (.refl hst.left) (.refl hst.right) hv

theorem Together.bind (hx : Together V x y s t)
    (hf : ∀ a b s' t', s.heap.Extends s'.heap → t.heap.Extends t'.heap →
      V s'.heap t'.heap a b → Together W (f a) (f' b) s' t') :
    Together W (x >>= f) (y >>= f') s t := by
  intro hst
  have ha := hx hst
  simp only [Bind.bind, EStateM.bind]
  generalize x s = p at ha ⊢
  generalize y t = q at ha ⊢
  cases ha with
  | error => exact .error
  | ok h hs ht hv =>
    have hb := hf _ _ _ _ hs ht hv h
    dsimp only
    generalize f _ _ = p at hb ⊢
    generalize f' _ _ = q at hb ⊢
    cases hb with
    | error => exact .error
    | ok h' hs' ht' hw => exact .ok h' (hs.trans hs') (ht.trans ht') hw

theorem Together.mono {V' : Heap → Heap → α → β → Prop} (hx : Together V x y s t)
    (hv : ∀ g h a b, V g h a b → V' g h a b) : Together V' x y s t := by
  intro hst
  have ha := hx hst
  generalize x s = p at ha ⊢
  generalize y t = q at ha ⊢
  cases ha with
  | error => exact .error
  | ok h hs ht hv' => exact .ok h hs ht (hv _ _ _ _ hv')

/-- Both runs read the same. -/
theorem together_read {r : Reading α} {f : α → Decoding γ} {f' : α → Decoding δ}
    (hf : ∀ a cursor, Together W (f a) (f' a) { s with cursor } { t with cursor }) :
    Together W (ofReading r >>= f) (ofReading r >>= f') s t := by
  rintro ⟨hc, hl, hr, hs⟩
  simp only [Bind.bind, EStateM.bind, ofReading, hc]
  cases r t.cursor with
  | ok a c => exact hf a c ⟨rfl, hl, hr, hs⟩
  | error e c => exact .error

theorem together_failAt (i : Nat) (fault : Fault) :
    Together V (Fallible.failAt i fault) (Fallible.failAt i fault) s t := fun _ ↦ .error

theorem together_get {f : Session → Decoding γ} {f' : Session → Decoding δ}
    (hf : Together W (f s) (f' t) s t) :
    Together W (MonadState.get >>= f) (MonadState.get >>= f') s t := hf

theorem together_fail (fault : Fault) :
    Together V (ofReading (Reading.fail fault)) (ofReading (Reading.fail fault)) s t := by
  intro hst
  simp only [ofReading, Reading.fail, hst.cursor]
  exact .error

/-- Both heaps come to hold a string. -/
theorem together_intern (text : Bytes) :
    Together (fun g h a b ↦ (a.bytes = text ∧ b.bytes = text) ∧ g.Holds a ∧ h.Holds b)
      (intern text) (intern text) s t := by
  rintro ⟨hc, hl, hr, hs⟩
  obtain ⟨hb, hh, he⟩ := hl.intern text
  obtain ⟨hb', hh', he'⟩ := hr.intern text
  exact .ok ⟨hc, he.sound, he'.sound, hs⟩ he he' ⟨⟨hb, hb'⟩, hh, hh'⟩

/-- What is noted is not compared. -/
theorem together_note {e e' : Event} {f : Unit → Decoding γ} {f' : Unit → Decoding δ}
    (hf : Together W (f ()) (f' ()) { s with events := e :: s.events }
      { t with events := e' :: t.events }) : Together W (note e >>= f) (note e' >>= f') s t :=
  fun hst ↦ hf ⟨hst.cursor, hst.left, hst.right, hst.stack⟩

theorem together_push {p q : Prototype} {d : Nat} (h : Same (p, d) (q, d))
    {f : Unit → Decoding γ} {f' : Unit → Decoding δ}
    (hf : Together W (f ()) (f' ()) { s with stack := (p, d) :: s.stack }
      { t with stack := (q, d) :: t.stack }) :
    Together W (push p d >>= f) (push q d >>= f') s t :=
  fun hst ↦ hf ⟨hst.cursor, hst.left, hst.right, .cons h hst.stack⟩

theorem together_pop? :
    Together (fun _ _ ↦ Option.Rel Same) pop? pop? s t := by
  obtain ⟨c, g, stack, events⟩ := s
  obtain ⟨d, h, stack', events'⟩ := t
  rintro ⟨hc, hl, hr, hs⟩
  rw [pop?_eq, pop?_eq]
  cases hs with
  | nil => exact .ok ⟨hc, hl, hr, .nil⟩ (.refl hl) (.refl hr) .none
  | cons htop hs => exact .ok ⟨hc, hl, hr, hs⟩ (.refl hl) (.refl hr) (.some htop)

/-- Repeating an operation, where what is related stays related in larger heaps. -/
theorem together_timesFrom (hx : ∀ s t, Together V x y s t)
    (hv : ∀ g g' h h' a b, Heap.Extends g g' → Heap.Extends h h' → V g h a b → V g' h' a b)
    {done : List α} {done' : List β} (hd : List.Forall₂ (V s.heap t.heap) done done') (n : Nat) :
    Together (fun g h ↦ List.Forall₂ (V g h)) (Fallible.timesFrom x done n)
      (Fallible.timesFrom y done' n) s t := by
  induction n generalizing done done' s t with
  | zero => exact together_pure (List.rel_reverse hd)
  | succ n ih =>
    rw [Fallible.timesFrom_succ, Fallible.timesFrom_succ]
    refine (hx s t).bind fun a b s' t' hs ht hab ↦ ih (.cons hab ?_)
    exact hd.imp fun a b ↦ hv _ _ _ _ a b hs ht

end Decoding

namespace Container

open Decoding

variable {s t : Session}

/-! ## Tables -/

theorem together_maskedString (n : Nat) :
    Together (fun g h a b ↦ (Template.Value.str a).Twin g h (.str b)) (maskedString n)
      (maskedString n) s t := by
  refine together_read fun masked cursor ↦ (together_intern _).mono ?_
  rintro g h a b ⟨⟨ha, hb⟩, hg, hh⟩
  exact ⟨.str (ha.trans hb.symm), hg, hh⟩

theorem together_templateValue :
    Together Template.Value.Twin templateValue templateValue s t := by
  refine together_read fun kind _ ↦ ?_
  split
  · exact together_pure ⟨.nil, trivial, trivial⟩
  · exact together_pure ⟨.false, trivial, trivial⟩
  · exact together_pure ⟨.true, trivial, trivial⟩
  · exact together_read fun i _ ↦ together_pure ⟨.int _, trivial, trivial⟩
  · exact together_read fun bits _ ↦ together_pure ⟨.num _, trivial, trivial⟩
  · exact (together_maskedString _).bind fun a b s' t' _ _ hv ↦ together_pure hv

/-- A pair goes to the same place of twin tables. -/
theorem together_templatePair {u v : Template} (hu : u.Twin s.heap t.heap v) :
    Together Template.Twin (templatePair u) (templatePair v) s t := by
  refine together_read fun start _ ↦ together_templateValue.bind fun a b s₁ t₁ hs ht hab ↦ ?_
  rcases hab.key? with ⟨ha, hb⟩ | ⟨k, l, ha, hb, hkl⟩
  · simp only [ha, hb]
    exact together_failAt _ _
  · simp only [ha, hb]
    refine together_templateValue.bind fun x y s₂ t₂ hs' ht' hxy ↦ ?_
    intro hst
    exact together_pure ((hu.mono (hs.trans hs') (ht.trans ht')).insert hst.left hst.right
      (hkl.mono hs' ht') hxy.alike) hst

theorem together_templatePairs {u v : Template} (hu : u.Twin s.heap t.heap v) (n : Nat) :
    Together Template.Twin (templatePairs u n) (templatePairs v n) s t := by
  induction n generalizing u v s t with
  | zero => exact together_pure hu
  | succ n ih => exact (together_templatePair hu).bind fun u' v' s' t' _ _ h ↦ ih h

theorem together_template : Together Template.Twin template template s t := by
  refine together_read fun pairs _ ↦ together_read fun values _ ↦ ?_
  refine (together_timesFrom (fun _ _ ↦ together_templateValue)
    (fun _ _ _ _ _ _ hg hh hv ↦ hv.mono hg hh) .nil _).bind fun as bs s' t' _ _ h ↦ ?_
  exact together_templatePairs (Template.twin_of_array h) _

/-! ## Records -/

theorem together_object :
    Together (fun _ _ a b ↦ Constant.Alike (Prototype.Alike Str.SameBytes) a.1 b.1 ∧ a.2 = b.2)
      object object s t := by
  refine together_read fun start _ ↦ together_read fun kind _ ↦ ?_
  split
  · refine together_pop?.bind fun a b s' t' _ _ h ↦ ?_
    cases h with
    | none => exact together_failAt _ _
    | some h =>
      obtain ⟨h, d⟩ := h
      dsimp only
      split
      · exact together_failAt _ _
      · exact together_pure ⟨.child h, rfl⟩
  · exact together_template.bind fun u v s' t' _ _ h ↦ together_pure ⟨.table h.alike, rfl⟩
  · exact together_read fun bits _ ↦ together_pure ⟨.int64 _, rfl⟩
  · exact together_read fun bits _ ↦ together_pure ⟨.uint64 _, rfl⟩
  · exact together_read fun re _ ↦ together_read fun im _ ↦ together_pure ⟨.complex _ _, rfl⟩
  · refine (together_maskedString _).bind fun a b s' t' _ _ h ↦ together_pure ⟨?_, rfl⟩
    cases h.alike with
    | str h => exact .str h

/-- The pools of alike objects and how deep they nest. -/
theorem together_objectsFrom {pool pool' : List (Constant Prototype)}
    (hp : List.Forall₂ (Constant.Alike (Prototype.Alike Str.SameBytes)) pool pool')
    (depth n : Nat) :
    Together (fun _ _ a b ↦
      List.Forall₂ (Constant.Alike (Prototype.Alike Str.SameBytes)) a.1 b.1 ∧ a.2 = b.2)
      (objectsFrom pool depth n) (objectsFrom pool' depth n) s t := by
  induction n generalizing pool pool' depth s t with
  | zero => exact together_pure ⟨hp, rfl⟩
  | succ n ih =>
    refine together_object.bind ?_
    rintro ⟨o, d⟩ ⟨o', _⟩ s' t' _ _ ⟨ho, rfl⟩
    exact ih (.cons ho hp) _

variable {ctx : Context} {name : Str}

theorem together_record (hn : ctx.chunkName.SameBytes name) :
    Together (fun _ _ ↦ Same) (record ctx) (record { ctx with chunkName := name }) s t := by
  refine together_read fun f _ ↦ (together_objectsFrom .nil 0 _).bind ?_
  rintro ⟨objects, d⟩ ⟨objects', _⟩ s' t' _ _ ⟨ho, rfl⟩
  refine together_note (together_read fun debug _ ↦ together_pure (.mk ?_ d))
  exact ⟨rfl, rfl, rfl, rfl, rfl, rfl, rfl, ho, rfl, hn⟩

theorem together_nextRecord (hn : ctx.chunkName.SameBytes name) :
    Together (fun _ _ ↦ Option.Rel Same) (nextRecord ctx)
      (nextRecord { ctx with chunkName := name }) s t := by
  refine together_read fun length? _ ↦ ?_
  cases length? with
  | none => exact together_pure .none
  | some length =>
    refine together_read fun start _ ↦ (together_record hn).bind ?_
    rintro _ _ s' t' _ _ ⟨h, d⟩
    refine together_read fun stop _ ↦ ?_
    dsimp only
    split
    · exact together_note (together_pure (.some (.mk h d)))
    · exact together_failAt _ _

/-! ## Containers -/

theorem together_records (hn : ctx.chunkName.SameBytes name) (rounds : Nat) :
    Together (fun _ _ _ _ ↦ True) (records (nextRecord ctx) rounds)
      (records (nextRecord { ctx with chunkName := name }) rounds) s t := by
  induction rounds generalizing s t with
  | zero => exact together_fail _
  | succ rounds ih =>
    refine (together_nextRecord hn).bind fun a b s' t' _ _ h ↦ ?_
    cases h with
    | none => exact together_pure trivial
    | some h =>
      obtain ⟨h, d⟩ := h
      exact together_push (.mk h d) ih

theorem together_root :
    Together (fun _ _ ↦ Prototype.Alike Str.SameBytes) root root s t := by
  obtain ⟨_, g, stack, events⟩ := s
  obtain ⟨_, h, stack', events'⟩ := t
  refine together_read fun _ cursor ↦ together_get fun hst ↦ ?_
  have hs : List.Forall₂ Same stack stack' := hst.stack
  dsimp only
  rcases hb : cursor.buffer with _ | ⟨b, rest⟩
  · cases hs with
    | nil => exact together_fail _ hst
    | cons htop hs =>
      cases hs with
      | nil =>
        obtain ⟨h, d⟩ := htop
        exact together_pure h hst
      | cons => exact together_fail _ hst
  · exact together_fail _ hst

theorem together_header (options : Options) (source : Bytes) :
    Together (fun _ _ a b ↦ a.flags = b.flags ∧ a.chunkName.SameBytes b.chunkName)
      (header options source) (header options source) s t := by
  refine together_read fun r _ ↦ (together_intern _).bind ?_
  rintro a b s' t' _ _ ⟨⟨ha, hb⟩, -⟩
  exact together_pure ⟨rfl, ha.trans hb.symm⟩

theorem together_container (options : Options) (source : Bytes) :
    Together (fun _ _ ↦ Prototype.Alike Str.SameBytes) (container options source)
      (container options source) s t := by
  refine (together_header options source).bind ?_
  rintro ⟨flags, name⟩ ⟨_, name'⟩ s₁ t₁ _ _ ⟨rfl, hn⟩
  refine together_note (together_get fun hst ↦ ?_)
  have hc : s₁.cursor.undelivered = t₁.cursor.undelivered :=
    congrArg Cursor.undelivered hst.cursor
  dsimp only
  rw [hc]
  have hctx : Str.SameBytes (Context.mk flags options name).chunkName name' := hn
  exact (together_records hctx _).bind (fun _ _ _ _ _ _ _ ↦ together_root) hst

/-- What two decodes give that a host cannot tell apart: the same failure, or trees that agree in
all but the identity of their strings and have the same listings. -/
inductive SameResult : Except Failure Prototype → Except Failure Prototype → Prop
  | ok {p q : Prototype} (h : p.Alike Str.SameBytes q)
      (hl : ∀ pretty, Listing.text pretty p = Listing.text pretty q) : SameResult (.ok p) (.ok q)
  | error (e : Failure) : SameResult (.error e) (.error e)

/-- A decode returns the same on any two sound heaps, by `together_container`. -/
theorem sameResult_of_sound {g h : Heap} (hg : g.Sound) (hh : h.Sound) (options : Options)
    (source : Source) (name : String) :
    SameResult (decode options g source name).result (decode options h source name).result := by
  have hst : (Session.start g source).Twin (.start h source) := ⟨rfl, hg, hh, .nil⟩
  have ha := together_container options (Utf8.encode name) hst
  simp only [decode]
  generalize container options (Utf8.encode name) (.start g source) = x at ha ⊢
  generalize container options (Utf8.encode name) (.start h source) = y at ha ⊢
  cases ha with
  | ok _ _ _ halike => exact .ok halike halike.text_eq
  | error => exact .error _

/-- Both have the same listings. -/
theorem SameResult.map_text {r r' : Except Failure Prototype} (h : SameResult r r')
    (pretty : Bool) : r.map (Listing.text pretty) = r'.map (Listing.text pretty) := by
  cases h with
  | ok _ hl => exact congrArg Except.ok (hl pretty)
  | error e => rfl

/-- A decode returns the same on any two heaps that have served before, whatever they have served:
both heaps are sound. -/
theorem decode_same_of_serving {g h : Heap} (hg : g.Serving) (hh : h.Serving) (options : Options)
    (source : Source) (name : String) :
    SameResult (decode options g source name).result (decode options h source name).result :=
  sameResult_of_sound hg.reachable.sound hh.reachable.sound options source name

/-- A stripped container of one record with a table, which has one string twice as a key. -/
def repeatedKey : Bytes :=
  [0x1b, 0x4c, 0x4a, 2, 2, 16, 0, 0, 0, 0, 0, 1, 0, 1, 2, 0, 6, 0x94, 2, 6, 0x94, 1, 0]

/-- A heap that has interned the key, has started a cycle and has failed to decode. -/
def usedHeap : Heap :=
  (decode .default ((Heap.ofMask 0).intern [107]).2.beginCycle (.ofBytes [0x1b]) "b").heap

theorem decode_same_of_repeatedKey : ∃ p q,
    (decode .default .new (.ofBytes repeatedKey) "a").result = .ok p ∧
      (decode .default usedHeap (.ofBytes repeatedKey) "a").result = .ok q ∧
      p.Alike Str.SameBytes q := by
  have hnew : Heap.new.Serving := .ofMask _
  have hused : usedHeap.Serving := .decode (.beginCycle (.intern (.ofMask 0) _)) _ _ _
  have h := decode_same_of_serving hnew hused .default (.ofBytes repeatedKey) "a"
  have hok : (decode .default .new (.ofBytes repeatedKey) "a").result.toOption.isSome = true := by
    decide +kernel
  obtain ⟨p, hp⟩ := Option.isSome_iff_exists.1 hok
  have hp := Decoded.result_eq_ok hp
  rw [hp] at h
  generalize (decode .default usedHeap (.ofBytes repeatedKey) "a").result = r at h ⊢
  cases h with
  | @ok _ q ha _ => exact ⟨p, q, hp, rfl, ha⟩

end Container

end JitDump
