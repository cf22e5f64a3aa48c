import JitDump.Proofs.Congruence
import JitDump.Proofs.Delivery

/-!
# Two runs in lockstep

Two cursors may differ and still let an operation go the same way: they may hold
the same bytes in different places, or one may hold more of the same input.  For
a relation between cursors under which the primitive readings go the same way,
a whole record does, with the same value, the same strings interned and the same
failure.  The first run may also stop for a cause of its own, such as an input
that ends earlier; then nothing is said of the second.
-/

namespace JitDump

variable {σ α β : Type}

/-- Two results that agree: the same value in related states, or the same failure in weakly related
states, unless the first failed for a cause of its own. -/
inductive Outcome (R W : σ → σ → Prop) (stop : Fault → Prop) :
    EStateM.Result Failure σ α → EStateM.Result Failure σ α → Prop
  | ok {a : α} {s t : σ} (h : R s t) : Outcome R W stop (.ok a s) (.ok a t)
  | error {e : Failure} {s t : σ} (h : W s t) : Outcome R W stop (.error e s) (.error e t)
  | stopped {e : Failure} {s : σ} {r : EStateM.Result Failure σ α} (h : stop e.fault) :
      Outcome R W stop (.error e s) r

/-- From states related by `R` the two operations come to results that agree, in states related by
`Q` if they succeed. -/
def Tracks (R Q W : σ → σ → Prop) (stop : Fault → Prop) (x y : Fallible σ α) : Prop :=
  ∀ s t, R s t → Outcome Q W stop (x s) (y t)

variable {R Q S W : σ → σ → Prop} {stop : Fault → Prop} {x y : Fallible σ α}
variable {f g : α → Fallible σ β}

theorem Outcome.bind {s t : σ} (h : Outcome Q W stop (x s) (y t))
    (h' : ∀ a, Tracks Q S W stop (f a) (g a)) : Outcome S W stop ((x >>= f) s) ((y >>= g) t) := by
  simp only [Bind.bind, EStateM.bind]
  generalize x s = p at h ⊢
  generalize y t = q at h ⊢
  cases h with
  | ok hq => exact h' _ _ _ hq
  | error hw => exact .error hw
  | stopped hs => exact .stopped hs

namespace Tracks

theorem pure (a : α) : Tracks R R W stop (Pure.pure a) (Pure.pure a) := fun _ _ h ↦ .ok h

theorem bind (h : Tracks R Q W stop x y) (h' : ∀ a, Tracks Q S W stop (f a) (g a)) :
    Tracks R S W stop (x >>= f) (y >>= g) := fun s t hst ↦ (h s t hst).bind h'

theorem get {f g : σ → Fallible σ β} (h : ∀ s t, R s t → Outcome Q W stop (f s s) (g t t)) :
    Tracks R Q W stop (MonadState.get >>= f) (MonadState.get >>= g) := h

theorem failAt (h : ∀ s t, R s t → W s t) (i : Nat) (fault : Fault) :
    Tracks R Q W stop (Fallible.failAt i fault : Fallible σ α) (Fallible.failAt i fault) :=
  fun s t hst ↦ .error (h s t hst)

/-- What the first of two such operations does, the second one does. -/
theorem eq_ok {s s' t : σ} {a : α} (h : Tracks R Q W stop x y) (hs : R s s')
    (hx : x s = .ok a t) : ∃ t', y s' = .ok a t' ∧ Q t t' := by
  have ho := h s s' hs
  rw [hx] at ho
  generalize y s' = q at ho ⊢
  cases ho with
  | ok hq => exact ⟨_, rfl, hq⟩

/-- Starting from fewer pairs, ending in more, and excusing more failures. -/
theorem mono {P T : σ → σ → Prop} {stop' : Fault → Prop} (h : Tracks R Q W stop x y)
    (hP : ∀ s t, P s t → R s t) (hT : ∀ s t, Q s t → T s t)
    (hs : ∀ fault, stop fault → stop' fault) : Tracks P T W stop' x y := by
  intro s t hst
  have ho := h s t (hP s t hst)
  generalize x s = p at ho ⊢
  generalize y t = q at ho ⊢
  cases ho with
  | ok hq => exact .ok (hT _ _ hq)
  | error hw => exact .error hw
  | stopped h => exact .stopped (hs _ h)

theorem forget {P : σ → σ → Prop} (h : Tracks R Q W stop x y) (hP : ∀ s t, Q s t → P s t) :
    Tracks R P W stop x y := h.mono (fun _ _ h ↦ h) hP fun _ h ↦ h

end Tracks

/-! ## Readings -/

/-- The readings of two related cursors that fail alike are not compared any further. -/
abbrev Reading.Tracks {α : Type} (R Q : Cursor → Cursor → Prop) (stop : Fault → Prop)
    (x y : Reading α) : Prop := JitDump.Tracks R Q (fun _ _ ↦ True) stop x y

theorem Reading.tracks_fail {α : Type} {R Q : Cursor → Cursor → Prop} {stop : Fault → Prop}
    (h : ∀ c d, R c d → c.position = d.position) (fault : Fault) :
    Reading.Tracks R Q stop (Reading.fail fault : Reading α) (Reading.fail fault) := by
  intro c d hcd
  simp only [Reading.fail, Cursor.failure, h c d hcd]
  exact .error trivial

/-- A relation between cursors under which the primitive readings go the same way. -/
structure Lockstep (R : Cursor → Cursor → Prop) (stop : Fault → Prop) : Prop where
  position {c d : Cursor} (h : R c d) : c.position = d.position
  block (n : Nat) : Reading.Tracks R R stop (Reading.block n) (Reading.block n)
  byte : Reading.Tracks R R stop Reading.byte Reading.byte

namespace Lockstep

variable {R : Cursor → Cursor → Prop} {stop : Fault → Prop}

/-- Numbers are read in lockstep, by induction on what the first cursor has left. -/
theorem groupsFrom (L : Lockstep R stop) (done : Bytes) :
    Reading.Tracks R R stop (Reading.groupsFrom done) (Reading.groupsFrom done) := by
  intro c d hd
  induction hn : c.undelivered using Nat.strongRecOn generalizing c d done with
  | ind n ih =>
    have ho := L.byte c d hd
    rw [Reading.groupsFrom_eq done c, Reading.groupsFrom_eq done d]
    generalize hb : Reading.byte c = p at ho ⊢
    generalize Reading.byte d = q at ho ⊢
    cases ho with
    | @ok b c₁ d₁ hq =>
      dsimp only
      split
      · exact ih _ (hn ▸ Reading.byte_undelivered hb) (b :: done) c₁ d₁ hq rfl
      · exact .ok hq
    | error hw => exact .error hw
    | stopped hs => exact .stopped hs

/-- The congruence of readings in lockstep. -/
def reading (L : Lockstep R stop) : ReadingCongruence where
  rel := Reading.Tracks R R stop
  offsets := Eq
  offsets_add := Congruence.eq_add
  pure := Tracks.pure
  bind := Tracks.bind
  failAt := by
    rintro _ i _ rfl fault -
    exact Tracks.failAt (fun _ _ _ ↦ trivial) i fault
  block := L.block
  groups := L.groupsFrom []
  position h := by
    intro c d hd
    have hf := h c.position d.position (L.position hd)
    exact hf c d hd
  rejects := by
    intro _ x y i _ fault hij hx hy _ c d _
    obtain ⟨c', hc⟩ := hx c
    obtain ⟨d', hd⟩ := hy d
    rw [hc, hd, hij]
    exact .error trivial

end Lockstep

/-! ## Decodes -/

/-- Two sessions that differ in their cursors only, which are related. -/
structure Container.Session.Beside (R : Cursor → Cursor → Prop) (s t : Session) : Prop where
  cursor : R s.cursor t.cursor
  heap : s.heap = t.heap
  stack : s.stack = t.stack
  events : s.events = t.events

open Container

theorem Container.Session.Beside.mono {R Q : Cursor → Cursor → Prop} {s t : Session}
    (h : s.Beside R t) (hR : R s.cursor t.cursor → Q s.cursor t.cursor) : s.Beside Q t :=
  ⟨hR h.cursor, h.heap, h.stack, h.events⟩

/-- Decodes that fail alike are compared in all but their cursors. -/
abbrev Decoding.Tracks {α : Type} (R Q : Cursor → Cursor → Prop) (stop : Fault → Prop)
    (x y : Decoding α) : Prop :=
  JitDump.Tracks (Session.Beside R) (Session.Beside Q) (Session.Beside fun _ _ ↦ True) stop x y

theorem Decoding.tracks_ofReading {α : Type} {R Q : Cursor → Cursor → Prop} {stop : Fault → Prop}
    {x y : Reading α} (h : Reading.Tracks R Q stop x y) :
    Decoding.Tracks R Q stop (Decoding.ofReading x) (Decoding.ofReading y) := by
  intro s t hst
  have ho := h s.cursor t.cursor hst.cursor
  simp only [Decoding.ofReading]
  generalize x s.cursor = p at ho ⊢
  generalize y t.cursor = q at ho ⊢
  cases ho with
  | ok hq => exact .ok ⟨hq, hst.heap, hst.stack, hst.events⟩
  | error _ => exact .error ⟨trivial, hst.heap, hst.stack, hst.events⟩
  | stopped hs => exact .stopped hs

theorem Decoding.tracks_intern {R : Cursor → Cursor → Prop} {stop : Fault → Prop} (text : Bytes) :
    Decoding.Tracks R R stop (Decoding.intern text) (Decoding.intern text) := by
  rintro s t ⟨hc, hh, hs, he⟩
  simp only [Decoding.intern, hh]
  exact .ok ⟨hc, rfl, hs, he⟩

theorem Decoding.tracks_push {R : Cursor → Cursor → Prop} {stop : Fault → Prop} (p : Prototype)
    (d : Nat) : Decoding.Tracks R R stop (Decoding.push p d) (Decoding.push p d) := by
  rintro s t ⟨hc, hh, hs, he⟩
  exact .ok ⟨hc, hh, congrArg ((p, d) :: ·) hs, he⟩

theorem Decoding.tracks_pop? {R : Cursor → Cursor → Prop} {stop : Fault → Prop} :
    Decoding.Tracks R R stop Decoding.pop? Decoding.pop? := by
  rintro ⟨_, _, stack, _⟩ ⟨_, _, _, _⟩ ⟨hc, hh, rfl, he⟩
  cases stack <;> exact .ok ⟨hc, hh, rfl, he⟩

theorem Decoding.tracks_note {R : Cursor → Cursor → Prop} {stop : Fault → Prop} (e : Event) :
    Decoding.Tracks R R stop (Decoding.note e) (Decoding.note e) := by
  rintro s t ⟨hc, hh, hs, he⟩
  exact .ok ⟨hc, hh, hs, congrArg (e :: ·) he⟩

/-- The congruence of decodes in lockstep. -/
def Lockstep.decoding {R : Cursor → Cursor → Prop} {stop : Fault → Prop} (L : Lockstep R stop) :
    StackCongruence L.reading where
  rel := Decoding.Tracks R R stop
  offsets := Eq
  offsets_add := Congruence.eq_add
  pure := Tracks.pure
  bind := Tracks.bind
  failAt := by
    rintro _ i _ rfl fault -
    exact Tracks.failAt (fun _ _ h ↦ h.mono fun _ ↦ trivial) i fault
  ofReading := Decoding.tracks_ofReading
  position h := fun s t hst ↦ h _ _ (L.position hst.cursor) s t hst
  intern := Decoding.tracks_intern
  pop? := Decoding.tracks_pop?
  note := Decoding.tracks_note

/-- Rounds in lockstep make runs in lockstep. -/
theorem Decoding.tracks_records {R : Cursor → Cursor → Prop} {stop : Fault → Prop}
    (hR : ∀ c d, R c d → c.position = d.position)
    {next next' : Decoding (Option (Prototype × Nat))}
    (h : Decoding.Tracks R R stop next next') (rounds : Nat) :
    Decoding.Tracks R R stop (records next rounds) (records next' rounds) := by
  induction rounds with
  | zero => exact Decoding.tracks_ofReading (Reading.tracks_fail hR _)
  | succ rounds ih =>
    apply Tracks.bind h
    intro r
    rcases r with _ | ⟨p, d⟩
    · exact Tracks.pure ()
    · exact Tracks.bind (Decoding.tracks_push p d) fun _ ↦ ih

end JitDump
