import JitDump.Proofs.Congruence
import JitDump.Proofs.Delivery
import JitDump.Proofs.Varints

/-!
# What an operation takes from the input

When an operation succeeds it has consumed some bytes, and nothing else of the
input had a say in it: before any other bytes, in any source, it consumes the
same bytes and returns the same value.  So a success is a fact about a byte
string, `Takes`, and no longer about a cursor; and the facts about the parts of
an operation append as the parts do.
-/

namespace JitDump

open Cursor

namespace Reading

variable {α β : Type} {x y : Reading α} {f g : α → Reading β} {a : α} {b : β} {u v : Bytes}
variable {c c' : Cursor}

/-- `x` consumes the bytes `u` and returns `a`, whatever stands behind them. -/
def Takes (x : Reading α) (u : Bytes) (a : α) : Prop :=
  ∀ c rest, c.pending = u ++ rest → u.length ≤ maxBuffer → ∃ c', x c = .ok a c' ∧ c.Advances u c'

theorem takes_pure (a : α) : Takes (pure a) [] a := fun c _ _ _ ↦ ⟨c, rfl, .refl c⟩

theorem Takes.bind (h : Takes x u a) (h' : Takes (f a) v b) : Takes (x >>= f) (u ++ v) b := by
  intro c rest hp hl
  simp only [List.length_append] at hl
  obtain ⟨c₁, hx, ha⟩ := h c (v ++ rest) (by rw [hp, List.append_assoc]) (by omega)
  have hp' : c₁.pending = v ++ rest := ha.pending_of_append (by rw [hp, List.append_assoc])
  obtain ⟨c₂, hf, ha'⟩ := h' c₁ rest hp' (by omega)
  exact ⟨c₂, Fallible.bind_eq_ok.2 ⟨a, c₁, hx, hf⟩, ha.trans ha'⟩

theorem Takes.map (h : Takes x u a) (f : α → β) : Takes (f <$> x) u (f a) := by
  have h' := h.bind (f := fun a ↦ pure (f a)) (takes_pure (f a))
  rwa [List.append_nil] at h'

theorem takes_position {f : Nat → Reading β} (h : ∀ i, Takes (f i) u b) :
    Takes (position >>= f) u b := fun c rest hp hl ↦ h c.position c rest hp hl

theorem takes_block (u : Bytes) : Takes (block u.length) u u := by
  intro c rest hp hl
  have ht : c.pending.take u.length = u := by rw [hp, List.take_left]
  have h := block_eq_ok hl (c := c) (by rw [hp, List.length_append]; omega)
  rwa [ht] at h

/-- The bytes of a number are read as they stand, however many they are. -/
theorem groupsFrom_eq_ok {rest : Bytes} (h : Varint.Whole u) (done : Bytes)
    (hp : c.pending = u ++ rest) :
    ∃ c', groupsFrom done c = .ok (done.reverse ++ u) c' ∧ c.Advances u c' := by
  induction h generalizing done c with
  | @last w hw =>
    obtain ⟨c', hb, ha⟩ := byte_eq_ok hp
    refine ⟨c', ?_, ha⟩
    rw [groupsFrom_eq, hb]
    simp [hw]
  | @more w u hw _ ih =>
    have hp₁ : c.pending = w :: (u ++ rest) := hp
    obtain ⟨c', hb, ha⟩ := byte_eq_ok hp₁
    obtain ⟨c₂, hg, ha'⟩ := ih (w :: done) (ha.pending_of_append hp)
    refine ⟨c₂, ?_, ha.trans ha'⟩
    rw [groupsFrom_eq, hb]
    simpa [hw] using hg

theorem takes_groupsFrom (h : Varint.Whole u) (done : Bytes) :
    Takes (groupsFrom done) u (done.reverse ++ u) := fun _ _ hp _ ↦ groupsFrom_eq_ok h done hp

/-- The bytes of a number are those that a number takes. -/
theorem of_groupsFrom_eq_ok {done w : Bytes} (h : groupsFrom done c = .ok w c') :
    ∃ u, Varint.Whole u ∧ w = done.reverse ++ u ∧ c.Advances u c' := by
  fun_induction groupsFrom done c with
  | case1 done c b c₁ hb _ hw ih =>
    obtain ⟨u, hu, rfl, ha⟩ := ih h
    exact ⟨b :: u, .more hw hu, by simp, (of_byte_eq_ok hb).trans ha⟩
  | case2 done c b c₁ hb _ hw =>
    cases h
    exact ⟨[b], .last (by simpa using hw), by simp, of_byte_eq_ok hb⟩
  | case3 => cases h

theorem takes_varint (h : Varint.Whole u) : Takes varint u (Varint.value u) :=
  (takes_groupsFrom h []).map Varint.value

theorem takes_taggedVarint (h : Varint.Whole u) : Takes taggedVarint u (Varint.taggedValue u) :=
  (takes_groupsFrom h []).map Varint.taggedValue

theorem of_varint_eq_ok {n : UInt32} (h : varint c = .ok n c') :
    ∃ u, Varint.Whole u ∧ n = Varint.value u ∧ c.Advances u c' := by
  obtain ⟨w, c₁, hg, hv⟩ := Fallible.bind_eq_ok.1 h
  obtain ⟨u, hu, hw, ha⟩ := of_groupsFrom_eq_ok hg
  cases hv
  exact ⟨u, hu, congrArg Varint.value hw, ha⟩

/-- Whenever `x` succeeds, `y` takes the bytes that `x` has consumed to the same value. -/
def Local (x y : Reading α) : Prop :=
  ∀ c a c', x c = .ok a c' → ∃ u, c.Advances u c' ∧ Takes y u a

theorem Local.bind (h : Local x y) (h' : ∀ a, Local (f a) (g a)) : Local (x >>= f) (y >>= g) := by
  intro c b c₂ hb
  obtain ⟨a, c₁, hx, hf⟩ := Fallible.bind_eq_ok.1 hb
  obtain ⟨u, ha, ht⟩ := h c a c₁ hx
  obtain ⟨v, ha', ht'⟩ := h' a c₁ b c₂ hf
  exact ⟨u ++ v, ha.trans ha', ht.bind ht'⟩

/-- The congruence of locality: a success never depends on where it stands, so offsets are free. -/
def locality : ReadingCongruence where
  rel := Local
  offsets _ _ := True
  offsets_add _ _ := trivial
  pure a := by
    rintro c _ _ ⟨⟩
    exact ⟨[], .refl c, takes_pure a⟩
  bind := Local.bind
  failAt := by rintro _ _ _ _ _ _ _ _ _ ⟨⟩
  block n := by
    intro c u c' h
    obtain ⟨rfl, ha⟩ := of_block_eq_ok h
    exact ⟨_, ha, takes_block _⟩
  groups := by
    intro c w c' h
    obtain ⟨u, hu, hw, ha⟩ := of_groupsFrom_eq_ok h
    exact ⟨u, ha, hw ▸ takes_groupsFrom hu []⟩
  position h := by
    intro c a c' hf
    obtain ⟨u, ha, -⟩ := h c.position c.position trivial c a c' hf
    refine ⟨u, ha, takes_position fun j ↦ ?_⟩
    obtain ⟨v, ha', ht⟩ := h c.position j trivial c a c' hf
    have : u = v := List.append_cancel_right (ha.pending.symm.trans ha'.pending)
    exact this ▸ ht
  rejects := by
    intro _ x _ i _ fault _ hx _ _ c a c' h
    obtain ⟨c₁, he⟩ := hx c
    rw [he] at h
    cases h

end Reading

/-! ## Decodes

What an operation of a decode does to the heap, the stack and the events is as independent of the
rest of the input as its value is. -/

namespace Decoding

open Container

variable {α β : Type} {x y : Decoding α} {f g : α → Decoding β} {a : α} {b : β} {u v : Bytes}
variable {s t r : Session}

theorem ofReading_eq_ok_iff {x : Reading α} :
    ofReading x s = .ok a t ↔ ∃ c, x s.cursor = .ok a c ∧ t = { s with cursor := c } := by
  simp only [ofReading]
  constructor
  · intro h
    split at h
    · cases h
      exact ⟨_, ‹_›, rfl⟩
    · cases h
  · rintro ⟨c, h, rfl⟩
    rw [h]

/-- A reading that succeeds moves the cursor of a session and nothing else. -/
theorem ofReading_eq_ok {x : Reading α} {c : Cursor} (h : x s.cursor = .ok a c) :
    ofReading x s = .ok a { s with cursor := c } := ofReading_eq_ok_iff.2 ⟨c, h, rfl⟩

theorem ofReading_eq_error {x : Reading α} {e : Failure} {c : Cursor}
    (h : x s.cursor = .error e c) : ofReading x s = .error e { s with cursor := c } := by
  simp only [ofReading, h]

/-- `x` consumes the bytes `u`, returns `a` and turns a session `s` into `t`, but for their cursors,
whatever stands behind the bytes. -/
def Takes (x : Decoding α) (s : Session) (u : Bytes) (a : α) (t : Session) : Prop :=
  ∀ c rest, c.pending = u ++ rest → u.length ≤ maxBuffer →
    ∃ c', x { s with cursor := c } = .ok a { t with cursor := c' } ∧ c.Advances u c'

theorem takes_pure (a : α) (s : Session) : Takes (pure a) s [] a s := fun c _ _ _ ↦
  ⟨c, rfl, .refl c⟩

theorem Takes.bind (h : Takes x s u a r) (h' : Takes (f a) r v b t) :
    Takes (x >>= f) s (u ++ v) b t := by
  intro c rest hp hl
  simp only [List.length_append] at hl
  obtain ⟨c₁, hx, ha⟩ := h c (v ++ rest) (by rw [hp, List.append_assoc]) (by omega)
  have hp' : c₁.pending = v ++ rest := ha.pending_of_append (by rw [hp, List.append_assoc])
  obtain ⟨c₂, hf, ha'⟩ := h' c₁ rest hp' (by omega)
  exact ⟨c₂, Fallible.bind_eq_ok.2 ⟨a, _, hx, hf⟩, ha.trans ha'⟩

theorem takes_ofReading {x : Reading α} (h : x.Takes u a) (s : Session) :
    Takes (ofReading x) s u a s := by
  intro c rest hp hl
  obtain ⟨c', hx, ha⟩ := h c rest hp hl
  exact ⟨c', ofReading_eq_ok hx, ha⟩

theorem takes_position {f : Nat → Decoding β} (h : ∀ i, Takes (f i) s u b t) :
    Takes (ofReading Reading.position >>= f) s u b t :=
  fun c rest hp hl ↦ h c.position c rest hp hl

/-- An operation that leaves the cursor alone takes no bytes. -/
theorem takes_nil (h : ∀ c, x { s with cursor := c } = .ok a { t with cursor := c }) :
    Takes x s [] a t := fun c _ _ _ ↦ ⟨c, h c, .refl c⟩

/-- Whenever `x` succeeds, `y` takes the bytes that `x` has consumed to the same value and to the
same session. -/
def Local (x y : Decoding α) : Prop :=
  ∀ s a t, x s = .ok a t → ∃ u, s.cursor.Advances u t.cursor ∧ Takes y s u a t

theorem Local.bind (h : Local x y) (h' : ∀ a, Local (f a) (g a)) : Local (x >>= f) (y >>= g) := by
  intro s b t hb
  obtain ⟨a, r, hx, hf⟩ := Fallible.bind_eq_ok.1 hb
  obtain ⟨u, ha, ht⟩ := h s a r hx
  obtain ⟨v, ha', ht'⟩ := h' a r b t hf
  exact ⟨u ++ v, ha.trans ha', ht.bind ht'⟩

theorem local_ofReading {x y : Reading α} (h : x.Local y) : Local (ofReading x) (ofReading y) := by
  intro s a t hx
  obtain ⟨c, hx', rfl⟩ := ofReading_eq_ok_iff.1 hx
  obtain ⟨u, ha, ht⟩ := h s.cursor a c hx'
  exact ⟨u, ha, takes_ofReading ht s⟩

theorem local_intern (text : Bytes) : Local (intern text) (intern text) := by
  rintro s a t ⟨⟩
  exact ⟨[], .refl _, takes_nil fun _ ↦ rfl⟩

theorem local_pop? : Local pop? pop? := by
  rintro ⟨cursor, heap, stack, events⟩ a t h
  cases stack <;> cases h <;> exact ⟨[], .refl _, takes_nil fun _ ↦ rfl⟩

theorem local_note (e : Event) : Local (note e) (note e) := by
  rintro s a t ⟨⟩
  exact ⟨[], .refl _, takes_nil fun _ ↦ rfl⟩

theorem local_position {f g : Nat → Decoding β} (h : ∀ i j, Local (f i) (g j)) :
    Local (ofReading Reading.position >>= f) (ofReading Reading.position >>= g) := by
  intro s b t hf
  obtain ⟨u, ha, -⟩ := h s.cursor.position 0 s b t hf
  refine ⟨u, ha, takes_position fun j ↦ ?_⟩
  obtain ⟨v, ha', ht⟩ := h s.cursor.position j s b t hf
  have : u = v := List.append_cancel_right (ha.pending.symm.trans ha'.pending)
  exact this ▸ ht

def locality : StackCongruence Reading.locality where
  rel := Local
  offsets _ _ := True
  offsets_add _ _ := trivial
  pure a := by
    rintro s _ _ ⟨⟩
    exact ⟨[], .refl _, takes_pure a s⟩
  bind := Local.bind
  failAt := by rintro _ _ _ _ _ _ _ _ _ ⟨⟩
  ofReading := local_ofReading
  position h := local_position fun i j ↦ h i j trivial
  intern := local_intern
  pop? := local_pop?
  note := local_note

end Decoding

/-- A record that decodes is a fact about its own bytes. -/
theorem Container.record_takes {ctx : Context} {s t : Session} {r : Prototype × Nat}
    (h : record ctx s = .ok r t) :
    ∃ u, s.cursor.Advances u t.cursor ∧ Decoding.Takes (record ctx) s u r t :=
  Decoding.locality.record ctx s r t h

end JitDump
