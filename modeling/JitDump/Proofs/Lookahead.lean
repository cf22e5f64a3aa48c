import JitDump.Proofs.Locality

/-!
# How far a decode reads ahead

A read of the source has a fixed size, so the buffer of a cursor may come to hold
more than was asked for, but less than a read more.  All that a record asks for it
also consumes; what is asked for ahead of that is the length of the next record
and the head of a container, and these are short.  So between two records the
buffer holds little more than a read, and what the buffer is not allowed to hold
is never there by chance.
-/

namespace JitDump

namespace Source

theorem size_le_of_read {limit : Nat} {s t : Source} {turn : Turn}
    (h : s.read limit = (turn, t)) : turn.size ≤ limit := by
  match s with
  | ⟨[], .finished⟩ | ⟨[], .failing _⟩ | ⟨.interrupted :: _, _⟩ | ⟨.failed _ :: _, _⟩ =>
    simp only [read, Prod.mk.injEq] at h
    obtain ⟨rfl, rfl⟩ := h
    exact Nat.zero_le limit
  | ⟨.bytes piece :: later, ending⟩ =>
    simp only [read] at h
    split at h <;> simp only [Prod.mk.injEq] at h <;> obtain ⟨rfl, rfl⟩ := h
    · rename_i heq
      exact List.drop_eq_nil_iff.1 heq
    · exact List.length_take_le _ _

/-- Asking stops with the first read that brings enough. -/
theorem length_pullFrom_le (limit : Nat) (pieces : List Bytes) (n : Nat) (s : Source) :
    (pullFrom limit pieces n s).bytes.length ≤
      pieces.flatten.length + if n = 0 then 0 else n - 1 + limit := by
  fun_induction pullFrom limit pieces n s with
  | case3 pieces n s hn b piece t h _ ih =>
    have hk : (b :: piece).length ≤ limit := size_le_of_read h
    rw [List.flatten_cons, List.length_append] at ih
    rw [if_neg hn]
    split at ih <;> omega
  | case4 pieces n s hn t h _ ih => exact ih
  | _ => simp [List.sum_reverse]

end Source

namespace Cursor

/-- How far into its input a cursor has read. -/
def reach (c : Cursor) : Nat := c.position + c.buffer.length

/-- How many bytes may be asked for ahead of those that are consumed, and a read more. -/
def lookahead : Nat := 4 + 5 + 5 + refillChunk

/-- `c'` is behind `c` in the input, and where it has read further, it is not far ahead of where it
stands. -/
structure Precedes (c c' : Cursor) : Prop where
  position : c.position ≤ c'.position
  reach : c'.reach ≤ max c.reach (c'.position + lookahead)

variable {c c₁ c' : Cursor} {n : Nat}

theorem Precedes.refl (c : Cursor) : c.Precedes c := ⟨Nat.le_refl _, Nat.le_max_left _ _⟩

theorem Precedes.trans (h : c.Precedes c₁) (h' : c₁.Precedes c') : c.Precedes c' where
  position := h.position.trans h'.position
  reach := by
    have := h.reach
    have := h'.reach
    have := h'.position
    omega

/-- A cursor whose buffer holds no more than looking ahead brings. -/
def Shallow (c : Cursor) : Prop := c.buffer.length ≤ lookahead

theorem Precedes.shallow (h : c.Precedes c') (hc : c.Shallow) : c'.Shallow := by
  have := h.position
  have := h.reach
  unfold Shallow Cursor.reach at *
  omega

theorem shallow_ofSource (s : Source) : (ofSource s).Shallow := Nat.zero_le _

end Cursor

/-! ## Readings -/

namespace Reading

open Cursor

variable {α β : Type} {x : Reading α} {f : α → Reading β} {c c' : Cursor} {n : Nat}

theorem reach_of_fill (h : fill n c = .ok () c') :
    c'.position = c.position ∧ c'.reach ≤ max c.reach (c.position + n + refillChunk) := by
  have hadd := Source.length_pullFrom_le refillChunk [] (n - c.buffer.length) c.source
  rw [List.flatten_nil, List.length_nil, Nat.zero_add] at hadd
  simp only [fill, Source.pull] at h
  split at h
  · cases h
  · split at h
    · cases h
      exact ⟨rfl, Nat.le_max_left _ _⟩
    · split at h <;> cases h
      all_goals
        refine ⟨rfl, ?_⟩
        simp only [reach, List.length_append]
        split at hadd <;> omega

theorem reach_of_need (h : need n c = .ok () c') :
    c'.position = c.position ∧ c'.reach ≤ max c.reach (c.position + n + refillChunk) := by
  simp only [need] at h
  split at h
  · cases h
    exact ⟨rfl, Nat.le_max_left _ _⟩
  · split at h
    · rename_i c₁ hf
      split at h <;> cases h
      exact reach_of_fill hf
    · cases h

theorem precedes_of_want (hn : n ≤ 4 + 5 + 5) (h : want n c = .ok () c') : c.Precedes c' := by
  simp only [want] at h
  split at h
  · cases h
    exact .refl c
  · obtain ⟨hp, hr⟩ := reach_of_fill h
    refine ⟨hp.ge, ?_⟩
    unfold lookahead
    omega

/-- What is needed and then consumed is not ahead of where the cursor stands. -/
theorem precedes_of_consume {c₁ : Cursor} (h : need n c = .ok () c₁) :
    c.Precedes { c₁ with buffer := c₁.buffer.drop n, position := c₁.position + n } := by
  obtain ⟨hp, hr⟩ := reach_of_need h
  obtain ⟨-, -, hb⟩ := of_need_eq_ok h
  refine ⟨Nat.le_trans hp.ge (Nat.le_add_right _ _), ?_⟩
  simp only [reach, lookahead, List.length_drop] at *
  omega

/-- `x` consumes what it asks for, up to what may be looked ahead for. -/
def Steady (x : Reading α) : Prop := ∀ c a c', x c = .ok a c' → c.Precedes c'

theorem steady_pure (a : α) : Steady (pure a) := by
  rintro c _ _ ⟨⟩
  exact .refl c

theorem Steady.bind (h : Steady x) (h' : ∀ a, Steady (f a)) : Steady (x >>= f) := by
  intro c b c₂ hb
  obtain ⟨a, c₁, hx, hf⟩ := Fallible.bind_eq_ok.1 hb
  exact (h c a c₁ hx).trans (h' a c₁ b c₂ hf)

theorem steady_want (hn : n ≤ 4 + 5 + 5) : Steady (want n) := fun _ _ _ h ↦ precedes_of_want hn h

theorem steady_block (n : Nat) : Steady (block n) := by
  intro c u c' h
  simp only [block, List.splitAt_eq] at h
  split at h
  · cases h
    exact precedes_of_consume ‹_›
  · cases h

theorem steady_skip (n : Nat) : Steady (skip n) := by
  intro c u c' h
  simp only [skip] at h
  split at h
  · cases h
    exact precedes_of_consume ‹_›
  · cases h

theorem steady_byte : Steady byte := by
  intro c b c' h
  simp only [byte] at h
  split at h
  · rename_i c₁ hn
    have hc := precedes_of_consume hn
    split at h
    · rename_i b' rest hb
      cases h
      rw [hb] at hc
      exact hc
    · cases h
  · cases h

theorem steady_groupsFrom (done : Bytes) : Steady (groupsFrom done) := by
  intro c u c' h
  fun_induction groupsFrom done c with
  | case1 done c b c₁ hb _ _ ih => exact (steady_byte c b c₁ hb).trans (ih h)
  | case2 done c b c₁ hb _ _ =>
    cases h
    exact steady_byte _ _ _ hb
  | case3 => cases h

/-- The congruence of readings that are steady, of which the first of two is. -/
def steadiness : ReadingCongruence where
  rel x _ := Steady x
  offsets _ _ := True
  offsets_add _ _ := trivial
  pure := steady_pure
  bind := Steady.bind
  failAt := by rintro _ _ _ _ _ _ _ _ _ ⟨⟩
  block := steady_block
  groups := steady_groupsFrom []
  position h := fun c b c' hf ↦ h c.position c.position trivial c b c' hf
  rejects := by
    intro _ x _ i _ fault _ hx _ _ c a c' h
    obtain ⟨c₁, he⟩ := hx c
    rw [he] at h
    cases h

theorem steady_varint : Steady varint := steadiness.varint

/-- More than a buffer may hold cannot be had where not much is looked ahead for. -/
theorem need_eq_bufferLimit (hc : c.Shallow) (hn : maxBuffer < n) :
    need n c = .error (c.failure (.bufferLimit n)) c := by
  have hl : lookahead ≤ maxBuffer := by decide
  have hb : ¬ n ≤ c.buffer.length := Nat.not_le.2 (Nat.lt_of_le_of_lt (hc.trans hl) hn)
  simp [need, hb, fill, hn]

theorem block_eq_bufferLimit (hc : c.Shallow) (hn : maxBuffer < n) :
    block n c = .error (c.failure (.bufferLimit n)) c := by
  simp only [block, need_eq_bufferLimit hc hn]

end Reading

/-! ## Decodes -/

namespace Decoding

open Container

variable {α β : Type} {x : Decoding α} {f : α → Decoding β}

/-- The same of an operation of a decode. -/
def Steady (x : Decoding α) : Prop := ∀ s a t, x s = .ok a t → s.cursor.Precedes t.cursor

theorem Steady.bind (h : Steady x) (h' : ∀ a, Steady (f a)) : Steady (x >>= f) := by
  intro s b t hb
  obtain ⟨a, r, hx, hf⟩ := Fallible.bind_eq_ok.1 hb
  exact (h s a r hx).trans (h' a r b t hf)

theorem steady_ofReading {x : Reading α} (h : x.Steady) : Steady (ofReading x) := by
  intro s a t hx
  obtain ⟨c, hx', rfl⟩ := ofReading_eq_ok_iff.1 hx
  exact h s.cursor a c hx'

theorem steady_intern (text : Bytes) : Steady (intern text) := by
  rintro s a t ⟨⟩
  exact .refl _

theorem steady_pop? : Steady pop? := by
  rintro ⟨cursor, heap, stack, events⟩ a t h
  cases stack <;> cases h <;> exact .refl _

theorem steady_note (e : Event) : Steady (note e) := by
  rintro s a t ⟨⟩
  exact .refl _

def steadiness : StackCongruence Reading.steadiness where
  rel x _ := Steady x
  offsets _ _ := True
  offsets_add _ _ := trivial
  pure := by
    rintro _ _ s _ _ ⟨⟩
    exact .refl s.cursor
  bind := Steady.bind
  failAt := by rintro _ _ _ _ _ _ _ _ _ ⟨⟩
  ofReading := steady_ofReading
  position h := fun s b t hf ↦ h s.cursor.position s.cursor.position trivial s b t hf
  intern := steady_intern
  pop? := steady_pop?
  note := steady_note

end Decoding

namespace Container

open Reading

theorem steady_prologue : Steady prologue := by
  apply (steady_want (Nat.le_refl _)).bind
  rintro ⟨⟩ c b c' h
  obtain ⟨_, _, ⟨⟩, h⟩ := Fallible.bind_eq_ok.1 h
  split at h
  · obtain ⟨found, c₁, hb, h⟩ := Fallible.bind_eq_ok.1 h
    split at h <;> cases h
    exact steady_block _ _ _ _ hb
  · obtain ⟨found, c₁, hb, h⟩ := Fallible.bind_eq_ok.1 h
    cases h

theorem steady_header (options : Options) (name : Bytes) :
    Decoding.Steady (header options name) :=
  Decoding.steadiness.header steady_prologue options name

end Container

end JitDump
