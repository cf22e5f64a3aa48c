import JitDump.Proofs.Prefixes

/-!
# Sources that fail

A source may hand out the beginning of some input and then fail.  Against the
whole input a decode of it goes the same way up to the failure, so it is the
lockstep of an input with its continuation once more: it ends in the failure of
the source or as the whole input ends it.  That a decode never takes the failure
for the end of the input is a property of the one run.
-/

namespace JitDump

open Container

variable {σ α β : Type} {cause : String}

/-- What an operation may come to in front of a source that fails: the source still fails behind what
was read, or the operation failed, but not for want of input. -/
def Fallible.CandidResult (closing : σ → Ending) (cause : String) :
    EStateM.Result Failure σ α → Prop
  | .ok _ t => closing t = .failing cause
  | .error e _ => e.fault ≠ .truncatedInput

/-- An operation that does not take the failure of a source for the end of the input. -/
def Fallible.Candid (closing : σ → Ending) (cause : String) (x : Fallible σ α) : Prop :=
  ∀ s, closing s = .failing cause → CandidResult closing cause (x s)

theorem Fault.Found.ne_truncatedInput {fault : Fault} (h : fault.Found) :
    fault ≠ .truncatedInput := by
  rintro rfl
  exact h

theorem Cursor.shortage_ne_truncatedInput {c : Cursor} (h : c.closing = .failing cause) (n : Nat) :
    c.shortage n ≠ .truncatedInput := by
  rw [shortage, h]
  split <;> simp

namespace Fallible

variable {closing : σ → Ending} {x : Fallible σ α} {f : α → Fallible σ β}

theorem candid_pure (a : α) : Candid closing cause (pure a : Fallible σ α) := fun _ h ↦ h

theorem CandidResult.bind {s : σ} (h : CandidResult closing cause (x s))
    (h' : ∀ a, Candid closing cause (f a)) : CandidResult closing cause ((x >>= f) s) := by
  simp only [Bind.bind, EStateM.bind]
  cases hx : x s with
  | ok a t =>
    rw [hx] at h
    exact h' a t h
  | error e t =>
    rw [hx] at h
    exact h

theorem Candid.bind (h : Candid closing cause x) (h' : ∀ a, Candid closing cause (f a)) :
    Candid closing cause (x >>= f) := fun s hs ↦ (h s hs).bind h'

theorem candid_get {f : σ → Fallible σ β}
    (h : ∀ s, closing s = .failing cause → CandidResult closing cause (f s s)) :
    Candid closing cause (MonadState.get >>= f) := h

theorem candid_failAt {fault : Fault} (h : fault ≠ .truncatedInput) (i : Nat) :
    Candid closing cause (failAt i fault : Fallible σ α) := fun _ _ ↦ h

section Runs

variable {s t : σ} {a : α} {e : Failure}

theorem Candid.of_ok (h : Candid closing cause x) (hs : closing s = .failing cause)
    (hx : x s = .ok a t) : closing t = .failing cause := by
  have hr := h s hs
  rwa [hx] at hr

theorem Candid.of_error (h : Candid closing cause x) (hs : closing s = .failing cause)
    (hx : x s = .error e t) : e.fault ≠ .truncatedInput := by
  have hr := h s hs
  rwa [hx] at hr

end Runs

end Fallible

open Fallible

/-! ## Readings -/

namespace Reading

abbrev Candid {α : Type} (cause : String) (x : Reading α) : Prop :=
  Fallible.Candid Cursor.closing cause x

theorem candid_need (n : Nat) : Candid cause (need n) := by
  intro c hc
  cases h : need n c with
  | ok u c' => exact (of_need_eq_ok h).2.1.closing.trans hc
  | error e c' =>
    rw [of_need_eq_error h]
    exact Cursor.shortage_ne_truncatedInput hc n

theorem candid_block (n : Nat) : Candid cause (block n) := by
  intro c hc
  cases h : block n c with
  | ok u c' => exact (of_block_eq_ok h).2.closing.trans hc
  | error e c' =>
    rw [of_block_eq_error h]
    exact Cursor.shortage_ne_truncatedInput hc n

theorem candid_skip (n : Nat) : Candid cause (skip n) := by
  intro c hc
  simp only [skip]
  cases h : need n c with
  | ok u c' =>
    have hc' := (candid_need n).of_ok hc h
    exact hc'
  | error e c' => exact (candid_need n).of_error hc h

theorem candid_byte : Candid cause byte := by
  intro c hc
  cases hp : c.pending with
  | cons b rest =>
    obtain ⟨c', h, ha⟩ := byte_eq_ok hp
    rw [h]
    exact ha.closing.trans hc
  | nil =>
    obtain ⟨c', h⟩ := byte_eq_error hp
    rw [h]
    exact Cursor.shortage_ne_truncatedInput hc 1

/-- By induction on what the cursor has left. -/
theorem candid_groupsFrom (done : Bytes) : Candid cause (groupsFrom done) := by
  intro c hc
  induction hn : c.undelivered using Nat.strongRecOn generalizing c done with
  | ind n ih =>
    rw [groupsFrom_eq done c]
    cases h : byte c with
    | ok b c' =>
      have hc' := candid_byte.of_ok hc h
      dsimp only
      by_cases hb : Varint.continues b
      · rw [if_pos hb]
        exact ih _ (hn ▸ byte_undelivered h) (b :: done) c' hc' rfl
      · rw [if_neg hb]
        exact hc'
    | error e c' => exact candid_byte.of_error hc h

theorem candid_want {n : Nat} (hn : n ≤ Cursor.maxBuffer) : Candid cause (want n) := by
  intro c hc
  by_cases hp : n ≤ c.pending.length
  · obtain ⟨c', h, ha, -⟩ := want_eq_ok hn (.inl hp)
    rw [h]
    exact ha.closing.trans hc
  · obtain ⟨c', h⟩ := want_eq_error hn (Nat.not_le.1 hp) hc
    rw [h]
    exact Fault.noConfusion

end Reading

/-- The congruence of not taking a failing source for an input that is over. -/
def candor (cause : String) : ReadingCongruence where
  rel x _ := Reading.Candid cause x
  offsets _ _ := True
  offsets_add _ _ := trivial
  pure := candid_pure
  bind := Candid.bind
  failAt _ _ hf := candid_failAt hf.ne_truncatedInput _
  block := Reading.candid_block
  groups := Reading.candid_groupsFrom []
  position h := fun c ↦ h c.position c.position trivial c
  rejects := by
    intro _ x _ _ _ fault _ hx _ hf c _
    obtain ⟨c', hc⟩ := hx c
    rw [hc]
    exact hf.ne_truncatedInput

namespace Container

open Reading

theorem candid_prologue : Reading.Candid cause prologue := by
  refine (candid_want (by decide)).bind fun _ ↦ candid_get fun c hc ↦ ?_
  refine (?_ : Reading.Candid cause _) c hc
  split
  · refine (candid_block 4).bind fun found ↦ ?_
    split
    · exact candid_pure ()
    · exact candid_failAt (by simp) 0
  · exact (candid_block _).bind fun found ↦ candid_failAt (by simp) 0

/-- Where a failing source lets an operation look ahead for a byte, there is one. -/
theorem candid_nextLength : Reading.Candid cause nextLength := by
  intro c hc
  rw [nextLength]
  cases hw : want 1 c with
  | error e c' =>
    rw [bind_of_error hw]
    exact (candid_want (by decide)).of_error hc hw
  | ok _ c' =>
    obtain ⟨ha, hl⟩ := of_want_eq_ok (by decide) hw
    have hp : 1 ≤ c.pending.length := by
      refine (length_le_of_want (by decide) hw).resolve_right ?_
      rw [hc]
      exact Ending.noConfusion
    rw [← ha.pending_eq] at hl hp
    obtain ⟨b, rest, hcons⟩ := List.exists_cons_of_length_pos hp
    rw [bind_of_ok hw]
    simp only [bind, EStateM.bind, peek, head?_buffer hl, hcons, List.head?_cons]
    refine (?_ : Reading.Candid cause _) c' (ha.closing.trans hc)
    split
    · exact (candid_skip 1).bind fun _ ↦ candid_pure _
    · refine (candid_want (by decide)).bind fun _ ↦ ?_
      refine Candid.bind (candor cause).varint fun length ↦ ?_
      split
      · exact candid_pure _
      · exact (candid_need _).bind fun _ ↦ candid_pure _

end Container

/-! ## Decodes -/

abbrev Decoding.Candid {α : Type} (cause : String) (x : Decoding α) : Prop :=
  Fallible.Candid (fun s : Session ↦ s.cursor.closing) cause x

theorem Decoding.candid_ofReading {x : Reading α} (h : Reading.Candid cause x) :
    Decoding.Candid cause (Decoding.ofReading x) := by
  intro s hs
  simp only [Decoding.ofReading]
  cases hx : x s.cursor with
  | ok a c => exact h.of_ok hs hx
  | error e c => exact h.of_error hs hx

/-- The congruence of not taking a failing source for an input that is over, for decodes. -/
def Decoding.candor (cause : String) : StackCongruence (JitDump.candor cause) where
  rel x _ := Decoding.Candid cause x
  offsets _ _ := True
  offsets_add _ _ := trivial
  pure := candid_pure
  bind := Candid.bind
  failAt _ _ hf := candid_failAt hf.ne_truncatedInput _
  ofReading := Decoding.candid_ofReading
  position h := fun s ↦ h s.cursor.position s.cursor.position trivial s
  intern _ := fun _ hs ↦ hs
  pop? := by
    rintro ⟨_, _, stack, _⟩ hs
    cases stack <;> exact hs
  note _ := fun _ hs ↦ hs

namespace Container

open Decoding (candid_ofReading)

theorem candid_header (options : Options) (name : Bytes) :
    Decoding.Candid cause (header options name) :=
  (Decoding.candor cause).header candid_prologue options name

theorem candid_nextRecord (ctx : Context) : Decoding.Candid cause (nextRecord ctx) := by
  refine (candid_ofReading candid_nextLength).bind fun length? ↦ ?_
  cases length? with
  | none => exact candid_pure none
  | some length =>
    refine Candid.bind (x := Decoding.ofReading Reading.position) (fun _ hs ↦ hs) fun start ↦ ?_
    refine Candid.bind ((Decoding.candor cause).record ctx) fun r ↦ ?_
    refine Candid.bind (x := Decoding.ofReading Reading.position) (fun _ hs ↦ hs) fun stop ↦ ?_
    dsimp only
    split
    · exact Candid.bind (x := Decoding.note _) (fun _ hs ↦ hs) fun _ ↦ candid_pure _
    · exact candid_failAt (by simp) _

/-- The rounds never run out, which would be reported as want of input. -/
theorem candid_records (ctx : Context) {s : Session} {rounds : Nat}
    (hs : s.cursor.closing = .failing cause) (hr : s.cursor.pending.length < rounds) :
    CandidResult (·.cursor.closing) cause (records (nextRecord ctx) rounds s) := by
  induction rounds generalizing s with
  | zero => omega
  | succ rounds ih =>
    rw [records_succ]
    cases hn : nextRecord ctx s with
    | error e t => exact (candid_nextRecord ctx).of_error hs hn
    | ok r t =>
      have ht := (candid_nextRecord ctx).of_ok hs hn
      have hlt := (nextRecord_eq_ok_iff.1 hn).pending_lt
      rcases r with _ | ⟨p, d⟩
      · exact ht
      · refine ih (s := t.push p d) ht ?_
        simp only [Session.push]
        omega

theorem candid_root : Decoding.Candid cause root := by
  refine (candid_ofReading (Reading.candid_want (by decide))).bind fun _ ↦ candid_get fun s hs ↦ ?_
  refine (?_ : Decoding.Candid cause _) s hs
  split
  · exact candid_pure _
  · exact candid_ofReading fun _ _ ↦ Fault.noConfusion

theorem candid_container (options : Options) (name : Bytes) :
    Decoding.Candid cause (container options name) := by
  refine (candid_header options name).bind fun h ↦ ?_
  refine Candid.bind (x := Decoding.note _) (fun _ hs ↦ hs) fun _ ↦ candid_get fun s hs ↦ ?_
  have hle := s.cursor.length_pending_le
  exact (candid_records _ hs (by omega)).bind fun _ ↦ candid_root

/-- A root is given only where the input is over. -/
theorem closing_of_root_eq_ok {s t : Session} {p : Prototype} (h : root s = .ok p t) :
    s.cursor.closing = .finished := by
  obtain ⟨hp, -⟩ := of_root_eq_ok h
  obtain ⟨_, _, hw, -⟩ := Fallible.bind_eq_ok.1 h
  obtain ⟨_, hw, -⟩ := Decoding.ofReading_eq_ok_iff.1 hw
  refine (Reading.length_le_of_want (by decide) hw).resolve_left fun hl ↦ ?_
  rw [hp] at hl
  exact absurd hl (by decide)

/-- A tree is given only where no read has failed in front of the end of the input. -/
theorem closing_of_decode_eq_ok {options : Options} {heap : Heap} {source : Source} {name : String}
    {p : Prototype} (h : (decode options heap source name).result = .ok p) :
    source.closing = .finished := by
  obtain ⟨t, h⟩ := Decoded.ofRun_eq_ok.1 h
  obtain ⟨hd, s₁, s₂, hh, hr, hroot⟩ := containerBy_eq_ok_iff.1 h
  cases hc : source.closing with
  | finished => rfl
  | failing cause =>
    have hs₀ : (Session.start heap source).cursor.closing = .failing cause := hc
    have hs₁ := (candid_header options (Utf8.encode name)).of_ok hs₀ hh
    have hle := s₁.cursor.length_pending_le
    have hrecords := candid_records (hd.context options) (s := s₁.opened hd) hs₁
      (Nat.lt_succ_of_le hle)
    rw [hr] at hrecords
    cases hrecords.symm.trans (closing_of_root_eq_ok hroot)

/-- A decode from a source that fails behind the beginning of some input never gives a tree, and
never takes the failure for the end of the input: it fails with the failure of the source, or
exactly as a decode of the whole input does. -/
theorem decode_failing (options : Options) (heap : Heap) (name : String) {data : Bytes} {k : Nat}
    {source : Source} (hl : data.length < Cursor.maxBuffer)
    (hd : source.delivered = data.take k) (hc : source.closing = .failing cause) :
    ∃ e, (decode options heap source name).result = .error e ∧ e.fault ≠ .truncatedInput ∧
      (e.fault = .io cause ∨ (decode options heap (.ofBytes data) name).result = .error e) := by
  have hcont : Cursor.Continued (.failing cause) (data.drop k) (.ofSource source)
      (.ofSource (.ofBytes data)) := ⟨by simp [hd], rfl, hc, by simp, by simpa using hl⟩
  have hparting := container_parting options (Utf8.encode name) (by simp)
    (s := .start heap source) (t := .start heap (.ofBytes data))
    ⟨⟨hcont, by simp⟩, rfl, rfl, rfl⟩
  have hcandid := candid_container options (Utf8.encode name) (.start heap source) hc
  unfold decode
  generalize container options (Utf8.encode name) (.start heap source) = r at hparting hcandid ⊢
  generalize container options (Utf8.encode name) (.start heap (.ofBytes data)) = r' at hparting ⊢
  cases hparting with
  | completed _ hf => cases hf
  | alike => exact ⟨_, rfl, hcandid, .inr rfl⟩
  | cut he => exact ⟨_, rfl, hcandid, .inl he⟩

/-- A source that stops inside the record of a container, with an interruption on the way, and one
that stops only behind the flags that the decoder refuses. -/
theorem decode_failing_empty_record :
    (∃ e, (decode .default .new ⟨[.bytes [0x1b, 0x4c], .interrupted, .bytes [0x4a, 2, 2, 7, 0]],
        .failing "unplugged"⟩ "a").result = .error e ∧ e.fault ≠ .truncatedInput ∧
      (e.fault = .io "unplugged" ∨ (decode .default .new
        (.ofBytes [0x1b, 0x4c, 0x4a, 2, 2, 7, 0, 0, 0, 0, 0, 0, 0, 0]) "a").result = .error e)) ∧
    (∃ e, (decode .default .new ⟨[.bytes [0x1b, 0x4c, 0x4a, 2], .bytes [8, 0, 0, 0, 0, 0, 0, 0, 0, 0]],
        .failing "unplugged"⟩ "a").result = .error e ∧ e.fault ≠ .truncatedInput ∧
      (e.fault = .io "unplugged" ∨ (decode .default .new
        (.ofBytes [0x1b, 0x4c, 0x4a, 2, 8, 0, 0, 0, 0, 0, 0, 0, 0, 0, 1]) "a").result = .error e)) :=
  ⟨decode_failing .default .new "a" (k := 7) (by decide) (by decide) rfl,
    decode_failing .default .new "a" (k := 14) (by decide) (by decide) rfl⟩

end Container

end JitDump
