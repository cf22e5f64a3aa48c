import JitDump.Proofs.Delivery

/-!
# Trying again

A source may fail and hand out more bytes afterwards.  Taking the failures out of
its turns leaves a source that never fails.  One read either fails, and then
nothing is lost, or it is a read of that source as well; so asking for bytes until
a read fails and asking again for the rest gives what that source gives at once.
A reading is patient if the same is true of it: where the source fails it can be
tried again, and otherwise it does what it does on the source that never fails.
-/

namespace JitDump

/-! ## Sources that never fail -/

/-- Whether a read fails. -/
def Turn.isFailed : Turn → Bool
  | .failed _ => true
  | .bytes _ | .interrupted => false

namespace Source

variable {limit n : Nat} {s t : Source} {turn : Turn} {pieces : List Bytes}

/-- A source with its failures taken out. -/
def unfailing (s : Source) : Source := ⟨s.turns.filter fun turn ↦ !turn.isFailed, .finished⟩

/-- How many of its turns are failures. -/
def failures (s : Source) : Nat := s.turns.countP Turn.isFailed

/-- A read that fails loses nothing, and any other is a read of the source that never fails. -/
theorem unfailing_of_read (h : s.read limit = (turn, t)) :
    if turn.isFailed then t.unfailing = s.unfailing
    else s.unfailing.read limit = (turn, t.unfailing) := by
  match s with
  | ⟨[], .finished⟩ | ⟨[], .failing _⟩ | ⟨.interrupted :: _, _⟩ | ⟨.failed _ :: _, _⟩ =>
    simp only [read, Prod.mk.injEq] at h
    obtain ⟨rfl, rfl⟩ := h
    rfl
  | ⟨.bytes piece :: later, ending⟩ =>
    have hkept : unfailing ⟨.bytes piece :: later, ending⟩ =
        ⟨.bytes piece :: later.filter fun turn ↦ !turn.isFailed, .finished⟩ := rfl
    rw [hkept]
    simp only [read] at h ⊢
    split at h <;> simp only [Prod.mk.injEq] at h <;> obtain ⟨rfl, rfl⟩ := h
    all_goals rfl

/-- A failure takes a turn, unless the source fails for ever. -/
theorem failures_of_read (hs : s.ending = .finished) (h : s.read limit = (turn, t)) :
    t.ending = .finished ∧
      s.failures = t.failures + if turn.isFailed then 1 else 0 := by
  match s with
  | ⟨[], .finished⟩ | ⟨.interrupted :: _, _⟩ | ⟨.failed _ :: _, _⟩ =>
    simp only [read, Prod.mk.injEq] at h
    obtain ⟨rfl, rfl⟩ := h
    exact ⟨hs, by simp [failures, List.countP_cons, Turn.isFailed]⟩
  | ⟨.bytes piece :: later, ending⟩ =>
    simp only [read] at h
    split at h <;> simp only [Prod.mk.injEq] at h <;> obtain ⟨rfl, rfl⟩ := h
    all_goals exact ⟨hs, by simp [failures, Turn.isFailed]⟩

/-! ## Asking again -/

/-- Pieces that came before stand in front of what comes. -/
theorem pullFrom_append (limit : Nat) (pieces before : List Bytes) (n : Nat) (s : Source) :
    pullFrom limit (pieces ++ before) n s =
      ⟨before.reverse.flatten ++ (pullFrom limit pieces n s).bytes,
        (pullFrom limit pieces n s).outcome, (pullFrom limit pieces n s).rest⟩ := by
  fun_induction pullFrom limit pieces n s with
  | case1 => simp [pullFrom_eq limit (_ ++ before)]
  | case2 pieces n s hn t h => simp [pullFrom_eq limit (_ ++ before), hn, h]
  | case3 pieces n s hn b piece t h _ ih => rw [pullFrom_eq, if_neg hn, h]; exact ih
  | case4 pieces n s hn t h _ ih => rw [pullFrom_eq, if_neg hn, h]; exact ih
  | case5 pieces n s hn cause t h => simp [pullFrom_eq limit (_ ++ before), hn, h]

/-- Asking until a read fails, and then for the rest, gives what the source that never fails gives
at once; if no read fails, there is no difference. -/
theorem pullFrom_unfailing (limit : Nat) (pieces : List Bytes) (n : Nat) (s : Source) :
    match (pullFrom limit pieces n s).outcome with
    | .failed _ => ∃ more, (pullFrom limit pieces n s).bytes = (more ++ pieces).reverse.flatten ∧
        more.reverse.flatten.length < n ∧
        pullFrom limit pieces n s.unfailing =
          pullFrom limit (more ++ pieces) (n - more.reverse.flatten.length)
            (pullFrom limit pieces n s).rest.unfailing
    | .enough | .ended => pullFrom limit pieces n s.unfailing =
        { pullFrom limit pieces n s with rest := (pullFrom limit pieces n s).rest.unfailing } := by
  fun_induction pullFrom limit pieces n s with
  | case1 => simp [pullFrom_eq]
  | case2 pieces n s hn t h =>
    have hread := unfailing_of_read h
    simp only [Turn.isFailed, Bool.false_eq_true, if_false] at hread
    dsimp only
    rw [pullFrom_eq, if_neg hn, hread]
  | case3 pieces n s hn b piece t h _ ih =>
    have hread := unfailing_of_read h
    simp only [Turn.isFailed, Bool.false_eq_true, if_false] at hread
    rw [pullFrom_eq limit pieces n s.unfailing, if_neg hn, hread]
    revert ih
    cases (pullFrom limit ((b :: piece) :: pieces) (n - (b :: piece).length) t).outcome with
    | enough => exact id
    | ended => exact id
    | failed cause =>
      rintro ⟨more, hb, hl, hrest⟩
      refine ⟨more ++ [b :: piece], by simpa using hb, ?_, ?_⟩
      · simp at hl ⊢
        omega
      · dsimp only
        rw [hrest, List.append_assoc, List.singleton_append]
        congr 1
        simp
        omega
  | case4 pieces n s hn t h _ ih =>
    have hread := unfailing_of_read h
    simp only [Turn.isFailed, Bool.false_eq_true, if_false] at hread
    rw [pullFrom_eq limit pieces n s.unfailing, if_neg hn, hread]
    exact ih
  | case5 pieces n s hn cause t h =>
    have hread := unfailing_of_read h
    simp only [Turn.isFailed, if_true] at hread
    exact ⟨[], rfl, Nat.pos_of_ne_zero hn, by rw [hread]; rfl⟩

/-- Asking fails at most once, and then takes a failure off the source. -/
theorem failures_pullFrom (hs : s.ending = .finished) (limit : Nat) (pieces : List Bytes)
    (n : Nat) :
    (pullFrom limit pieces n s).rest.ending = .finished ∧
      s.failures = (pullFrom limit pieces n s).rest.failures +
        match (pullFrom limit pieces n s).outcome with
        | .failed _ => 1
        | .enough | .ended => 0 := by
  fun_induction pullFrom limit pieces n s with
  | case1 => exact ⟨hs, rfl⟩
  | case2 _ _ _ _ _ h | case5 _ _ _ _ _ _ h => exact failures_of_read hs h
  | case3 _ _ _ _ _ _ _ h _ ih | case4 _ _ _ _ _ h _ ih =>
    obtain ⟨ht, hf⟩ := failures_of_read hs h
    rw [hf]
    exact ih ht

end Source

/-! ## Patient readings -/

/-- Whether it was the source that failed. -/
def Failure.isIo (e : Failure) : Bool :=
  match e.fault with
  | .io _ => true
  | _ => false

namespace Cursor

/-- A cursor on the source that never fails. -/
def unfailing (c : Cursor) : Cursor := { c with source := c.source.unfailing }

/-- From `c` to `c'` the source has failed `k` times, if its failures are to end at all. -/
def Spends (c : Cursor) (k : Nat) (c' : Cursor) : Prop :=
  c.source.ending = .finished →
    c'.source.ending = .finished ∧ c.source.failures = c'.source.failures + k

/-- The failures of the source come to an end, after some of them at most. -/
structure FailsAtMost (c : Cursor) (k : Nat) : Prop where
  ending : c.source.ending = .finished
  failures : c.source.failures ≤ k

variable {c c₁ c₂ : Cursor} {j k : Nat}

theorem Spends.refl (c : Cursor) : c.Spends 0 c := fun h ↦ ⟨h, rfl⟩

/-- Where the source is left alone, it does not fail. -/
theorem Spends.of_source_eq (h : c.Spends j c₁) (hs : c₂.source = c₁.source) : c.Spends j c₂ := by
  rwa [Spends, hs]

theorem Spends.trans (h : c.Spends j c₁) (h' : c₁.Spends k c₂) : c.Spends (j + k) c₂ := by
  intro hc
  obtain ⟨hend, hfailures⟩ := h hc
  obtain ⟨hend', hfailures'⟩ := h' hend
  exact ⟨hend', by omega⟩

theorem Spends.failsAtMost (h : c.Spends j c₁) (hc : c.FailsAtMost k) : c₁.FailsAtMost k := by
  obtain ⟨hend, hfailures⟩ := h hc.ending
  have hle := hc.failures
  exact ⟨hend, by omega⟩

end Cursor

namespace Reading

open Cursor

variable {α β : Type} {x : Reading α} {f : α → Reading β} {c : Cursor} {n : Nat}

/-- What a reading comes to, against what it comes to on the source that never fails: it is the same
unless the source fails, and then it will be the same behind the failure. -/
inductive Patience (x : Reading α) (c : Cursor) : EStateM.Result Failure Cursor α → Prop
  | ok {a : α} {c' : Cursor} (h : x c.unfailing = .ok a c'.unfailing) (hs : c.Spends 0 c') :
      Patience x c (.ok a c')
  | refused {e : Failure} {c' : Cursor} (he : e.isIo = false)
      (h : x c.unfailing = .error e c'.unfailing) (hs : c.Spends 0 c') : Patience x c (.error e c')
  | failed {e : Failure} {c' : Cursor} (he : e.isIo = true) (h : x c.unfailing = x c'.unfailing)
      (hs : c.Spends 1 c') : Patience x c (.error e c')

/-- A reading that can be tried again wherever the source fails. -/
def Patient (x : Reading α) : Prop := ∀ c, Patience x c (x c)

/-- A cursor whose buffer has taken in what was asked for. -/
def filled (buffer : Bytes) (position : Nat) (p : Source.Pulled) :
    EStateM.Result Failure Cursor Unit :=
  match p.outcome with
  | .enough => .ok () ⟨buffer ++ p.bytes, position, false, p.rest⟩
  | .ended => .ok () ⟨buffer ++ p.bytes, position, true, p.rest⟩
  | .failed cause => .error ⟨"", position, .io cause⟩ ⟨buffer ++ p.bytes, position, false, p.rest⟩

/-- Bytes that came before may as well have been in the buffer. -/
theorem filled_append (buffer u : Bytes) (position : Nat) (p : Source.Pulled) :
    filled buffer position ⟨u ++ p.bytes, p.outcome, p.rest⟩ = filled (buffer ++ u) position p := by
  rw [filled, filled, ← List.append_assoc]

theorem fill_eq_filled (hn : n ≤ maxBuffer) (buffer : Bytes) (position : Nat) (source : Source) :
    fill n ⟨buffer, position, false, source⟩ =
      filled buffer position (source.pullFrom refillChunk [] (n - buffer.length)) := by
  rw [fill, if_neg (Nat.not_lt.2 hn)]
  rfl

theorem fill_of_ended (hn : n ≤ maxBuffer) (he : c.ended = true) : fill n c = .ok () c := by
  rw [fill, if_neg (Nat.not_lt.2 hn), if_pos he]

theorem fill_of_lt (hn : maxBuffer < n) (c : Cursor) :
    fill n c = .error (c.failure (.bufferLimit n)) c := by
  rw [fill, if_pos hn]

theorem patient_fill (n : Nat) : Patient (fill n) := by
  intro c
  by_cases hn : maxBuffer < n
  · rw [fill_of_lt hn]
    exact .refused rfl (fill_of_lt hn _) (.refl c)
  rw [Nat.not_lt] at hn
  by_cases he : c.ended = true
  · rw [fill_of_ended hn he]
    exact .ok (fill_of_ended hn he) (.refl c)
  obtain ⟨buffer, position, ended, source⟩ := c
  obtain rfl : ended = false := Bool.eq_false_iff.2 he
  have hp := source.pullFrom_unfailing refillChunk [] (n - buffer.length)
  have hs := fun h ↦ Source.failures_pullFrom (s := source) h refillChunk [] (n - buffer.length)
  have hfill := fill_eq_filled hn buffer position source.unfailing
  rw [fill_eq_filled hn]
  generalize source.pullFrom refillChunk [] (n - buffer.length) = p at hp hs
  obtain ⟨bytes, outcome, rest⟩ := p
  cases outcome with
  | enough => exact .ok (by rw [unfailing, hfill, hp]; rfl) hs
  | ended => exact .ok (by rw [unfailing, hfill, hp]; rfl) hs
  | failed cause =>
    obtain ⟨more, hb, -, hp⟩ := hp
    simp only [List.append_nil] at hb hp
    refine .failed rfl ?_ hs
    have hagain := fill_eq_filled hn (buffer ++ bytes) position rest.unfailing
    have happend := Source.pullFrom_append refillChunk [] more
      (n - (buffer ++ bytes).length) rest.unfailing
    rw [List.nil_append] at happend
    rw [List.length_append, ← Nat.sub_sub, hb] at hagain happend
    rw [unfailing, hfill, hp, happend, filled_append, unfailing, hb, hagain]

/-! ### What is done with the buffer alone -/

/-- A reading that leaves the source alone and does the same in front of one that never fails. -/
def Aside (x : Reading α) : Prop := ∀ c,
  match x c with
  | .ok a c' => x c.unfailing = .ok a c'.unfailing ∧ c'.source = c.source
  | .error e c' => e.isIo = false ∧ x c.unfailing = .error e c'.unfailing ∧ c'.source = c.source

theorem Patient.bind (hx : Patient x) (hf : ∀ a, Aside (f a)) : Patient (x >>= f) := by
  intro c
  have hp := hx c
  cases hr : x c with
  | ok a c' =>
    rw [hr] at hp
    cases hp with
    | ok h hs =>
    rw [Fallible.bind_of_ok hr]
    have ha := hf a c'
    generalize f a c' = r at ha
    cases r with
    | ok b c'' =>
      obtain ⟨h', hsource⟩ := ha
      exact .ok ((Fallible.bind_of_ok h).trans h') (hs.of_source_eq hsource)
    | error e c'' =>
      obtain ⟨he, h', hsource⟩ := ha
      exact .refused he ((Fallible.bind_of_ok h).trans h') (hs.of_source_eq hsource)
  | error e c' =>
    rw [hr] at hp
    rw [Fallible.bind_of_error hr]
    cases hp with
    | refused he h hs => exact .refused he (Fallible.bind_of_error h) hs
    | failed he h hs =>
      refine .failed he ?_ hs
      simp only [Bind.bind, EStateM.bind, h]

theorem Aside.patient (hx : Aside x) : Patient x := by
  intro c
  have ha := hx c
  generalize x c = r at ha
  cases r with
  | ok a c' => exact .ok ha.1 ((Spends.refl c).of_source_eq ha.2)
  | error e c' => exact .refused ha.1 ha.2.1 ((Spends.refl c).of_source_eq ha.2.2)

theorem aside_pure (a : α) : Aside (pure a) := fun _ ↦ ⟨rfl, rfl⟩

/-! ### The readings of a cursor -/

/-- Fails unless the cursor passes a test. -/
def demand (test : Cursor → Bool) (fault : Fault) : Reading Unit := fun c ↦
  if test c then .ok () c else .error (c.failure fault) c

/-- Consumes `n` bytes of the buffer. -/
def take (n : Nat) : Reading Bytes := fun c ↦
  .ok (c.buffer.take n) { c with buffer := c.buffer.drop n, position := c.position + n }

/-- Consumes the first byte of the buffer. -/
def takeByte : Reading UInt8 := fun c ↦
  match c.buffer with
  | b :: rest => .ok b { c with buffer := rest, position := c.position + 1 }
  | [] => .error (c.failure .truncatedInput) c

theorem isIo_failure {fault : Fault} (h : ∀ cause, fault ≠ .io cause) (c : Cursor) :
    (c.failure fault).isIo = false := by
  cases fault with
  | io cause => exact absurd rfl (h cause)
  | _ => rfl

theorem aside_fail {fault : Fault} (h : ∀ cause, fault ≠ .io cause) :
    Aside (fail fault : Reading α) := fun c ↦ ⟨isIo_failure h c, rfl, rfl⟩

theorem aside_demand {test : Cursor → Bool} {fault : Fault}
    (ht : ∀ c, test c.unfailing = test c) (h : ∀ cause, fault ≠ .io cause) :
    Aside (demand test fault) := by
  intro c
  rw [demand, demand, ht]
  cases test c with
  | true => exact ⟨rfl, rfl⟩
  | false => exact ⟨isIo_failure h c, rfl, rfl⟩

theorem aside_take (n : Nat) : Aside (take n) := fun _ ↦ ⟨rfl, rfl⟩

theorem aside_takeByte : Aside takeByte := by
  intro ⟨buffer, position, ended, source⟩
  cases buffer with
  | nil => exact ⟨rfl, rfl, rfl⟩
  | cons b rest => exact ⟨rfl, rfl⟩

theorem fill_of_holds (hn : n ≤ maxBuffer) (h : c.holds n = true) : fill n c = .ok () c := by
  rw [holds_eq, decide_eq_true_eq] at h
  obtain ⟨buffer, position, ended, source⟩ := c
  cases ended with
  | true => exact fill_of_ended hn rfl
  | false =>
    rw [fill_eq_filled hn, Nat.sub_eq_zero_of_le h, Source.pullFrom_eq, if_pos rfl]
    simp [filled]

theorem need_eq (hn : n ≤ maxBuffer) :
    need n = fill n >>= fun _ ↦ demand (·.holds n) .truncatedInput := by
  funext c
  rw [need]
  split
  case isTrue h => rw [Fallible.bind_of_ok (fill_of_holds hn h), demand, if_pos h]
  case isFalse =>
    simp only [Bind.bind, EStateM.bind]
    cases fill n c <;> rfl

/-- More than a buffer may hold is had or not, whatever the source is. -/
theorem need_eq_demand (hn : maxBuffer < n) :
    need n = demand (·.holds n) (.bufferLimit n) := by
  funext c
  rw [need, fill_of_lt hn]
  rfl

theorem want_eq (hn : n ≤ maxBuffer) : want n = fill n := by
  funext c
  rw [want]
  split
  case isTrue h =>
    rw [Bool.or_eq_true] at h
    exact (h.elim (fill_of_holds hn) (fill_of_ended hn)).symm
  case isFalse => rfl

theorem want_eq_demand (hn : maxBuffer < n) :
    want n = demand (fun c ↦ c.holds n || c.ended) (.bufferLimit n) := by
  funext c
  rw [want, fill_of_lt hn]
  rfl

theorem block_eq (n : Nat) : block n = need n >>= fun _ ↦ take n := by
  funext c
  simp only [block, Bind.bind, EStateM.bind]
  cases need n c with
  | ok _ c' => simp only [List.splitAt_eq, take]
  | error e c' => rfl

theorem skip_eq (n : Nat) : skip n = block n >>= fun _ ↦ pure () := by
  funext c
  rw [block_eq]
  simp only [skip, Bind.bind, EStateM.bind]
  cases need n c <;> rfl

theorem byte_eq : byte = need 1 >>= fun _ ↦ takeByte := by
  funext c
  simp only [byte, Bind.bind, EStateM.bind]
  cases need 1 c <;> rfl

theorem patient_need (n : Nat) : Patient (need n) := by
  rcases Nat.lt_or_ge maxBuffer n with hn | hn
  · rw [need_eq_demand hn]
    exact (aside_demand (fun _ ↦ rfl) (by rintro _ ⟨⟩)).patient
  · rw [need_eq hn]
    exact (patient_fill n).bind fun _ ↦ aside_demand (fun _ ↦ rfl) (by rintro _ ⟨⟩)

theorem patient_want (n : Nat) : Patient (want n) := by
  rcases Nat.lt_or_ge maxBuffer n with hn | hn
  · rw [want_eq_demand hn]
    exact (aside_demand (fun _ ↦ rfl) (by rintro _ ⟨⟩)).patient
  · rw [want_eq hn]
    exact patient_fill n

theorem patient_block (n : Nat) : Patient (block n) := by
  rw [block_eq]
  exact (patient_need n).bind fun _ ↦ aside_take n

theorem patient_skip (n : Nat) : Patient (skip n) := by
  rw [skip_eq]
  exact (patient_block n).bind fun _ ↦ aside_pure ()

theorem patient_byte : Patient byte := by
  rw [byte_eq]
  exact (patient_need 1).bind fun _ ↦ aside_takeByte

theorem patient_word16 (order : ByteOrder) : Patient (word16 order) := by
  refine (patient_block 2).bind fun u ↦ ?_
  split
  · exact aside_pure _
  · exact aside_fail (by rintro _ ⟨⟩)

theorem patient_word32 (order : ByteOrder) : Patient (word32 order) := by
  refine (patient_block 4).bind fun u ↦ ?_
  split
  · exact aside_pure _
  · exact aside_fail (by rintro _ ⟨⟩)

theorem patient_peek : Patient peek := fun c ↦ .ok rfl (.refl c)

/-! ## Trying until the source does not fail -/

/-- Tries a reading again as long as the source fails, some number of times at most. -/
def persist (x : Reading α) : Nat → Reading α
  | 0 => x
  | tries + 1 => fun c ↦
    match x c with
    | .ok a c' => .ok a c'
    | .error e c' => if e.isIo then persist x tries c' else .error e c'

/-- What comes of a reading that is tried again: what comes of it on the source that never fails,
unless the source fails once more than it is tried again. -/
inductive Persistence (x : Reading α) (c : Cursor) (tries : Nat) :
    EStateM.Result Failure Cursor α → Prop
  | ok {a : α} {c' : Cursor} {k : Nat} (h : x c.unfailing = .ok a c'.unfailing)
      (hs : c.Spends k c') : Persistence x c tries (.ok a c')
  | refused {e : Failure} {c' : Cursor} {k : Nat} (he : e.isIo = false)
      (h : x c.unfailing = .error e c'.unfailing) (hs : c.Spends k c') :
      Persistence x c tries (.error e c')
  | failed {e : Failure} {c' : Cursor} (he : e.isIo = true) (hs : c.Spends (tries + 1) c') :
      Persistence x c tries (.error e c')

theorem Patient.persistence (hx : Patient x) (tries : Nat) (c : Cursor) :
    Persistence x c tries (persist x tries c) := by
  induction tries generalizing c with
  | zero =>
    have hp := hx c
    rw [persist]
    generalize x c = r at hp
    cases hp with
    | ok h hs => exact .ok h hs
    | refused he h hs => exact .refused he h hs
    | failed he _ hs => exact .failed he hs
  | succ tries ih =>
    have hp := hx c
    simp only [persist]
    generalize x c = r at hp
    cases hp with
    | ok h hs => exact .ok h hs
    | refused he h hs =>
      simp only [he, Bool.false_eq_true, if_false]
      exact .refused he h hs
    | @failed e c' he h hs =>
      have hagain := ih c'
      simp only [he, if_true]
      generalize persist x tries c' = r at hagain
      cases hagain with
      | ok h' hs' => exact .ok (h.trans h') (hs.trans hs')
      | refused he' h' hs' => exact .refused he' (h.trans h') (hs.trans hs')
      | failed he' hs' => exact .failed he' (Nat.add_comm 1 _ ▸ hs.trans hs')

end Reading

end JitDump
