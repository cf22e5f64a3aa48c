import JitDump.Proofs.Chunking

/-!
# Input that goes on

A decode of some bytes and a decode of the same bytes with more behind them ask
for the same bytes in the same order.  They part only where the shorter input is
over: there the one stops for want of input, or has just come to its end, while
the other goes on.  So no container is the beginning of another one, a container
cut short is reported as such, and any other failure stays what it is however
the input goes on.  The shorter input may also close with a failure of its
source; then that failure is where the runs part.
-/

namespace JitDump

open Container

/-- What want of input is reported as. -/
def Ending.fault : Ending → Fault
  | .finished => .truncatedInput
  | .failing cause => .io cause

/-- `d` has the input of `c` and, where that one closes, the bytes `x` behind it, all of which fits
in a buffer. -/
structure Cursor.Continued (ending : Ending) (x : Bytes) (c d : Cursor) : Prop where
  pending : d.pending = c.pending ++ x
  position : c.position = d.position
  closing : c.closing = ending
  closing' : d.closing = .finished
  fits : d.pending.length < Cursor.maxBuffer

/-- Two such cursors that have looked ahead for `n` bytes: each buffer shows as much as there is, and
a source that fails has not been asked for more than it has. -/
structure Cursor.Looked (ending : Ending) (x : Bytes) (n : Nat) (c d : Cursor) : Prop
    extends Cursor.Continued ending x c d where
  left : min n c.pending.length ≤ c.buffer.length
  right : min n d.pending.length ≤ d.buffer.length
  enough : ending = .finished ∨ n ≤ c.pending.length

/-- Two such cursors in front of a container.  Fewer than four bytes open none, so an input that ends
is to have as many. -/
structure Cursor.Headed (ending : Ending) (x : Bytes) (c d : Cursor) : Prop
    extends Cursor.Continued ending x c d where
  four : ending = .finished → 4 ≤ c.pending.length

namespace Cursor

variable {ending : Ending} {x u : Bytes} {c c' d d' : Cursor} {n : Nat}

theorem shortage_eq (hn : n ≤ maxBuffer) : c.shortage n = c.closing.fault := by
  rw [shortage, if_neg (Nat.not_lt.2 hn)]
  rfl

theorem Continued.advances (h : Continued ending x c d) (hc : c.Advances u c')
    (hd : d.Advances u d') : Continued ending x c' d' where
  pending := by
    have hp := h.pending
    rw [hc.pending, hd.pending, List.append_assoc] at hp
    exact List.append_cancel_left hp
  position := by rw [hc.position, hd.position, h.position]
  closing := hc.closing.trans h.closing
  closing' := hd.closing.trans h.closing'
  fits := by
    have hf := h.fits
    rw [hd.pending, List.length_append] at hf
    omega

theorem Continued.length_le (h : Continued ending x c d) : c.pending.length ≤ d.pending.length := by
  rw [h.pending, List.length_append]
  exact Nat.le_add_right _ _

/-- Bytes that the shorter input has are the first ones of both. -/
theorem Continued.take_eq (h : Continued ending x c d) (hn : n ≤ c.pending.length) :
    d.pending.take n = c.pending.take n := by rw [h.pending, List.take_append_of_le_length hn]

theorem Continued.failure_eq (h : Continued ending x c d) (fault : Fault) :
    c.failure fault = d.failure fault := by rw [failure, failure, h.position]

end Cursor

/-! ## Readings in lockstep -/

namespace Reading

open Cursor

variable {ending : Ending} {x : Bytes} {n : Nat}

/-- Only the closing of the shorter input lets two readings part. -/
abbrev Continues (ending : Ending) (x : Bytes) {α : Type} (r r' : Reading α) : Prop :=
  Reading.Tracks (Continued ending x) (Continued ending x) (· = ending.fault) r r'

/-- A reading of `n` bytes, whose value and whose consumption are told by these bytes. -/
theorem continues_of {α : Type} {r : Reading α} (value : Bytes → α) (taken : Bytes → Bytes)
    (ok : ∀ c, n ≤ maxBuffer → n ≤ c.pending.length →
      ∃ c', r c = .ok (value (c.pending.take n)) c' ∧ c.Advances (taken (c.pending.take n)) c')
    (error : ∀ c, c.pending.length < n → ∃ c', r c = .error (c.failure (c.shortage n)) c') :
    Continues ending x r r := by
  intro c d h
  have hle := h.length_le
  have hfits := h.fits
  by_cases hn : n ≤ c.pending.length
  · obtain ⟨c', hc, ha⟩ := ok c (by omega) hn
    obtain ⟨d', hd, ha'⟩ := ok d (by omega) (by omega)
    rw [h.take_eq hn] at hd ha'
    rw [hc, hd]
    exact .ok (h.advances ha ha')
  · obtain ⟨c', hc⟩ := error c (Nat.not_le.1 hn)
    rw [hc]
    by_cases hm : maxBuffer < n
    · -- what no buffer may hold is refused in front of either input
      obtain ⟨d', hd⟩ := error d (by omega)
      rw [hd, shortage, shortage, if_pos hm, if_pos hm, h.failure_eq]
      exact .error trivial
    · rw [shortage_eq (Nat.not_lt.1 hm), h.closing]
      exact .stopped rfl

theorem continues_block (n : Nat) : Continues ending x (block n) (block n) :=
  continues_of (fun u ↦ u) (fun u ↦ u) (fun _ hm hn ↦ block_eq_ok hm hn) fun _ h ↦ block_eq_error h

theorem continues_skip (n : Nat) : Continues ending x (skip n) (skip n) :=
  continues_of (fun _ ↦ ()) (fun u ↦ u) (fun _ hm hn ↦ skip_eq_ok hm hn) fun _ h ↦ skip_eq_error h

theorem continues_need (n : Nat) : Continues ending x (need n) (need n) := by
  refine continues_of (fun _ ↦ ()) (fun _ ↦ []) (fun c hm hn ↦ ?_) fun _ h ↦ need_eq_error h
  obtain ⟨c', hc, ha, -⟩ := need_eq_ok hm hn
  exact ⟨c', hc, ha⟩

theorem continues_byte : Continues ending x byte byte := by
  refine continues_of (n := 1) (·.headD 0) (fun u ↦ u) (fun c _ hn ↦ ?_) fun c h ↦ ?_
  · obtain ⟨b, rest, hp⟩ := List.exists_cons_of_length_pos hn
    rw [hp]
    exact byte_eq_ok hp
  · exact byte_eq_error (List.eq_nil_of_length_eq_zero (by omega))

theorem lockstep_continued : Lockstep (Continued ending x) (· = ending.fault) where
  position h := h.position
  block := continues_block
  byte := continues_byte

/-! ## What is looked ahead for -/

/-- Looking ahead goes well in both, unless the source of the shorter input fails. -/
theorem continues_want (hn : n ≤ maxBuffer) :
    Reading.Tracks (Continued ending x) (Looked ending x n) (· = ending.fault) (want n)
      (want n) := by
  intro c d h
  obtain ⟨d', hd, ha', hl'⟩ := want_eq_ok (c := d) hn (.inr h.closing')
  by_cases hw : n ≤ c.pending.length ∨ c.closing = .finished
  · obtain ⟨c', hc, ha, hl⟩ := want_eq_ok hn hw
    rw [h.closing, ← ha.pending_eq] at hw
    rw [hc, hd]
    exact .ok ⟨h.advances ha ha', ha.pending_eq ▸ hl, ha'.pending_eq ▸ hl', hw.symm⟩
  · rw [not_or, Nat.not_le] at hw
    cases hc : c.closing with
    | finished => exact absurd hc hw.2
    | failing cause =>
      obtain ⟨c', he⟩ := want_eq_error hn hw.1 hc
      rw [he, ← h.closing, hc]
      exact .stopped rfl

/-- Looking ahead for the head of a container shows the four bytes that open it, if both inputs have
them or the source of the shorter one fails. -/
theorem continues_prologue :
    Reading.Tracks (Headed ending x) (Continued ending x) (· = ending.fault) prologue prologue := by
  have hwant : Reading.Tracks (Headed ending x)
      (fun c d ↦ Continued ending x c d ∧ c.holds 4 ∧ d.holds 4) (· = ending.fault)
      (want (4 + 5 + 5)) (want (4 + 5 + 5)) := by
    intro c d h
    have ho := continues_want (n := 4 + 5 + 5) (by decide) c d h.toContinued
    generalize hc : want (4 + 5 + 5) c = r at ho ⊢
    generalize want (4 + 5 + 5) d = r' at ho ⊢
    cases ho with
    | @ok _ c' d' h' =>
      obtain ⟨ha, -⟩ := of_want_eq_ok (by decide) hc
      have hle := h'.length_le
      have h4' : 4 ≤ c'.pending.length := h'.enough.elim (fun hf ↦ ha.pending_eq ▸ h.four hf)
        (Nat.le_trans (by decide))
      have hl := h'.left
      have hl' := h'.right
      refine .ok ⟨h'.toContinued, ?_, ?_⟩
      · rw [holds_eq, decide_eq_true_eq]
        omega
      · rw [holds_eq, decide_eq_true_eq]
        omega
    | error hw => exact .error hw
    | stopped hs => exact .stopped hs
  refine Tracks.bind hwant fun _ ↦ Tracks.get ?_
  rintro c d ⟨h, hc, hd⟩
  rw [if_pos hc, if_pos hd]
  refine Tracks.bind (continues_block 4) (fun found ↦ ?_) c d h
  split
  · exact Tracks.pure ()
  · exact Tracks.failAt (fun _ _ _ ↦ trivial) _ _

/-- The next length is the same, unless the shorter input is over. -/
theorem continues_nextLength : Continues ending x nextLength nextLength := by
  refine Tracks.bind (continues_want (by decide)) fun _ c d h ↦ ?_
  simp only [bind, EStateM.bind, peek, head?_buffer h.left, head?_buffer h.right, h.pending]
  cases hp : c.pending with
  | nil =>
    simp only [List.head?_nil]
    rcases h.enough with hf | he
    · rw [hf]
      exact .stopped rfl
    · simp [hp] at he
  | cons b rest =>
    simp only [List.cons_append, List.head?_cons]
    refine (?_ : Continues ending x _ _) c d h.toContinued
    split
    · exact Tracks.bind (continues_skip 1) fun _ ↦ Tracks.pure _
    · refine Tracks.bind ((continues_want (by decide)).forget fun _ _ h ↦ h.toContinued) fun _ ↦ ?_
      refine Tracks.bind lockstep_continued.reading.varint fun length ↦ ?_
      split
      · exact Tracks.pure _
      · exact Tracks.bind (continues_need _) fun _ ↦ Tracks.pure _

end Reading

/-! ## Whole containers -/

namespace Container

open Cursor

variable {ending : Ending} {x : Bytes} {s t : Session}

/-- The same of an operation of a decode. -/
abbrev Continues (ending : Ending) (x : Bytes) {α : Type} (y z : Decoding α) : Prop :=
  Decoding.Tracks (Continued ending x) (Continued ending x) (· = ending.fault) y z

theorem continues_header (options : Options) (name : Bytes) :
    Decoding.Tracks (Headed ending x) (Continued ending x) (· = ending.fault) (header options name)
      (header options name) := by
  have hprologue : Reading.Tracks (Headed ending x) (Continued ending x) (· = ending.fault)
      prologue prologue := Reading.continues_prologue
  have hopening := Tracks.bind hprologue fun _ ↦
    Reading.lockstep_continued.reading.behindPrologue options
  exact Tracks.bind (Decoding.tracks_ofReading hopening) fun _ ↦
    Tracks.bind (Decoding.tracks_intern _) fun _ ↦ Tracks.pure _

theorem continues_nextRecord (ctx : Context) :
    Continues ending x (nextRecord ctx) (nextRecord ctx) :=
  Reading.lockstep_continued.decoding.nextRecord Reading.continues_nextLength (fun _ _ h ↦ h) ctx

/-- The longer input allows itself more rounds, which the shorter one would not use. -/
theorem continues_records (ctx : Context) (h : s.Beside (Continued ending x) t) :
    Outcome (Session.Beside (Continued ending x)) (Session.Beside fun _ _ ↦ True)
      (· = ending.fault) (records (nextRecord ctx) (s.cursor.undelivered + 1) s)
      (records (nextRecord ctx) (t.cursor.undelivered + 1) t) := by
  have hs := s.cursor.length_pending_le
  have ht := t.cursor.length_pending_le
  have hle := h.cursor.length_le
  rw [records_rounds (s := s) (m := t.cursor.undelivered + 1) (by omega) (by omega)]
  exact Decoding.tracks_records (fun _ _ ↦ Continued.position) (continues_nextRecord ctx) _ s t h

/-- How the run on some input and the run on more of it end: the shorter input is complete and the
longer one has something left, or both fail alike, or the run on the shorter one stops where that
closes. -/
inductive Parting (ending : Ending) {α : Type} :
    EStateM.Result Failure Session α → EStateM.Result Failure Session α → Prop
  | completed {a : α} {s t : Session} {e : Failure} (he : e.fault = .trailingData)
      (hf : ending = .finished) : Parting ending (.ok a s) (.error e t)
  | alike {e : Failure} {s t : Session} : Parting ending (.error e s) (.error e t)
  | cut {e : Failure} {s : Session} {r : EStateM.Result Failure Session α}
      (he : e.fault = ending.fault) : Parting ending (.error e s) r

/-- What goes the same way so far parts as what follows. -/
theorem Parting.of_bind {α β : Type} {Q W : Session → Session → Prop} {y z : Decoding α}
    {f g : α → Decoding β} (h : Outcome Q W (· = ending.fault) (y s) (z t))
    (h' : ∀ a s t, Q s t → Parting ending (f a s) (g a t)) :
    Parting ending ((y >>= f) s) ((z >>= g) t) := by
  simp only [Bind.bind, EStateM.bind]
  generalize y s = p at h ⊢
  generalize z t = q at h ⊢
  cases h with
  | ok hq => exact h' _ _ _ hq
  | error hw => exact .alike
  | stopped hs => exact .cut hs

/-- The longer input is never at its end where the shorter one may be. -/
theorem root_parting (hx : ending = .finished → x ≠ []) (h : s.Beside (Continued ending x) t) :
    Parting ending (root s) (root t) := by
  by_cases hw : 1 ≤ s.cursor.pending.length ∨ s.cursor.closing = .finished
  · have hleft : t.cursor.pending ≠ [] := by
      rw [h.cursor.pending]
      rcases hw with hp | hf
      · exact List.append_ne_nil_of_left_ne_nil (List.ne_nil_of_length_pos hp) _
      · exact List.append_ne_nil_of_right_ne_nil _ (hx (h.cursor.closing.symm.trans hf))
    obtain ⟨t', ht⟩ := root_eq_error (.inr h.cursor.closing') (.inl hleft)
    rw [ht]
    by_cases hs : s.cursor.pending = [] ∧ ∃ top, s.stack = [top]
    · obtain ⟨hp, ⟨p, d⟩, hstack⟩ := hs
      have hf : s.cursor.closing = .finished := hw.resolve_left (by simp [hp])
      obtain ⟨c, hok⟩ := root_eq_ok hf hp hstack
      rw [hok]
      exact .completed rfl (h.cursor.closing.symm.trans hf)
    · obtain ⟨s', he⟩ := root_eq_error hw (not_and_or.1 hs)
      rw [he, h.cursor.failure_eq]
      exact .alike
  · rw [not_or, Nat.not_le] at hw
    cases hc : s.cursor.closing with
    | finished => exact absurd hc hw.2
    | failing cause =>
      obtain ⟨c, he⟩ := Reading.want_eq_error (n := 1) (by decide) hw.1 hc
      have hroot : root s = .error _ _ := Fallible.bind_of_error (Decoding.ofReading_eq_error he)
      rw [hroot]
      exact .cut (by rw [← h.cursor.closing, hc]; rfl)

theorem container_parting (options : Options) (name : Bytes) (hx : ending = .finished → x ≠ [])
    (h : s.Beside (Headed ending x) t) :
    Parting ending (container options name s) (container options name t) := by
  refine .of_bind (continues_header options name s t h) fun head s t h ↦ ?_
  refine .of_bind (Decoding.tracks_note _ s t h) fun _ s t h ↦ ?_
  exact .of_bind (f := fun _ ↦ root) (g := fun _ ↦ root) (continues_records (head.context options) h)
    fun _ s t h ↦ root_parting hx h

/-! ## Whole decodes -/

variable {p : Bytes}

theorem decode_parting (options : Options) (heap : Heap) (name : String) (hx : x ≠ [])
    (h4 : 4 ≤ p.length) (hl : (p ++ x).length < maxBuffer) :
    Parting .finished (container options (Utf8.encode name) (.start heap (.ofBytes p)))
      (container options (Utf8.encode name) (.start heap (.ofBytes (p ++ x)))) := by
  have hc : Continued .finished x (ofSource (.ofBytes p)) (ofSource (.ofBytes (p ++ x))) :=
    ⟨by simp, rfl, by simp, by simp, by simpa using hl⟩
  have h4' : 4 ≤ (ofSource (.ofBytes p)).pending.length := by simpa using h4
  exact container_parting options _ (fun _ ↦ hx) ⟨⟨hc, fun _ ↦ h4'⟩, rfl, rfl, rfl⟩

/-- Fewer than four bytes are not even the opening of a container. -/
theorem decode_eq_badMagic (options : Options) (heap : Heap) (name : String) (h4 : p.length < 4) :
    (decode options heap (.ofBytes p) name).result =
      .error ⟨chunkDisplayName name, 0, .badMagic p⟩ := by
  obtain ⟨c, hw, ha, hl⟩ := Reading.want_eq_ok (n := 4 + 5 + 5) (c := ofSource (.ofBytes p))
    (by decide) (.inr (by simp))
  have hp : c.pending = p := by simpa using ha.pending_eq
  have hb : c.buffer.length = p.length := by
    have hle := c.length_buffer_le
    rw [pending_ofSource, Source.delivered_ofBytes] at hl
    rw [hp] at hle
    omega
  have hholds : ¬ c.holds 4 := by
    rw [holds_eq, decide_eq_true_eq]
    omega
  obtain ⟨c', hblock, -⟩ := Reading.block_eq_ok (n := c.remaining) (c := c)
    (by rw [remaining, hb, maxBuffer]; omega) (by rw [remaining, hb, hp])
  rw [hp, remaining, hb, List.take_length] at hblock
  have hprologue : prologue (ofSource (.ofBytes p)) = .error ⟨"", 0, .badMagic p⟩ c' := by
    rw [prologue, Fallible.bind_of_ok hw]
    refine (Fallible.bind_of_ok (t := c) rfl).trans ?_
    rw [if_neg hholds, remaining, hb, Fallible.bind_of_ok hblock]
    rfl
  have hopening : opening options (ofSource (.ofBytes p)) = .error ⟨"", 0, .badMagic p⟩ c' :=
    Fallible.bind_of_error hprologue
  have hheader : header options (Utf8.encode name) (.start heap (.ofBytes p)) =
      .error ⟨"", 0, .badMagic p⟩ { Session.start heap (.ofBytes p) with cursor := c' } :=
    Fallible.bind_of_error (Decoding.ofReading_eq_error hopening)
  exact Decoded.ofRun_eq_error (containerBy_eq_error_of_header hheader)

/-- Containers are told from their beginnings and from what goes on behind them.  Behind an accepted
container nothing may follow.  An accepted container that is cut short is reported as truncated, or
as no container at all where not even its first four bytes are left.  Any other failure is final:
whatever follows, it stays the same in kind, payload and offset. -/
theorem decode_append (options : Options) (heap : Heap) (name : String) (hx : x ≠ [])
    (hl : (p ++ x).length < maxBuffer) :
    (∀ tree, (decode options heap (.ofBytes p) name).result = .ok tree →
      ∃ e, (decode options heap (.ofBytes (p ++ x)) name).result = .error e ∧
        e.fault = .trailingData) ∧
    (∀ tree, (decode options heap (.ofBytes (p ++ x)) name).result = .ok tree →
      ∃ e, (decode options heap (.ofBytes p) name).result = .error e ∧
        e.fault = if 4 ≤ p.length then .truncatedInput else .badMagic p) ∧
    (∀ e, (decode options heap (.ofBytes p) name).result = .error e → e.fault ≠ .truncatedInput →
      (p.length < 4 → ∀ found, e.fault ≠ .badMagic found) →
      (decode options heap (.ofBytes (p ++ x)) name).result = .error e) := by
  by_cases h4 : 4 ≤ p.length
  · have h := decode_parting options heap name hx h4 hl
    rw [if_pos h4]
    unfold decode
    generalize container options (Utf8.encode name) (.start heap (.ofBytes p)) = r at h ⊢
    generalize container options (Utf8.encode name) (.start heap (.ofBytes (p ++ x))) = r' at h ⊢
    cases h with
    | completed he =>
      refine ⟨fun _ _ ↦ ⟨_, rfl, he⟩, ?_, ?_⟩
      · rintro _ ⟨⟩
      · rintro _ ⟨⟩
    | alike =>
      refine ⟨?_, ?_, fun _ h _ _ ↦ h⟩
      · rintro _ ⟨⟩
      · rintro _ ⟨⟩
    | cut he =>
      refine ⟨?_, fun _ _ ↦ ⟨_, rfl, he⟩, ?_⟩
      · rintro _ ⟨⟩
      · rintro _ ⟨⟩ hne
        exact absurd he hne
  · have h := decode_eq_badMagic options heap name (Nat.not_le.1 h4)
    rw [if_neg h4, h]
    refine ⟨?_, fun _ _ ↦ ⟨_, rfl, rfl⟩, ?_⟩
    · rintro _ ⟨⟩
    · rintro _ ⟨⟩ - hne
      exact absurd rfl (hne (Nat.not_le.1 h4) p)

/-- A stripped container of one empty record: a byte too many, five bytes too few and no more than
three of its bytes; and a container of another version, which no further byte mends. -/
theorem decode_append_empty_record :
    (∃ e, (decode .default .new (.ofBytes ([0x1b, 0x4c, 0x4a, 2, 2, 7, 0, 0, 0, 0, 0, 0, 0, 0] ++
      [0])) "a").result = .error e ∧ e.fault = .trailingData) ∧
    (∃ e, (decode .default .new (.ofBytes [0x1b, 0x4c, 0x4a, 2, 2, 7, 0, 0, 0]) "a").result =
      .error e ∧ e.fault = .truncatedInput) ∧
    (∃ e, (decode .default .new (.ofBytes [0x1b, 0x4c, 0x4a]) "a").result = .error e ∧
      e.fault = .badMagic [0x1b, 0x4c, 0x4a]) ∧
    (decode .default .new (.ofBytes ([0x1b, 0x4c, 0x4a, 3] ++ [2, 0])) "a").result =
      .error ⟨"a", 0, .badMagic [0x1b, 0x4c, 0x4a, 3]⟩ := by
  have hok : (decode .default .new (.ofBytes [0x1b, 0x4c, 0x4a, 2, 2, 7, 0, 0, 0, 0, 0, 0, 0, 0])
      "a").result.toOption.isSome := by decide +kernel
  obtain ⟨tree, ht⟩ := Option.isSome_iff_exists.1 hok
  have htree := Decoded.result_eq_ok ht
  refine ⟨?_, ?_, ?_, ?_⟩
  · exact (decode_append .default .new "a" (by decide) (by decide)).1 tree htree
  · exact (decode_append .default .new "a" (p := [0x1b, 0x4c, 0x4a, 2, 2, 7, 0, 0, 0])
      (x := [0, 0, 0, 0, 0]) (by decide) (by decide)).2.1 tree htree
  · exact (decode_append .default .new "a" (p := [0x1b, 0x4c, 0x4a])
      (x := [2, 2, 7, 0, 0, 0, 0, 0, 0, 0, 0]) (by decide) (by decide)).2.1 tree htree
  · have hbad : (decode .default .new (.ofBytes [0x1b, 0x4c, 0x4a, 3]) "a").failure? =
        some ⟨"a", 0, .badMagic [0x1b, 0x4c, 0x4a, 3]⟩ := by decide +kernel
    exact (decode_append .default .new "a" (by decide) (by decide)).2.2 _
      (Decoded.result_eq_error hbad) (by simp) fun h ↦ absurd h (by decide)

end Container

end JitDump
