import JitDump.Proofs.Lockstep
import JitDump.Proofs.Records

/-!
# How a source hands out its bytes

The pieces in which a source hands out its bytes decide where the buffer of a
cursor ends, and a decode looks at the buffer: the head of a container, the
length of a record and the end of the input are all looked ahead for.  Two
cursors that `Agree` differ in nothing else, and agreement is kept in lockstep by
every operation of a decode.  So a decode sees the bytes that its source delivers
and how the source closes, and nothing more of it.
-/

namespace JitDump

open Container

/-- Two cursors with the same input left, which fits in a buffer, and with the same closing. -/
structure Cursor.Agree (ending : Ending) (c d : Cursor) : Prop where
  pending : c.pending = d.pending
  position : c.position = d.position
  closing : c.closing = ending
  closing' : d.closing = ending
  fits : c.pending.length < Cursor.maxBuffer

/-- Two cursors that agree and have each looked ahead for `n` bytes. -/
structure Cursor.Ahead (ending : Ending) (n : Nat) (c d : Cursor) : Prop
    extends Cursor.Agree ending c d where
  left : min n c.pending.length ≤ c.buffer.length
  right : min n d.pending.length ≤ d.buffer.length

namespace Cursor

variable {ending : Ending} {c c' d d' : Cursor} {u : Bytes} {n : Nat}

/-- Cursors that agree and consume the same bytes agree afterwards. -/
theorem Agree.advances (h : Agree ending c d) (hc : c.Advances u c') (hd : d.Advances u d') :
    Agree ending c' d' where
  pending := by
    have := h.pending
    rw [hc.pending, hd.pending] at this
    exact List.append_cancel_left this
  position := by rw [hc.position, hd.position, h.position]
  closing := hc.closing.trans h.closing
  closing' := hd.closing.trans h.closing'
  fits := by
    have := h.fits
    rw [hc.pending, List.length_append] at this
    omega

/-- No more is consumed than fits in a buffer. -/
theorem Agree.length_le (h : Agree ending c d) (hc : c.Advances u c') : u.length ≤ maxBuffer := by
  have hl := h.fits
  rw [hc.pending, List.length_append] at hl
  omega

/-- What one of two cursors that agree has consumed, the other one takes to the same value. -/
theorem Agree.takes {α : Type} {x : Reading α} {a : α} (h : Agree ending c d)
    (hc : c.Advances u c') (hx : x.Takes u a) :
    ∃ d', x d = .ok a d' ∧ d.Advances u d' ∧ Agree ending c' d' := by
  obtain ⟨d', hd, ha⟩ := hx d c'.pending (h.pending ▸ hc.pending) (h.length_le hc)
  exact ⟨d', hd, ha, h.advances hc ha⟩

/-- The failures of cursors that agree are the same. -/
theorem Agree.failure_eq (h : Agree ending c d) (fault : Fault) :
    c.failure fault = d.failure fault := by
  rw [failure, failure, h.position]

theorem Agree.shortage_eq (h : Agree ending c d) (n : Nat) : c.shortage n = d.shortage n := by
  rw [shortage, shortage, h.closing, h.closing']

theorem Ahead.head?_eq (h : Ahead ending 1 c d) : c.buffer.head? = d.buffer.head? := by
  rw [Reading.head?_buffer h.left, Reading.head?_buffer h.right, h.pending]

/-- Whether a buffer holds no more than `n` bytes is seen alike by cursors that have looked ahead
for as many. -/
theorem Ahead.le_iff {k : Nat} (h : Ahead ending n c d) (hk : k ≤ n) :
    k ≤ c.buffer.length ↔ k ≤ d.buffer.length := by
  have hc := h.left
  have hd := h.right
  have hc' := c.length_buffer_le
  have hd' := d.length_buffer_le
  have hp := congrArg List.length h.pending
  constructor <;> intro <;> omega

/-- A buffer that does not hold as many bytes as were looked ahead for holds all that are left. -/
theorem Ahead.length_eq (h : Ahead ending n c d) (hn : c.buffer.length < n) :
    c.buffer.length = c.pending.length ∧ d.buffer.length = c.pending.length := by
  have hc := h.left
  have hd := h.right
  have hc' := c.length_buffer_le
  have hd' := d.length_buffer_le
  have hp := congrArg List.length h.pending
  constructor <;> omega

end Cursor

/-! ## Agreement in lockstep -/

namespace Reading

open Cursor

variable {ending : Ending}

/-- No failure excuses a cursor from agreeing. -/
abbrev Agrees (ending : Ending) {α : Type} (x y : Reading α) : Prop :=
  Reading.Tracks (Agree ending) (Agree ending) (fun _ ↦ False) x y

/-- A reading of `n` bytes, whose value and whose consumption are told by the bytes that are
left. -/
theorem agrees_of {α : Type} {x : Reading α} {n : Nat} (value : Bytes → α) (taken : Bytes → Bytes)
    (ok : ∀ c, n ≤ maxBuffer → n ≤ c.pending.length →
      ∃ c', x c = .ok (value c.pending) c' ∧ c.Advances (taken c.pending) c')
    (error : ∀ c, c.pending.length < n → ∃ c', x c = .error (c.failure (c.shortage n)) c') :
    Agrees ending x x := by
  intro c d h
  by_cases hn : n ≤ c.pending.length
  · have hm : n ≤ maxBuffer := Nat.le_trans hn (Nat.le_of_lt h.fits)
    obtain ⟨c', hc, ha⟩ := ok c hm hn
    obtain ⟨d', hd, ha'⟩ := ok d hm (h.pending ▸ hn)
    rw [← h.pending] at hd ha'
    rw [hc, hd]
    exact .ok (h.advances ha ha')
  · rw [Nat.not_le] at hn
    obtain ⟨c', hc⟩ := error c hn
    obtain ⟨d', hd⟩ := error d (h.pending ▸ hn)
    rw [hc, hd, h.shortage_eq, h.failure_eq]
    exact .error trivial

theorem agrees_block (n : Nat) : Agrees ending (block n) (block n) :=
  agrees_of (·.take n) (·.take n) (fun _ hm hn ↦ block_eq_ok hm hn) fun _ h ↦ block_eq_error h

theorem agrees_skip (n : Nat) : Agrees ending (skip n) (skip n) :=
  agrees_of (fun _ ↦ ()) (·.take n) (fun _ hm hn ↦ skip_eq_ok hm hn) fun _ h ↦ skip_eq_error h

theorem agrees_need (n : Nat) : Agrees ending (need n) (need n) := by
  refine agrees_of (fun _ ↦ ()) (fun _ ↦ []) (fun c hm hn ↦ ?_) fun _ h ↦ need_eq_error h
  obtain ⟨c', hc, ha, -⟩ := need_eq_ok hm hn
  exact ⟨c', hc, ha⟩

theorem agrees_byte : Agrees ending byte byte := by
  refine agrees_of (n := 1) (·.headD 0) (·.take 1) (fun c _ hn ↦ ?_) fun c h ↦ ?_
  · obtain ⟨b, rest, hp⟩ := List.exists_cons_of_length_pos hn
    rw [hp]
    exact byte_eq_ok hp
  · exact byte_eq_error (List.eq_nil_of_length_eq_zero (by omega))

/-- Agreement is kept in lockstep by every reading. -/
theorem lockstep_agree : Lockstep (Agree ending) (fun _ ↦ False) where
  position h := h.position
  block := agrees_block
  byte := agrees_byte

/-- Looking ahead goes the same way, and then both cursors have looked. -/
theorem agrees_want {n : Nat} (hm : n ≤ maxBuffer) :
    Reading.Tracks (Agree ending) (Ahead ending n) (fun _ ↦ False) (want n) (want n) := by
  intro c d h
  by_cases hw : n ≤ c.pending.length ∨ c.closing = .finished
  · obtain ⟨c', hc, ha, hl⟩ := want_eq_ok hm hw
    rw [h.pending, h.closing, ← h.closing'] at hw
    obtain ⟨d', hd, ha', hl'⟩ := want_eq_ok hm hw
    rw [hc, hd]
    exact .ok ⟨h.advances ha ha', ha.pending_eq ▸ hl, ha'.pending_eq ▸ hl'⟩
  · rw [not_or, Nat.not_le] at hw
    cases hcl : c.closing with
    | finished => exact absurd hcl hw.2
    | failing cause =>
      obtain ⟨c', hc⟩ := want_eq_error hm hw.1 hcl
      obtain ⟨d', hd⟩ := want_eq_error hm (h.pending ▸ hw.1)
        (by rw [h.closing', ← h.closing, hcl])
      rw [hc, hd, h.failure_eq]
      exact .error trivial

/-! ## What is looked ahead for -/

theorem agrees_prologue : Agrees ending prologue prologue := by
  refine Tracks.bind (agrees_want (by decide)) fun _ ↦ Tracks.get fun c d h ↦ ?_
  have hh : c.holds 4 = d.holds 4 := by
    rw [holds_eq, holds_eq, decide_eq_decide]
    exact h.le_iff (by decide)
  by_cases hc : c.holds 4
  · rw [if_pos hc, if_pos (hh ▸ hc)]
    refine Tracks.bind (agrees_block 4) (fun found ↦ ?_) c d h.toAgree
    split
    · exact Tracks.pure _
    · exact Tracks.failAt (fun _ _ _ ↦ trivial) _ _
  · rw [if_neg hc, if_neg (hh ▸ hc)]
    have hr : c.remaining = d.remaining := by
      simp only [holds_eq, decide_eq_true_eq, Nat.not_le] at hc
      obtain ⟨hl, hl'⟩ := h.length_eq (Nat.lt_trans hc (by decide))
      exact hl.trans hl'.symm
    rw [hr]
    exact Tracks.bind (agrees_block _) (fun _ ↦ Tracks.failAt (fun _ _ _ ↦ trivial) _ _) c d
      h.toAgree

/-- The length of a record is read the same way, although the buffers show different parts of it. -/
theorem agrees_nextLength : Agrees ending nextLength nextLength := by
  apply Tracks.bind (agrees_want (by decide))
  intro _ c d h
  simp only [bind, EStateM.bind, peek, h.head?_eq]
  cases d.buffer.head? with
  | none =>
    simp only [fail, h.failure_eq]
    exact .error trivial
  | some b =>
    refine (?_ : Agrees ending _ _) c d h.toAgree
    dsimp only
    split
    · exact Tracks.bind (agrees_skip 1) fun _ ↦ Tracks.pure _
    · refine Tracks.bind ((agrees_want (by decide)).forget fun _ _ h ↦ h.toAgree) fun _ ↦ ?_
      apply Tracks.bind lockstep_agree.reading.varint
      intro length
      split
      · exact Tracks.pure _
      · exact Tracks.bind (agrees_need _) fun _ ↦ Tracks.pure _

end Reading

/-! ## Whole decodes -/

namespace Container

open Cursor

variable {ending : Ending}

/-- Decodes that go the same way from cursors that agree. -/
abbrev Agrees (ending : Ending) {α : Type} (x y : Decoding α) : Prop :=
  Decoding.Tracks (Agree ending) (Agree ending) (fun _ ↦ False) x y

theorem agrees_header (options : Options) (name : Bytes) :
    Agrees ending (header options name) (header options name) :=
  Reading.lockstep_agree.decoding.header Reading.agrees_prologue options name

theorem agrees_nextRecord (ctx : Context) : Agrees ending (nextRecord ctx) (nextRecord ctx) :=
  Reading.lockstep_agree.decoding.nextRecord Reading.agrees_nextLength (fun _ _ h ↦ h) ctx

/-- The end of the input is seen the same way, although only one buffer may show more of it. -/
theorem agrees_root : Agrees ending root root := by
  refine Tracks.bind (Decoding.tracks_ofReading (Reading.agrees_want (by decide))) fun _ ↦
    Tracks.get fun s t h ↦ ?_
  have hb : s.cursor.buffer = [] ↔ t.cursor.buffer = [] := by
    rw [← List.head?_eq_none_iff, ← List.head?_eq_none_iff, h.cursor.head?_eq]
  have hst : s.Beside (Agree ending) t := h.mono fun h ↦ h.toAgree
  have fails : Agrees ending (Decoding.ofReading (Reading.fail .trailingData) : Decoding Prototype)
      (Decoding.ofReading (Reading.fail .trailingData)) :=
    Decoding.tracks_ofReading (Reading.tracks_fail (fun _ _ ↦ Agree.position) _)
  rw [h.stack]
  refine (?_ : Agrees ending _ _) s t hst
  rcases hs : s.cursor.buffer with _ | ⟨b, u⟩ <;> rcases ht : t.cursor.buffer with _ | ⟨b', u'⟩
  · rcases t.stack with _ | ⟨⟨p, d⟩, _ | _⟩
    · exact fails
    · exact Tracks.pure p
    · exact fails
  · simp [hs, ht] at hb
  · simp [hs, ht] at hb
  · exact fails

/-- The allowance of rounds is counted by bytes that the source holds, in which sources differ that
deliver the same; but either allowance is enough. -/
theorem agrees_records (ctx : Context) {s t : Session} (h : s.Beside (Agree ending) t) :
    Outcome (Session.Beside (Agree ending)) (Session.Beside fun _ _ ↦ True) (fun _ ↦ False)
      (records (nextRecord ctx) (s.cursor.undelivered + 1) s)
      (records (nextRecord ctx) (t.cursor.undelivered + 1) t) := by
  have hs := s.cursor.length_pending_le
  have ht := t.cursor.length_pending_le
  rw [h.cursor.pending] at hs
  rw [records_rounds (s := t) (Nat.lt_succ_of_le ht) (Nat.lt_succ_of_le hs)]
  exact Decoding.tracks_records (fun _ _ ↦ Agree.position) (agrees_nextRecord ctx) _ s t h

theorem agrees_container (options : Options) (name : Bytes) :
    Agrees ending (container options name) (container options name) := by
  refine Tracks.bind (agrees_header options name) fun h ↦
    Tracks.bind (Decoding.tracks_note _) fun _ ↦ ?_
  exact Tracks.get fun s t hst ↦ (agrees_records _ hst).bind fun _ ↦ agrees_root

/-- The decodes from two sources whose cursors agree are the same. -/
theorem decode_eq_of_agree {source source' : Source}
    (h : Agree ending (.ofSource source) (.ofSource source')) (options : Options) (heap : Heap)
    (name : String) : decode options heap source name = decode options heap source' name := by
  have ho := agrees_container options (Utf8.encode name) (.start heap source) (.start heap source')
    ⟨h, rfl, rfl, rfl⟩
  unfold decode
  generalize container options (Utf8.encode name) (.start heap source) = x at ho ⊢
  generalize container options (Utf8.encode name) (.start heap source') = y at ho ⊢
  cases ho with
  | ok h => simp only [Decoded.ofRun, h.heap, h.events]
  | error h => simp only [Decoded.ofRun, h.heap, h.events]
  | stopped h => exact h.elim

/-- A source that closes well is decoded as its bytes are in one piece. -/
theorem decode_eq_ofBytes {source : Source} (hc : source.closing = .finished)
    (hl : source.delivered.length < maxBuffer) (options : Options) (heap : Heap) (name : String) :
    decode options heap source name = decode options heap (.ofBytes source.delivered) name := by
  have ha : Agree .finished (.ofSource source) (.ofSource (.ofBytes source.delivered)) :=
    ⟨by simp, rfl, hc, by simp, hl⟩
  exact decode_eq_of_agree ha options heap name

/-- A decode depends on its source only through the bytes that it delivers and how it closes behind
them: not on the pieces in which they come, nor on where reads are interrupted.  In particular a
source that closes well is decoded as its bytes are in one piece. -/
theorem decode_eq_of_delivered {source source' : Source} (hd : source.delivered = source'.delivered)
    (hc : source.closing = source'.closing) (hl : source.delivered.length < maxBuffer)
    (options : Options) (heap : Heap) (name : String) :
    decode options heap source name = decode options heap source' name ∧
      (source.closing = .finished →
        decode options heap source name =
          decode options heap (.ofBytes source.delivered) name) :=
  ⟨decode_eq_of_agree ⟨hd, rfl, rfl, hc.symm, hl⟩ options heap name,
    fun hf ↦ decode_eq_ofBytes hf hl options heap name⟩

/-- A container of one record in pieces of uneven size, with interruptions. -/
theorem decode_eq_of_delivered_pieces :
    decode .default .new ⟨[.bytes [0x1b, 0x4c], .interrupted, .bytes [0x4a], .bytes [2, 2, 7],
        .interrupted, .interrupted, .bytes [0, 0, 0, 0, 0, 0, 0, 0]], .finished⟩ "chunk" =
      decode .default .new
        (.ofBytes [0x1b, 0x4c, 0x4a, 2, 2, 7, 0, 0, 0, 0, 0, 0, 0, 0]) "chunk" :=
  (decode_eq_of_delivered (by rfl) (by rfl) (by decide) .default .new "chunk").1

end Container

end JitDump
