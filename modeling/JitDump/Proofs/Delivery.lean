import Mathlib.Tactic.Common
import JitDump.Cursor

/-!
# What a source delivers

A source hands its bytes out in pieces, with interruptions between them.  What a
decode can see of it is less: the bytes up to the first turn that says that the
input is over or that fails, and which of the two it is.  This file says what
the operations of a cursor do in terms of these two alone: of the bytes that are
`pending` and of the `closing` that every read reports after them.
-/

namespace JitDump

namespace Turn

/-- The bytes that some turns hand out before the input is over or a read fails. -/
def delivered : List Turn → Bytes
  | [] => []
  | .bytes [] :: _ => []
  | .bytes (b :: piece) :: later => b :: piece ++ delivered later
  | .interrupted :: later => delivered later
  | .failed _ :: _ => []

theorem length_delivered_le : ∀ turns, (delivered turns).length ≤ sizes turns
  | [] | .bytes [] :: _ | .failed _ :: _ => Nat.zero_le _
  | .interrupted :: later => by
    simpa [delivered, sizes, size] using length_delivered_le later
  | .bytes (b :: piece) :: later => by
    have := length_delivered_le later
    simp only [delivered, sizes, size, List.length_append]
    omega

/-- How the input closes behind what some turns deliver. -/
def closing (ending : Ending) : List Turn → Ending
  | [] => ending
  | .bytes [] :: _ => .finished
  | .bytes (_ :: _) :: later => closing ending later
  | .interrupted :: later => closing ending later
  | .failed cause :: _ => .failing cause

end Turn

namespace Source

def delivered (s : Source) : Bytes := Turn.delivered s.turns

def closing (s : Source) : Ending := Turn.closing s.ending s.turns

@[simp] theorem delivered_ofBytes (data : Bytes) : (ofBytes data).delivered = data := by
  cases data with
  | nil => rfl
  | cons b data => simp [delivered, ofBytes, Turn.delivered]

@[simp] theorem closing_ofBytes (data : Bytes) : (ofBytes data).closing = .finished := by
  cases data <;> rfl

/-- What one read reports of the bytes that a source delivers. -/
theorem delivered_of_read {limit : Nat} (hl : 0 < limit) {s t : Source} {turn : Turn}
    (h : s.read limit = (turn, t)) :
    match turn with
    | .bytes [] => s.delivered = [] ∧ s.closing = .finished
    | .bytes (b :: piece) => s.delivered = b :: piece ++ t.delivered ∧ s.closing = t.closing
    | .interrupted => s.delivered = t.delivered ∧ s.closing = t.closing
    | .failed cause => s.delivered = [] ∧ s.closing = .failing cause := by
  match s with
  | ⟨[], .finished⟩ | ⟨[], .failing _⟩ | ⟨.interrupted :: _, _⟩ | ⟨.failed _ :: _, _⟩ =>
    simp only [read, Prod.mk.injEq] at h
    obtain ⟨rfl, rfl⟩ := h
    exact ⟨rfl, rfl⟩
  | ⟨.bytes [] :: later, ending⟩ =>
    simp only [read, List.drop_nil, Prod.mk.injEq] at h
    obtain ⟨rfl, rfl⟩ := h
    exact ⟨rfl, rfl⟩
  | ⟨.bytes (b :: piece) :: later, ending⟩ =>
    obtain ⟨n, rfl⟩ : ∃ n, limit = n + 1 := ⟨limit - 1, by omega⟩
    simp only [read] at h
    split at h <;> simp only [Prod.mk.injEq] at h <;> obtain ⟨rfl, rfl⟩ := h
    · exact ⟨rfl, rfl⟩
    · rename_i b' rest heq
      have hcut : b :: piece = (b :: piece).take (n + 1) ++ b' :: rest := by
        rw [← heq, List.take_append_drop]
      refine ⟨?_, rfl⟩
      change b :: piece ++ Turn.delivered later =
        b :: piece.take n ++ (b' :: rest ++ Turn.delivered later)
      rw [← List.append_assoc]
      exact congrArg (· ++ Turn.delivered later) hcut

/-- What asking for `n` bytes gives, in terms of what a source delivers. -/
theorem pullFrom_delivered {limit : Nat} (hl : 0 < limit) (pieces : List Bytes) (n : Nat)
    (s : Source) :
    match (pullFrom limit pieces n s).outcome with
    | .enough => ∃ came, (pullFrom limit pieces n s).bytes = pieces.reverse.flatten ++ came ∧
        s.delivered = came ++ (pullFrom limit pieces n s).rest.delivered ∧
        s.closing = (pullFrom limit pieces n s).rest.closing ∧ n ≤ came.length
    | .ended => (pullFrom limit pieces n s).bytes = pieces.reverse.flatten ++ s.delivered ∧
        s.closing = .finished ∧ s.delivered.length < n
    | .failed cause => (pullFrom limit pieces n s).bytes = pieces.reverse.flatten ++ s.delivered ∧
        s.closing = .failing cause ∧ s.delivered.length < n := by
  fun_induction pullFrom limit pieces n s with
  | case1 => exact ⟨[], by simp⟩
  | case2 pieces n s hn t h =>
    obtain ⟨hd, hc⟩ := delivered_of_read hl h
    exact ⟨by simp [hd], hc, by simp [hd]; omega⟩
  | case3 pieces n s hn b piece t h _ ih =>
    obtain ⟨hd, hc⟩ := delivered_of_read hl h
    revert ih
    cases (pullFrom limit ((b :: piece) :: pieces) (n - (b :: piece).length) t).outcome with
    | enough =>
      rintro ⟨came, hb, hd', hc', hl'⟩
      exact ⟨b :: piece ++ came, hb.trans (by simp), by simp [hd, hd'], by rw [hc, hc'],
        by simp at hl' ⊢; omega⟩
    | ended =>
      rintro ⟨hb, hc', hl'⟩
      exact ⟨hb.trans (by simp [hd]), by rw [hc, hc'], by simp [hd] at hl' ⊢; omega⟩
    | failed cause =>
      rintro ⟨hb, hc', hl'⟩
      exact ⟨hb.trans (by simp [hd]), by rw [hc, hc'], by simp [hd] at hl' ⊢; omega⟩
  | case4 pieces n s hn t h _ ih =>
    obtain ⟨hd, hc⟩ := delivered_of_read hl h
    rw [hd, hc]
    exact ih
  | case5 pieces n s hn cause t h =>
    obtain ⟨hd, hc⟩ := delivered_of_read hl h
    exact ⟨by simp [hd], hc, by simp [hd]; omega⟩

end Source

namespace Cursor

/-- The bytes that are still to be read. -/
def pending (c : Cursor) : Bytes :=
  if c.ended then c.buffer else c.buffer ++ c.source.delivered

/-- How the input closes behind the pending bytes. -/
def closing (c : Cursor) : Ending := if c.ended then .finished else c.source.closing

theorem length_pending_le (c : Cursor) : c.pending.length ≤ c.undelivered := by
  have := Turn.length_delivered_le c.source.turns
  unfold pending undelivered
  split
  · omega
  · rw [List.length_append]
    exact Nat.add_le_add_left this _

@[simp] theorem pending_ofSource (s : Source) : (ofSource s).pending = s.delivered := rfl

@[simp] theorem position_ofSource (s : Source) : (ofSource s).position = 0 := rfl

@[simp] theorem closing_ofSource (s : Source) : (ofSource s).closing = s.closing := rfl

theorem length_buffer_le (c : Cursor) : c.buffer.length ≤ c.pending.length := by
  unfold pending
  split <;> simp

/-- `c'` is `c` with the bytes `u` consumed. -/
structure Advances (c : Cursor) (u : Bytes) (c' : Cursor) : Prop where
  pending : c.pending = u ++ c'.pending
  position : c'.position = c.position + u.length
  closing : c'.closing = c.closing

namespace Advances

variable {c c₁ c₂ : Cursor} {u v : Bytes}

theorem refl (c : Cursor) : c.Advances [] c := ⟨rfl, rfl, rfl⟩

theorem trans (h : c.Advances u c₁) (h' : c₁.Advances v c₂) : c.Advances (u ++ v) c₂ where
  pending := by rw [h.pending, h'.pending, List.append_assoc]
  position := by rw [h'.position, h.position, List.length_append, Nat.add_assoc]
  closing := h'.closing.trans h.closing

/-- Behind the bytes that are consumed stands what stood behind them before. -/
theorem pending_of_append (h : c.Advances u c₁) (hp : c.pending = u ++ v) : c₁.pending = v :=
  List.append_cancel_left (h.pending.symm.trans hp)

theorem pending_eq (h : c.Advances [] c₁) : c₁.pending = c.pending := h.pending.symm

theorem position_eq (h : c.Advances [] c₁) : c₁.position = c.position := h.position

theorem failure_eq (h : c.Advances [] c₁) (fault : Fault) : c₁.failure fault = c.failure fault := by
  rw [failure, failure, h.position_eq]

end Advances

/-- Consuming bytes that are in the buffer. -/
theorem advances_drop {c : Cursor} {n : Nat} (h : n ≤ c.buffer.length) :
    c.Advances (c.pending.take n)
      { c with buffer := c.buffer.drop n, position := c.position + n } where
  pending := by
    unfold pending
    split
    · exact (List.take_append_drop n c.buffer).symm
    · rw [List.take_append_of_le_length h, ← List.append_assoc, List.take_append_drop]
  position := by
    have := c.length_buffer_le
    simp only [List.length_take]
    omega
  closing := rfl

/-- The bytes in the buffer are the first pending ones. -/
theorem take_buffer {c : Cursor} {n : Nat} (h : n ≤ c.buffer.length) :
    c.buffer.take n = c.pending.take n := by
  unfold pending
  split
  · rfl
  · rw [List.take_append_of_le_length h]

/-- Why `n` bytes cannot be had when fewer are pending. -/
def shortage (c : Cursor) (n : Nat) : Fault :=
  if maxBuffer < n then .bufferLimit n
  else match c.closing with
    | .finished => .truncatedInput
    | .failing cause => .io cause

end Cursor

namespace Reading

open Cursor

variable {c c' : Cursor} {n : Nat}

/-- Filling up to `n` bytes goes well if they are pending or if the input ends behind the pending
ones; the buffer then holds as many as there are. -/
theorem fill_eq_ok (hn : n ≤ maxBuffer) (h : n ≤ c.pending.length ∨ c.closing = .finished) :
    ∃ c', fill n c = .ok () c' ∧ c.Advances [] c' ∧ min n c.pending.length ≤ c'.buffer.length := by
  obtain ⟨buffer, position, ended, source⟩ := c
  cases ended with
  | true =>
    exact ⟨_, by simp [fill, Nat.not_lt.2 hn], .refl _, Nat.min_le_right _ _⟩
  | false =>
    have hp := Source.pullFrom_delivered (by decide : 0 < refillChunk) [] (n - buffer.length) source
    simp only [fill, Nat.not_lt.2 hn, if_false, Bool.false_eq_true, Source.pull]
    generalize Source.pullFrom refillChunk [] (n - buffer.length) source = p at hp
    obtain ⟨bytes, outcome, rest⟩ := p
    simp only [pending, closing, Bool.false_eq_true, if_false, List.length_append] at h
    cases outcome with
    | enough =>
      obtain ⟨came, hb, hd, hc, hl⟩ := hp
      simp only [List.reverse_nil, List.flatten_nil, List.nil_append] at hb
      subst hb
      refine ⟨_, rfl, ⟨by simp [pending, hd], rfl, hc.symm⟩, ?_⟩
      simp only [List.length_append]
      omega
    | ended =>
      obtain ⟨hb, hc, -⟩ := hp
      simp only [List.reverse_nil, List.flatten_nil, List.nil_append] at hb
      subst hb
      refine ⟨_, rfl, ⟨by simp [pending], rfl, by simp [closing, hc]⟩, ?_⟩
      simp only [pending, Bool.false_eq_true, if_false]
      exact Nat.min_le_right _ _
    | failed cause =>
      obtain ⟨-, hc, hl⟩ := hp
      rw [hc] at h
      simp only [reduceCtorEq, or_false] at h
      omega

/-- Filling up to more bytes than are pending reports the failure of the source behind them. -/
theorem fill_eq_error {cause : String} (hn : n ≤ maxBuffer) (h : c.pending.length < n)
    (hc : c.closing = .failing cause) : ∃ c', fill n c = .error (c.failure (.io cause)) c' := by
  obtain ⟨buffer, position, ended, source⟩ := c
  cases ended with
  | true => simp [closing] at hc
  | false =>
    have hp := Source.pullFrom_delivered (by decide : 0 < refillChunk) [] (n - buffer.length) source
    simp only [fill, Nat.not_lt.2 hn, if_false, Bool.false_eq_true, Source.pull]
    generalize Source.pullFrom refillChunk [] (n - buffer.length) source = p at hp
    obtain ⟨bytes, outcome, rest⟩ := p
    simp only [pending, closing, Bool.false_eq_true, if_false, List.length_append] at h hc
    cases outcome with
    | enough =>
      obtain ⟨came, -, hd, -, hl⟩ := hp
      rw [hd, List.length_append] at h
      omega
    | ended =>
      obtain ⟨-, hc', -⟩ := hp
      rw [hc'] at hc
      cases hc
    | failed cause' =>
      obtain ⟨-, hc', -⟩ := hp
      rw [hc'] at hc
      cases hc
      exact ⟨_, rfl⟩

/-! ## Having bytes in the buffer -/

theorem need_eq_ok (hn : n ≤ maxBuffer) (h : n ≤ c.pending.length) :
    ∃ c', need n c = .ok () c' ∧ c.Advances [] c' ∧ n ≤ c'.buffer.length := by
  by_cases hb : n ≤ c.buffer.length
  · exact ⟨c, by simp [need, hb], .refl c, hb⟩
  · obtain ⟨c', hf, ha, hm⟩ := fill_eq_ok hn (.inl h)
    rw [Nat.min_eq_left h] at hm
    exact ⟨c', by simp [need, hb, hf, hm], ha, hm⟩

/-- Needing more bytes than are pending fails where the cursor stands. -/
theorem need_eq_error (h : c.pending.length < n) :
    ∃ c', need n c = .error (c.failure (c.shortage n)) c' := by
  have hb : ¬ n ≤ c.buffer.length := by have := c.length_buffer_le; omega
  by_cases hn : maxBuffer < n
  · exact ⟨c, by simp [need, hb, fill, shortage, hn]⟩
  · cases hc : c.closing with
    | finished =>
      obtain ⟨c', hf, ha, -⟩ := fill_eq_ok (n := n) (Nat.not_lt.1 hn) (.inr hc)
      have hb' : ¬ n ≤ c'.buffer.length := by
        have := c'.length_buffer_le
        rw [ha.pending_eq] at this
        omega
      exact ⟨c', by simp [need, hb, hf, hb', shortage, hn, hc, Cursor.failure, ha.position_eq]⟩
    | failing cause =>
      obtain ⟨c', hf⟩ := fill_eq_error (Nat.not_lt.1 hn) h hc
      exact ⟨c', by simp [need, hb, hf, shortage, hn, hc]⟩

/-- There is no other cause why needing bytes fails. -/
theorem of_need_eq_error {e : Failure} (h : need n c = .error e c') :
    e = c.failure (c.shortage n) := by
  by_cases hn : maxBuffer < n
  · by_cases hb : n ≤ c.buffer.length
    · simp [need, hb] at h
    · simp only [need, holds_eq, hb, decide_false, Bool.false_eq_true, if_false, fill, hn,
        if_true] at h
      cases h
      rw [shortage, if_pos hn]
  · by_cases hp : n ≤ c.pending.length
    · obtain ⟨c₁, ho, -⟩ := need_eq_ok (Nat.not_lt.1 hn) hp
      rw [ho] at h
      cases h
    · obtain ⟨c₁, he⟩ := need_eq_error (Nat.not_le.1 hp)
      rw [he] at h
      cases h
      rfl

theorem of_need_eq_ok (h : need n c = .ok () c') :
    n ≤ c.pending.length ∧ c.Advances [] c' ∧ n ≤ c'.buffer.length := by
  have hp : n ≤ c.pending.length := by
    by_contra hlt
    obtain ⟨c₁, he⟩ := need_eq_error (Nat.not_le.1 hlt)
    rw [he] at h
    cases h
  refine ⟨hp, ?_⟩
  by_cases hb : n ≤ c.buffer.length
  · simp only [need, holds_eq, hb, decide_true, if_true] at h
    cases h
    exact ⟨.refl c, hb⟩
  · -- the buffer was filled, which the limit refuses for a larger `n`
    have hn : n ≤ maxBuffer := by
      by_contra hlt
      simp [need, hb, fill, Nat.not_le.1 hlt] at h
    obtain ⟨c₁, ho, ha, hm⟩ := need_eq_ok hn hp
    rw [ho] at h
    cases h
    exact ⟨ha, hm⟩

/-- Looking ahead changes nothing but the buffer, which then holds as much as there is. -/
theorem want_eq_ok (hn : n ≤ maxBuffer) (h : n ≤ c.pending.length ∨ c.closing = .finished) :
    ∃ c', want n c = .ok () c' ∧ c.Advances [] c' ∧ min n c.pending.length ≤ c'.buffer.length := by
  by_cases hb : n ≤ c.buffer.length
  · exact ⟨c, by simp [want, hb], .refl c, Nat.le_trans (Nat.min_le_left _ _) hb⟩
  · by_cases he : c.ended
    · refine ⟨c, by simp [want, he], .refl c, ?_⟩
      simp only [pending, he, if_true]
      exact Nat.min_le_right _ _
    · simpa [want, hb, he] using fill_eq_ok hn h

theorem want_eq_error {cause : String} (hn : n ≤ maxBuffer) (h : c.pending.length < n)
    (hc : c.closing = .failing cause) : ∃ c', want n c = .error (c.failure (.io cause)) c' := by
  have hb : ¬ n ≤ c.buffer.length := by have := c.length_buffer_le; omega
  have he : c.ended = false := by
    cases he : c.ended
    · rfl
    · simp [closing, he] at hc
  simpa [want, hb, he] using fill_eq_error hn h hc

/-- Looking ahead beyond what is pending does not go well in front of a source that fails. -/
theorem length_le_of_want (hn : n ≤ maxBuffer) (h : want n c = .ok () c') :
    n ≤ c.pending.length ∨ c.closing = .finished := by
  by_contra hlt
  rw [not_or, Nat.not_le] at hlt
  cases hc : c.closing with
  | finished => exact hlt.2 hc
  | failing cause =>
    obtain ⟨c₁, he⟩ := want_eq_error hn hlt.1 hc
    rw [he] at h
    cases h

theorem of_want_eq_ok (hn : n ≤ maxBuffer) (h : want n c = .ok () c') :
    c.Advances [] c' ∧ min n c.pending.length ≤ c'.buffer.length := by
  obtain ⟨c₁, ho, hw⟩ := want_eq_ok hn (length_le_of_want hn h)
  rw [ho] at h
  cases h
  exact hw

/-- Looking ahead fails only where a failing source is short of what is asked for. -/
theorem of_want_eq_error {e : Failure} (hn : n ≤ maxBuffer) (h : want n c = .error e c') :
    e = c.failure (c.shortage n) := by
  by_cases hp : n ≤ c.pending.length ∨ c.closing = .finished
  · obtain ⟨c₁, ho, -⟩ := want_eq_ok hn hp
    rw [ho] at h
    cases h
  · rw [not_or, Nat.not_le] at hp
    cases hc : c.closing with
    | finished => exact absurd hc hp.2
    | failing cause =>
      obtain ⟨c₁, he⟩ := want_eq_error hn hp.1 hc
      rw [he] at h
      cases h
      rw [shortage, if_neg (Nat.not_lt.2 hn), hc]

/-- Once a byte is looked ahead for, the buffer shows the next pending one. -/
theorem head?_buffer (h : min 1 c.pending.length ≤ c.buffer.length) :
    c.buffer.head? = c.pending.head? := by
  unfold pending at h ⊢
  split
  · rfl
  · rename_i he
    rw [if_neg he, List.length_append] at h
    cases hb : c.buffer with
    | cons b rest => simp
    | nil =>
      simp only [hb, List.length_nil, Nat.zero_add, Nat.le_zero_eq] at h
      have : c.source.delivered = [] := List.eq_nil_of_length_eq_zero (by omega)
      simp [this]

/-! ## Consuming bytes -/

theorem block_eq_ok (hn : n ≤ maxBuffer) (h : n ≤ c.pending.length) :
    ∃ c', block n c = .ok (c.pending.take n) c' ∧ c.Advances (c.pending.take n) c' := by
  obtain ⟨c₁, ho, ha, hb⟩ := need_eq_ok hn h
  have hd := advances_drop hb
  rw [ha.pending_eq] at hd
  exact ⟨_, by simp only [block, ho, List.splitAt_eq, take_buffer hb, ha.pending_eq], ha.trans hd⟩

theorem block_eq_error (h : c.pending.length < n) :
    ∃ c', block n c = .error (c.failure (c.shortage n)) c' := by
  obtain ⟨c', he⟩ := need_eq_error h
  exact ⟨c', by simp [block, he]⟩

theorem of_block_eq_error {e : Failure} (h : block n c = .error e c') :
    e = c.failure (c.shortage n) := by
  simp only [block] at h
  split at h
  · cases h
  · cases h
    exact of_need_eq_error ‹_›

theorem of_block_eq_ok {u : Bytes} (h : block n c = .ok u c') : u.length = n ∧ c.Advances u c' := by
  simp only [block] at h
  split at h
  · rename_i c₁ hn
    obtain ⟨-, ha, hb⟩ := of_need_eq_ok hn
    have hd := advances_drop hb
    simp only [List.splitAt_eq] at h
    cases h
    rw [← take_buffer hb] at hd
    exact ⟨List.length_take_of_le hb, ha.trans hd⟩
  · cases h

theorem skip_eq_ok (hn : n ≤ maxBuffer) (h : n ≤ c.pending.length) :
    ∃ c', skip n c = .ok () c' ∧ c.Advances (c.pending.take n) c' := by
  obtain ⟨c₁, ho, ha, hb⟩ := need_eq_ok hn h
  have hd := advances_drop hb
  rw [ha.pending_eq] at hd
  exact ⟨_, by simp only [skip, ho], ha.trans hd⟩

theorem skip_eq_error (h : c.pending.length < n) :
    ∃ c', skip n c = .error (c.failure (c.shortage n)) c' := by
  obtain ⟨c', he⟩ := need_eq_error h
  exact ⟨c', by simp [skip, he]⟩

theorem byte_eq_ok {b : UInt8} {rest : Bytes} (h : c.pending = b :: rest) :
    ∃ c', byte c = .ok b c' ∧ c.Advances [b] c' := by
  obtain ⟨c₁, ho, ha, hb⟩ := need_eq_ok (n := 1) (c := c) (by decide) (by simp [h])
  have hd := advances_drop hb
  have ht := take_buffer hb
  rw [ha.pending_eq, h] at hd ht
  obtain ⟨buffer, position, ended, source⟩ := c₁
  cases buffer with
  | nil => simp at hb
  | cons b' buffer =>
    simp only [List.take_succ_cons, List.take_zero, List.cons.injEq, and_true] at ht
    subst ht
    exact ⟨_, by simp only [byte, ho]; rfl, ha.trans hd⟩

theorem byte_eq_error (h : c.pending = []) :
    ∃ c', byte c = .error (c.failure (c.shortage 1)) c' := by
  obtain ⟨c', he⟩ := need_eq_error (n := 1) (c := c) (by simp [h])
  exact ⟨c', by simp [byte, he]⟩

theorem of_byte_eq_ok {b : UInt8} (h : byte c = .ok b c') : c.Advances [b] c' := by
  cases hp : c.pending with
  | nil =>
    obtain ⟨c₁, he⟩ := byte_eq_error hp
    rw [he] at h
    cases h
  | cons b' rest =>
    obtain ⟨c₁, ho, ha⟩ := byte_eq_ok hp
    rw [ho] at h
    cases h
    exact ha

end Reading

end JitDump
