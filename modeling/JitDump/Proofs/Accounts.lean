import JitDump.Proofs.Locality
import JitDump.Proofs.Retries

/-!
# No byte is lost and none comes twice

A cursor keeps an account of its source: what the source has handed out is what
has been consumed and, behind it, what is in the buffer, and the position counts
what has been consumed.  Filling the buffer keeps the account whether it goes well
or fails, and everything else moves bytes from the front of the buffer to the
consumed ones, so the account is kept along all calls that a reader may make, in
any order, failed ones among them.
-/

namespace JitDump

/-! ## What a source has handed out -/

/-- The bytes that one read hands out. -/
def Turn.piece : Turn → Bytes
  | .bytes piece => piece
  | .interrupted | .failed _ => []

namespace Source

open Cursor (refillChunk)

/-- Some reads, one after another, hand out the bytes `w` and leave `t` of the source `s`. -/
inductive Hands : Source → Bytes → Source → Prop
  | refl (s : Source) : Hands s [] s
  | read {s r t : Source} {turn : Turn} {w : Bytes} (h : s.read refillChunk = (turn, r))
      (hw : Hands r w t) : Hands s (turn.piece ++ w) t

variable {s r t : Source} {v w : Bytes}

theorem Hands.trans (h : s.Hands v r) (h' : r.Hands w t) : s.Hands (v ++ w) t := by
  induction h with
  | refl => exact h'
  | read hr _ ih =>
    rw [List.append_assoc]
    exact .read hr (ih h')

/-- What is asked for comes in reads. -/
theorem hands_pullFrom (pieces : List Bytes) (n : Nat) (s : Source) :
    ∃ w, s.Hands w (pullFrom refillChunk pieces n s).rest ∧
      (pullFrom refillChunk pieces n s).bytes = pieces.reverse.flatten ++ w := by
  fun_induction pullFrom refillChunk pieces n s with
  | case1 pieces s => exact ⟨[], .refl s, (List.append_nil _).symm⟩
  | case2 pieces n s hn t h => exact ⟨_, .read h (.refl t), by simp [Turn.piece]⟩
  | case3 pieces n s hn b piece t h _ ih =>
    obtain ⟨w, hw, hb⟩ := ih
    exact ⟨_, .read h hw, by rw [hb]; simp [Turn.piece]⟩
  | case4 pieces n s hn t h _ ih =>
    obtain ⟨w, hw, hb⟩ := ih
    exact ⟨_, .read h hw, hb⟩
  | case5 pieces n s hn cause t h => exact ⟨_, .read h (.refl t), by simp [Turn.piece]⟩

end Source

/-- A source that never fails ends. -/
theorem Source.closing_unfailing (s : Source) : s.unfailing.closing = .finished := by
  obtain ⟨turns, ending⟩ := s
  simp only [unfailing, closing]
  induction turns with
  | nil => rfl
  | cons turn later ih =>
    match turn with
    | .bytes [] => rfl
    | .bytes (_ :: _) | .interrupted | .failed _ => exact ih

/-! ## The account of a cursor -/

namespace Cursor

/-- The bytes that are still to be read, whether or not the source fails in between. -/
def outstanding (c : Cursor) : Bytes := c.unfailing.pending

theorem closing_unfailing (c : Cursor) : c.unfailing.closing = .finished := by
  rw [closing]
  split
  · rfl
  · exact c.source.closing_unfailing

/-- From `c` to `c'` the bytes `u` are consumed: of the buffer and what the source hands out, the
rest is in the buffer. -/
structure Moves (c : Cursor) (u : Bytes) (c' : Cursor) : Prop where
  handed : ∃ w, c.source.Hands w c'.source ∧ c.buffer ++ w = u ++ c'.buffer
  position : c'.position = c.position + u.length
  outstanding : c.outstanding = u ++ c'.outstanding

variable {c c₁ c₂ : Cursor} {u v : Bytes}

theorem Moves.refl (c : Cursor) : c.Moves [] c := ⟨⟨[], .refl _, List.append_nil _⟩, rfl, rfl⟩

theorem Moves.trans (h : c.Moves u c₁) (h' : c₁.Moves v c₂) : c.Moves (u ++ v) c₂ where
  handed := by
    obtain ⟨w, hw, hb⟩ := h.handed
    obtain ⟨w', hw', hb'⟩ := h'.handed
    refine ⟨w ++ w', hw.trans hw', ?_⟩
    rw [← List.append_assoc, hb, List.append_assoc, hb', List.append_assoc]
  position := by rw [h'.position, h.position, List.length_append, Nat.add_assoc]
  outstanding := by rw [h.outstanding, h'.outstanding, List.append_assoc]

/-- Consuming bytes of the buffer. -/
theorem moves_drop {n : Nat} (h : n ≤ c.buffer.length) :
    c.Moves (c.buffer.take n)
      { c with buffer := c.buffer.drop n, position := c.position + n } where
  handed := ⟨[], .refl _, by rw [List.append_nil, List.take_append_drop]⟩
  position := by rw [List.length_take_of_le h]
  outstanding := by
    have hd := advances_drop (c := c.unfailing) h
    rw [← take_buffer (c := c.unfailing) h] at hd
    exact hd.pending

end Cursor

namespace Reading

open Cursor

variable {α β : Type} {x : Reading α} {f : α → Reading β} {c : Cursor} {n : Nat}

/-! ## Readings that keep the account -/

/-- Whatever a reading answers, it moves bytes of the account. What these are is told by
`tells` if it goes well, and by `leaves` if it fails. -/
def Consumes (x : Reading α) (tells : α → Bytes → Cursor → Prop) (leaves : Bytes → Prop) : Prop :=
  ∀ c, match x c with
    | .ok a c' => ∃ u, c.Moves u c' ∧ tells a u c'
    | .error _ c' => ∃ u, c.Moves u c' ∧ leaves u

section

variable {tells : α → Bytes → Cursor → Prop} {tells' : β → Bytes → Cursor → Prop}
variable {leaves : Bytes → Prop}

theorem Consumes.of_ok {a : α} {c' : Cursor} (h : Consumes x tells leaves) (hx : x c = .ok a c') :
    ∃ u, c.Moves u c' ∧ tells a u c' := by
  have hc := h c
  rwa [hx] at hc

theorem Consumes.of_error {e : Failure} {c' : Cursor} (h : Consumes x tells leaves)
    (hx : x c = .error e c') : ∃ u, c.Moves u c' ∧ leaves u := by
  have hc := h c
  rwa [hx] at hc

/-- Behind a reading that goes well another one does as well. -/
theorem Consumes.bind (h : Consumes x tells leaves)
    (hf : ∀ a u c, tells a u c → ∃ b v c', f a c = .ok b c' ∧ c.Moves v c' ∧ tells' b (u ++ v) c') :
    Consumes (x >>= f) tells' leaves := by
  intro c
  cases hx : x c with
  | ok a c₁ =>
    obtain ⟨u, hu, hs⟩ := h.of_ok hx
    obtain ⟨b, v, c₂, hb, hv, hs'⟩ := hf a u c₁ hs
    rw [Fallible.bind_of_ok hx, hb]
    exact ⟨u ++ v, hu.trans hv, hs'⟩
  | error e c₁ =>
    rw [Fallible.bind_of_error hx]
    exact h.of_error hx

/-- What a reading returns may be put into another form. -/
theorem Consumes.bind_pure {g : α → β} (h : Consumes x tells leaves)
    (hg : ∀ a u c, tells a u c → tells' (g a) u c) :
    Consumes (x >>= fun a ↦ pure (g a)) tells' leaves :=
  h.bind fun a u c hs ↦ ⟨g a, [], c, rfl, .refl c, (List.append_nil u).symm ▸ hg a u c hs⟩

end

/-- Filling the buffer changes nothing about what is still to be read. -/
theorem outstanding_fill (hn : n ≤ maxBuffer) (c : Cursor) :
    match fill n c with
    | .ok _ c' | .error _ c' => c.outstanding = c'.outstanding := by
  have hok (c : Cursor) : ∃ c', fill n c.unfailing = .ok () c' ∧ c'.pending = c.outstanding := by
    obtain ⟨c', hf, ha, -⟩ := fill_eq_ok hn (.inr c.closing_unfailing)
    exact ⟨c', hf, ha.pending_eq⟩
  obtain ⟨c₁, hf, hp⟩ := hok c
  have hpatient := patient_fill n c
  generalize fill n c = r at hpatient
  cases hpatient with
  | ok h =>
    rw [hf] at h
    cases h
    exact hp.symm
  | refused _ h =>
    rw [hf] at h
    cases h
  | @failed _ c' _ h =>
    -- behind the failure the rest is filled in as if there had been none
    obtain ⟨c₂, hf', hp'⟩ := hok c'
    rw [hf, hf'] at h
    cases h
    exact hp.symm.trans hp'

/-- Filling the buffer consumes nothing, whether it goes well or fails, and if it goes well, the
input has not gone on beyond what is in the buffer. -/
theorem consumes_fill (n : Nat) :
    Consumes (fill n) (fun _ u c ↦ u = [] ∧ (n ≤ c.buffer.length ∨ c.ended = true)) (· = []) := by
  intro c
  rcases Nat.lt_or_ge maxBuffer n with hn | hn
  · rw [fill_of_lt hn]
    exact ⟨[], .refl c, rfl⟩
  by_cases he : c.ended = true
  · rw [fill_of_ended hn he]
    exact ⟨[], .refl c, rfl, .inr he⟩
  have hout := outstanding_fill hn c
  obtain ⟨buffer, position, ended, source⟩ := c
  obtain rfl : ended = false := Bool.eq_false_iff.2 he
  obtain ⟨w, hw, hb⟩ := source.hands_pullFrom [] (n - buffer.length)
  have hd := source.pullFrom_delivered (by decide : 0 < refillChunk) [] (n - buffer.length)
  rw [fill_eq_filled hn] at hout ⊢
  generalize source.pullFrom refillChunk [] (n - buffer.length) = p at hw hb hout hd
  obtain ⟨bytes, outcome, rest⟩ := p
  obtain rfl : bytes = w := hb
  cases outcome with
  | enough =>
    obtain ⟨came, hcame, -, -, hlen⟩ := hd
    obtain rfl : bytes = came := hcame
    refine ⟨[], ⟨⟨bytes, hw, rfl⟩, rfl, hout⟩, rfl, .inl ?_⟩
    simp only [List.length_append]
    omega
  | ended => exact ⟨[], ⟨⟨bytes, hw, rfl⟩, rfl, hout⟩, rfl, .inr rfl⟩
  | failed cause => exact ⟨[], ⟨⟨bytes, hw, rfl⟩, rfl, hout⟩, rfl⟩

/-- Needing bytes consumes nothing, and has them in the buffer if it goes well. -/
theorem consumes_need (n : Nat) :
    Consumes (need n) (fun _ u c ↦ u = [] ∧ n ≤ c.buffer.length) (· = []) := by
  intro c
  by_cases h : c.holds n = true
  · rw [need, if_pos h]
    exact ⟨[], .refl c, rfl, by simpa using h⟩
  · have hf := consumes_fill n c
    rw [need, if_neg h]
    generalize fill n c = r at hf
    cases r with
    | error e c' => exact hf
    | ok _ c' =>
      obtain ⟨u, hm, rfl, -⟩ := hf
      by_cases h' : c'.holds n = true
      · simp only [if_pos h']
        exact ⟨[], hm, rfl, by simpa using h'⟩
      · simp only [if_neg h']
        exact ⟨[], hm, rfl⟩

theorem consumes_want (n : Nat) :
    Consumes (want n) (fun _ u c ↦ u = [] ∧ (n ≤ c.buffer.length ∨ c.ended = true)) (· = []) := by
  intro c
  by_cases h : (c.holds n || c.ended) = true
  · rw [want, if_pos h]
    exact ⟨[], .refl c, rfl, by simpa using h⟩
  · rw [want, if_neg h]
    exact consumes_fill n c

theorem consumes_peek : Consumes peek (fun next u c ↦ u = [] ∧ next = c.buffer.head?) (· = []) :=
  fun c ↦ ⟨[], .refl c, rfl, rfl⟩

/-- A block is what is consumed. -/
theorem consumes_block (n : Nat) :
    Consumes (block n) (fun v u _ ↦ u = v ∧ v.length = n) (· = []) := by
  rw [block_eq]
  refine (consumes_need n).bind ?_
  rintro _ _ c ⟨rfl, hn⟩
  exact ⟨_, _, _, rfl, moves_drop hn, rfl, List.length_take_of_le hn⟩

theorem consumes_skip (n : Nat) : Consumes (skip n) (fun _ u _ ↦ u.length = n) (· = []) := by
  rw [skip_eq]
  refine (consumes_block n).bind_pure ?_
  rintro _ _ c ⟨rfl, hn⟩
  exact hn

theorem consumes_byte : Consumes byte (fun b u _ ↦ u = [b]) (· = []) := by
  rw [byte_eq]
  refine (consumes_need 1).bind ?_
  rintro _ _ c ⟨rfl, hn⟩
  have hd := moves_drop hn
  obtain ⟨buffer, position, ended, source⟩ := c
  cases buffer with
  | nil => cases hn
  | cons b rest => exact ⟨b, [b], _, rfl, hd, rfl⟩

theorem consumes_word16 (order : ByteOrder) :
    Consumes (word16 order) (fun w u _ ↦ ∃ a b, u = [a, b] ∧ w = order.word16 a b) (· = []) := by
  refine (consumes_block 2).bind ?_
  rintro _ u c ⟨rfl, hlen⟩
  match u, hlen with
  | [a, b], _ => exact ⟨_, [], c, rfl, .refl c, a, b, rfl, rfl⟩

theorem consumes_word32 (order : ByteOrder) :
    Consumes (word32 order)
      (fun w u _ ↦ ∃ a b d e, u = [a, b, d, e] ∧ w = order.word32 a b d e) (· = []) := by
  refine (consumes_block 4).bind ?_
  rintro _ u c ⟨rfl, hlen⟩
  match u, hlen with
  | [a, b, d, e], _ => exact ⟨_, [], c, rfl, .refl c, a, b, d, e, rfl, rfl⟩

/-- The bytes of a number are consumed one by one, also in front of a failure. -/
theorem consumes_groupsFrom (done : Bytes) :
    Consumes (groupsFrom done) (fun w u _ ↦ Varint.Whole u ∧ w = done.reverse ++ u)
      fun u ↦ ∀ b ∈ u, Varint.continues b = true := by
  intro c
  fun_induction groupsFrom done c with
  | case1 done c b c₁ hb _ hw ih =>
    obtain ⟨_, hm, rfl⟩ := consumes_byte.of_ok hb
    generalize groupsFrom (b :: done) c₁ = r at ih
    cases r with
    | ok w c' =>
      obtain ⟨u, hu, hwhole, rfl⟩ := ih
      exact ⟨b :: u, hm.trans hu, .more hw hwhole, by simp⟩
    | error e c' =>
      obtain ⟨u, hu, hall⟩ := ih
      exact ⟨b :: u, hm.trans hu, List.forall_mem_cons.2 ⟨hw, hall⟩⟩
  | case2 done c b c₁ hb _ hw =>
    obtain ⟨_, hm, rfl⟩ := consumes_byte.of_ok hb
    exact ⟨[b], hm, .last (by simpa using hw), by simp⟩
  | case3 done c e c₁ hb =>
    obtain ⟨_, hm, rfl⟩ := consumes_byte.of_error hb
    exact ⟨[], hm, by simp⟩

theorem consumes_varint :
    Consumes varint (fun v u _ ↦ Varint.Whole u ∧ v = Varint.value u)
      fun u ↦ ∀ b ∈ u, Varint.continues b = true :=
  (consumes_groupsFrom []).bind_pure fun _ _ _ ⟨hu, hw⟩ ↦ ⟨hu, congrArg Varint.value hw⟩

theorem consumes_taggedVarint :
    Consumes taggedVarint (fun v u _ ↦ Varint.Whole u ∧ v = Varint.taggedValue u)
      fun u ↦ ∀ b ∈ u, Varint.continues b = true :=
  (consumes_groupsFrom []).bind_pure fun _ _ _ ⟨hu, hw⟩ ↦ ⟨hu, congrArg Varint.taggedValue hw⟩

end Reading

/-! ## Calls -/

namespace Cursor

/-- What a reader may call a cursor for. -/
inductive Call
  | need (n : Nat)
  | want (n : Nat)
  | skip (n : Nat)
  | peek
  | byte
  | word16 (order : ByteOrder)
  | word32 (order : ByteOrder)
  | block (n : Nat)
  | varint
  | taggedVarint

namespace Call

/-- What a call returns. -/
def Answer : Call → Type
  | need _ | want _ | skip _ => Unit
  | peek => Option UInt8
  | byte => UInt8
  | word16 _ => UInt16
  | word32 _ => UInt32
  | block _ => Bytes
  | varint => UInt32
  | taggedVarint => UInt32 × Bool

def reading : (k : Call) → Reading k.Answer
  | need n => Reading.need n
  | want n => Reading.want n
  | skip n => Reading.skip n
  | peek => Reading.peek
  | byte => Reading.byte
  | word16 order => Reading.word16 order
  | word32 order => Reading.word32 order
  | block n => Reading.block n
  | varint => Reading.varint
  | taggedVarint => Reading.taggedVarint

/-- Whether a call reads a number of variable length, byte by byte. -/
def isNumber : Call → Bool
  | varint | taggedVarint => true
  | _ => false

/-- What the answer of a call says of the bytes that it consumed and of the cursor that it left. -/
def Says : (k : Call) → k.Answer → Bytes → Cursor → Prop
  | need n, _, u, c => u = [] ∧ n ≤ c.buffer.length
  | want n, _, u, c => u = [] ∧ (n ≤ c.buffer.length ∨ c.ended = true)
  | skip n, _, u, _ => u.length = n
  | peek, next, u, c => u = [] ∧ next = c.buffer.head?
  | byte, b, u, _ => u = [b]
  | word16 order, w, u, _ => ∃ a b, u = [a, b] ∧ w = order.word16 a b
  | word32 order, w, u, _ => ∃ a b d e, u = [a, b, d, e] ∧ w = order.word32 a b d e
  | block n, v, u, _ => u = v ∧ v.length = n
  | varint, v, u, _ => Varint.Whole u ∧ v = Varint.value u
  | taggedVarint, v, u, _ => Varint.Whole u ∧ v = Varint.taggedValue u

/-- What a call has consumed that failed: nothing, or bytes of a number that announce another. -/
def Leaves (k : Call) (u : Bytes) : Prop :=
  if k.isNumber then ∀ b ∈ u, Varint.continues b = true else u = []

theorem consumes (k : Call) : Reading.Consumes k.reading k.Says k.Leaves := by
  cases k with
  | need n => exact Reading.consumes_need n
  | want n => exact Reading.consumes_want n
  | skip n => exact Reading.consumes_skip n
  | peek => exact Reading.consumes_peek
  | byte => exact Reading.consumes_byte
  | word16 order => exact Reading.consumes_word16 order
  | word32 order => exact Reading.consumes_word32 order
  | block n => exact Reading.consumes_block n
  | varint => exact Reading.consumes_varint
  | taggedVarint => exact Reading.consumes_taggedVarint

/-- A call that reads no number can be tried again wherever the source fails. -/
theorem patient {k : Call} (hk : k.isNumber = false) : Reading.Patient k.reading := by
  cases k with
  | need n => exact Reading.patient_need n
  | want n => exact Reading.patient_want n
  | skip n => exact Reading.patient_skip n
  | peek => exact Reading.patient_peek
  | byte => exact Reading.patient_byte
  | word16 order => exact Reading.patient_word16 order
  | word32 order => exact Reading.patient_word32 order
  | block n => exact Reading.patient_block n
  | varint | taggedVarint => cases hk

/-- The cursor behind a call, which may have failed. -/
def apply (k : Call) (c : Cursor) : Cursor :=
  match k.reading c with
  | .ok _ c' | .error _ c' => c'

/-- What the answer of a call tells of the bytes that it consumed. -/
def Tells (k : Call) (c : Cursor) (u : Bytes) : Prop :=
  match k.reading c with
  | .ok a c' => k.Says a u c'
  | .error _ _ => k.Leaves u

/-- One call keeps the account. -/
theorem moves_apply (k : Call) (c : Cursor) : ∃ u, c.Moves u (k.apply c) ∧ k.Tells c u := by
  have hc := k.consumes c
  unfold apply Tells
  generalize k.reading c = r at hc
  cases r with
  | ok a c' | error e c' => exact hc

/-- A call that fails and reads no number leaves what is still to be read. -/
theorem moves_of_error {k : Call} {c c' : Cursor} {e : Failure} (hk : k.isNumber = false)
    (h : k.reading c = .error e c') : c.Moves [] c' := by
  obtain ⟨u, hm, hu⟩ := k.consumes.of_error h
  rw [Leaves, hk] at hu
  obtain rfl : u = [] := by simpa using hu
  exact hm

end Call

/-! ## Calls one after another -/

/-- The cursor behind some calls, one after another. -/
def after (c : Cursor) (calls : List Call) : Cursor := calls.foldl (fun c k ↦ k.apply c) c

/-- Any calls keep the account: each consumes what its answer tells. -/
theorem moves_after (c : Cursor) (calls : List Call) :
    ∃ us : List Bytes, us.length = calls.length ∧
      ∀ i, c.Moves (us.take i).flatten (c.after (calls.take i)) ∧
        ∀ k, calls[i]? = some k → ∃ u, us[i]? = some u ∧ k.Tells (c.after (calls.take i)) u := by
  induction calls generalizing c with
  | nil => exact ⟨[], rfl, fun i ↦ ⟨by simpa [after] using Moves.refl c, by simp⟩⟩
  | cons k calls ih =>
    obtain ⟨u, hu, ht⟩ := k.moves_apply c
    obtain ⟨us, hlen, hall⟩ := ih (k.apply c)
    refine ⟨u :: us, by rw [List.length_cons, List.length_cons, hlen], fun i ↦ ?_⟩
    cases i with
    | zero =>
      refine ⟨.refl c, ?_⟩
      rintro _ ⟨⟩
      exact ⟨u, rfl, ht⟩
    | succ i => exact ⟨hu.trans (hall i).1, (hall i).2⟩

/-- The answers to some calls, one after another, each carried out as `run` does it. -/
def answers (run : (k : Call) → Reading k.Answer) (c : Cursor) :
    List Call → List (Σ k : Call, Except Failure k.Answer)
  | [] => []
  | k :: calls =>
    match run k c with
    | .ok a c' => ⟨k, .ok a⟩ :: answers run c' calls
    | .error e c' => ⟨k, .error e⟩ :: answers run c' calls

variable {calls : List Call} {tries : Nat} {c : Cursor}

/-- None of some answers is that the source failed. -/
def Undisturbed (results : List (Σ k : Call, Except Failure k.Answer)) : Prop :=
  ∀ r ∈ results, ∀ e, r.2 = .error e → e.isIo = false

/-- Calls that are tried again until the source does not fail get the answers that a source gives
which never fails. -/
theorem answers_persist (hk : ∀ k ∈ calls, k.isNumber = false)
    (hu : Undisturbed (answers (fun k ↦ k.reading.persist tries) c calls)) :
    answers (fun k ↦ k.reading.persist tries) c calls = answers Call.reading c.unfailing calls := by
  induction calls generalizing c with
  | nil => rfl
  | cons k calls ih =>
    rw [List.forall_mem_cons] at hk
    have hp := (Call.patient hk.1).persistence tries c
    rw [answers] at hu ⊢
    rw [answers]
    generalize k.reading.persist tries c = r at hp hu
    cases hp with
    | ok h _ | refused _ h _ =>
      rw [h]
      exact congrArg (_ :: ·) (ih hk.2 (List.forall_mem_cons.1 hu).2)
    | failed he _ =>
      have hio := (List.forall_mem_cons.1 hu).1 _ rfl
      rw [he] at hio
      cases hio

/-- A source that fails no more often than calls are tried again does not disturb them. -/
theorem undisturbed_persist (hk : ∀ k ∈ calls, k.isNumber = false) (hc : c.FailsAtMost tries) :
    Undisturbed (answers (fun k ↦ k.reading.persist tries) c calls) := by
  induction calls generalizing c with
  | nil => exact fun _ h ↦ absurd h List.not_mem_nil
  | cons k calls ih =>
    rw [List.forall_mem_cons] at hk
    have hp := (Call.patient hk.1).persistence tries c
    rw [answers]
    generalize k.reading.persist tries c = r at hp
    cases hp with
    | ok _ hs =>
      refine List.forall_mem_cons.2 ⟨?_, ih hk.2 (hs.failsAtMost hc)⟩
      rintro e ⟨⟩
    | refused he _ hs =>
      refine List.forall_mem_cons.2 ⟨?_, ih hk.2 (hs.failsAtMost hc)⟩
      rintro _ ⟨⟩
      exact he
    | failed _ hs =>
      have hle := hc.failures
      have hspent := (hs hc.ending).2
      omega

/-- `c` stands behind the bytes `u` of a source: they and the bytes in its buffer are what the
source has handed out, its position counts them, and they and what is still to be read are what the
source would hand out if it never failed. -/
structure Behind (s : Source) (u : Bytes) (c : Cursor) : Prop where
  handed : s.Hands (u ++ c.buffer) c.source
  position : c.position = u.length
  outstanding : s.unfailing.delivered = u ++ c.outstanding

theorem Moves.behind {s : Source} {u : Bytes} {c : Cursor} (h : (ofSource s).Moves u c) :
    Behind s u c where
  handed := by
    obtain ⟨w, hw, hb⟩ := h.handed
    rwa [← hb]
  position := h.position.trans (Nat.zero_add _)
  outstanding := h.outstanding

/-- Whatever a source does and whatever its reader calls for, after any number of calls the cursor
stands behind what was consumed, each call has consumed what its answer tells, and the position has
not gone back. Wherever a cursor stands, a call that fails consumes nothing, unless it reads a
number of variable length. Calls of the other kinds that are tried again until the source does not
fail are answered as by a source that never fails, and it is enough to try as often as the source
fails. -/
theorem no_byte_lost_or_repeated (s : Source) (calls : List Call) :
    (∃ us : List Bytes, us.length = calls.length ∧
      ∀ i, Behind s (us.take i).flatten ((ofSource s).after (calls.take i)) ∧
        ((ofSource s).after (calls.take i)).position ≤
          ((ofSource s).after (calls.take (i + 1))).position ∧
        ∀ k, calls[i]? = some k →
          ∃ u, us[i]? = some u ∧ k.Tells ((ofSource s).after (calls.take i)) u) ∧
    ∀ c : Cursor,
      (∀ (k : Call) (e : Failure) (c' : Cursor), k.isNumber = false → k.reading c = .error e c' →
        c'.position = c.position ∧ c'.outstanding = c.outstanding) ∧
      ∀ (later : List Call) (tries : Nat), (∀ k ∈ later, k.isNumber = false) →
        (Undisturbed (answers (fun k ↦ k.reading.persist tries) c later) →
          answers (fun k ↦ k.reading.persist tries) c later =
            answers Call.reading c.unfailing later) ∧
        (c.FailsAtMost tries →
          Undisturbed (answers (fun k ↦ k.reading.persist tries) c later)) := by
  refine ⟨?_, fun c ↦ ⟨fun k e c' hk h ↦ ?_, fun later tries hk ↦ ?_⟩⟩
  · obtain ⟨us, hlen, hall⟩ := moves_after (ofSource s) calls
    refine ⟨us, hlen, fun i ↦ ⟨(hall i).1.behind, ?_, (hall i).2⟩⟩
    rw [(hall i).1.position, (hall (i + 1)).1.position, List.take_add_one, List.flatten_append,
      List.length_append, ← Nat.add_assoc]
    exact Nat.le_add_right _ _
  · have hm := Call.moves_of_error hk h
    exact ⟨hm.position, hm.outstanding.symm⟩
  · exact ⟨answers_persist hk, undisturbed_persist hk⟩

/-- A source that fails in the middle of a block. -/
def flaky : Source := ⟨[.bytes [1], .failed "reset", .bytes [2, 3]], .finished⟩

theorem no_byte_lost_or_repeated_flaky :
    answers (fun k ↦ k.reading.persist 1) (ofSource flaky) [.block 2, .byte] =
      answers Call.reading (ofSource ⟨[.bytes [1], .bytes [2, 3]], .finished⟩)
        [.block 2, .byte] := by
  have hfails : (ofSource flaky).FailsAtMost 1 := ⟨rfl, by decide⟩
  obtain ⟨hagree, henough⟩ := ((no_byte_lost_or_repeated flaky []).2 (ofSource flaky)).2
    [.block 2, .byte] 1 (by simp [Call.isNumber])
  exact hagree (henough hfails)

end Cursor

end JitDump
