import JitDump.Proofs.Lookahead

/-!
# The run of a container through its records

A container is read in rounds, and a round either meets the end mark or reads one
record.  `Round` says all that a round can do, and `Steps` joins rounds to the
run between two points of a decode.  Since a round consumes at least a byte, the
number of rounds that `records` allows itself is never what ends a decode.
-/

namespace JitDump.Container

open Cursor

/-! ## Lengths -/

/-- The length that the bytes of a number announce; zero announces none. -/
def announcedLength (u : Bytes) : Option Nat :=
  if (Varint.value u).toNat = 0 then none else some (Varint.value u).toNat

theorem announcedLength_zero : announcedLength [0] = none := by decide

variable {c c' : Cursor} {u rest : Bytes}

theorem announcedLength_eq_none :
    announcedLength u = none ↔ (Varint.value u).toNat = 0 := by
  unfold announcedLength
  split <;> simp_all

theorem announcedLength_eq_some {n : Nat} :
    announcedLength u = some n ↔ (Varint.value u).toNat = n ∧ n ≠ 0 := by
  unfold announcedLength
  split
  · simp_all
  · rw [Option.some.injEq]
    refine ⟨fun h ↦ ⟨h, h ▸ ‹_›⟩, And.left⟩

/-- What is left to do when the bytes of a length are read: to have as many bytes as it says. -/
def await : Option Nat → Reading (Option Nat)
  | none => pure none
  | some n => do
    Reading.need n
    return some n

theorem of_await_eq_ok {n? r : Option Nat} (h : await n? c = .ok r c') :
    r = n? ∧ ((n? = none ∧ c' = c) ∨ ∃ n, n? = some n ∧ Reading.need n c = .ok () c') := by
  cases n? with
  | none =>
    cases h
    exact ⟨rfl, .inl ⟨rfl, rfl⟩⟩
  | some n =>
    obtain ⟨_, c₁, hn, h⟩ := Fallible.bind_eq_ok.1 h
    cases h
    exact ⟨rfl, .inr ⟨n, rfl, hn⟩⟩

/-- The bytes of a length come next, unless nothing does. -/
theorem of_nextLength_eq_await {r : Option Nat} (h : nextLength c = .ok r c') :
    ∃ u c₁, Varint.Whole u ∧ c.Advances u c₁ ∧ c.Precedes c₁ ∧
      await (announcedLength u) c₁ = .ok r c' := by
  obtain ⟨_, c₁, hw, h⟩ := Fallible.bind_eq_ok.1 h
  obtain ⟨ha, hm⟩ := Reading.of_want_eq_ok (by decide) hw
  have hc₁ : c.Precedes c₁ := Reading.precedes_of_want (by decide) hw
  obtain ⟨b?, c₂, hpeek, h⟩ := Fallible.bind_eq_ok.1 h
  cases hpeek
  rw [← ha.pending_eq] at hm
  rw [Reading.head?_buffer hm] at h
  cases hp : c₁.pending with
  | nil => rw [hp] at h; cases h
  | cons b rest =>
    simp only [hp, List.head?_cons] at h
    by_cases hb : b = 0
    · rw [if_pos hb] at h
      obtain ⟨_, c₃, hs, h⟩ := Fallible.bind_eq_ok.1 h
      cases h
      obtain ⟨c₄, hs', ha'⟩ := Reading.skip_eq_ok (n := 1) (c := c₁) (by decide) (by simp [hp])
      have hc₄ := Reading.steady_skip 1 _ _ _ hs'
      rw [hs'] at hs
      cases hs
      rw [hp, hb] at ha'
      exact ⟨[0], c', .last (by decide), ha.trans ha', hc₁.trans hc₄, by
        rw [announcedLength_zero]; rfl⟩
    · rw [if_neg hb] at h
      obtain ⟨_, c₃, hw', h⟩ := Fallible.bind_eq_ok.1 h
      obtain ⟨v, c₄, hv, h⟩ := Fallible.bind_eq_ok.1 h
      have hc₄ := (Reading.precedes_of_want (by decide) hw').trans (Reading.steady_varint _ _ _ hv)
      obtain ⟨u, hu, rfl, hau⟩ := Reading.of_varint_eq_ok hv
      have hadv : c.Advances u c₄ := ha.trans ((Reading.of_want_eq_ok (by decide) hw').1.trans hau)
      refine ⟨u, c₄, hu, hadv, hc₁.trans hc₄, ?_⟩
      by_cases hz : (Varint.value u).toNat = 0
      · simp only [hz, if_true] at h
        rw [announcedLength, if_pos hz]
        exact h
      · simp only [hz, if_false] at h
        rw [announcedLength, if_neg hz]
        exact h

/-- A length is read wherever the input holds one. -/
theorem nextLength_eq_await (hc : c.closing = .finished) (hp : c.pending = u ++ rest)
    (hu : Varint.Whole u) (hl : u.length ≤ maxBuffer) :
    ∃ c₁, c.Advances u c₁ ∧ c.Precedes c₁ ∧ nextLength c = await (announcedLength u) c₁ := by
  obtain ⟨b, u', rfl⟩ := List.exists_cons_of_ne_nil hu.ne_nil
  obtain ⟨c₁, hw, ha, hm⟩ := Reading.want_eq_ok (n := 1) (c := c) (by decide) (.inr hc)
  have hc₁ : c.Precedes c₁ := Reading.precedes_of_want (by decide) hw
  have hp₁ : c₁.pending = b :: (u' ++ rest) := by rw [ha.pending_eq, hp]; rfl
  have hb : c₁.buffer.head? = some b := by
    rw [← ha.pending_eq] at hm
    rw [Reading.head?_buffer hm, hp₁]
    rfl
  simp only [nextLength, bind, EStateM.bind, hw, Reading.peek, hb]
  by_cases hz : b = 0
  · subst hz
    obtain rfl := Varint.Whole.eq_zero hu
    obtain ⟨c₂, hs, ha'⟩ := Reading.skip_eq_ok (n := 1) (c := c₁) (by decide) (by simp [hp₁])
    have hc₂ := Reading.steady_skip 1 _ _ _ hs
    rw [hp₁] at ha'
    refine ⟨c₂, ha.trans ha', hc₁.trans hc₂, ?_⟩
    simp only [if_true, EStateM.bind, hs, announcedLength_zero]
    rfl
  · obtain ⟨c₂, hw', ha', -⟩ := Reading.want_eq_ok (n := 5) (c := c₁) (by decide)
      (.inr (ha.closing.trans hc))
    obtain ⟨c₃, hv, ha₃⟩ := Reading.takes_varint hu c₂ rest
      (by rw [ha'.pending_eq, ha.pending_eq, hp]) hl
    have hc₃ := (Reading.precedes_of_want (by decide) hw').trans (Reading.steady_varint _ _ _ hv)
    refine ⟨c₃, ha.trans (ha'.trans ha₃), hc₁.trans hc₃, ?_⟩
    simp only [hz, if_false, EStateM.bind, hw', hv]
    by_cases hv0 : (Varint.value (b :: u')).toNat = 0
    · rw [announcedLength, if_pos hv0]
      simp only [hv0, if_true]
      rfl
    · rw [announcedLength, if_neg hv0]
      simp only [hv0, if_false]
      rfl

theorem of_nextLength_eq_ok {r : Option Nat} (h : nextLength c = .ok r c') :
    ∃ u, Varint.Whole u ∧ c.Advances u c' ∧ r = announcedLength u ∧
      ∀ n, r = some n → n ≤ c'.pending.length := by
  obtain ⟨u, c₁, hu, ha, -, h⟩ := of_nextLength_eq_await h
  obtain ⟨rfl, ⟨hnone, rfl⟩ | ⟨n, hsome, hn⟩⟩ := of_await_eq_ok h
  · exact ⟨u, hu, ha, rfl, by simp [hnone]⟩
  · obtain ⟨hle, ha', -⟩ := Reading.of_need_eq_ok hn
    refine ⟨u, hu, by simpa using ha.trans ha', rfl, ?_⟩
    rintro m hm
    cases hm.symm.trans hsome
    rwa [ha'.pending_eq]

/-- A length is read wherever the input holds one and, behind it, as many bytes. -/
theorem nextLength_eq_ok (hc : c.closing = .finished) (hp : c.pending = u ++ rest)
    (hu : Varint.Whole u) (hl : u.length ≤ maxBuffer)
    (hr : ∀ n, announcedLength u = some n → n ≤ rest.length ∧ n ≤ maxBuffer) :
    ∃ c', nextLength c = .ok (announcedLength u) c' ∧ c.Advances u c' := by
  obtain ⟨c₁, ha, -, h⟩ := nextLength_eq_await hc hp hu hl
  rw [h]
  cases hn : announcedLength u with
  | none => exact ⟨c₁, rfl, ha⟩
  | some n =>
    obtain ⟨hle, hn'⟩ := hr n hn
    have hp₁ : c₁.pending = rest := ha.pending_of_append hp
    obtain ⟨c₂, ho, ha', -⟩ := Reading.need_eq_ok (c := c₁) hn' (by rw [hp₁]; exact hle)
    exact ⟨c₂, Fallible.bind_eq_ok.2 ⟨(), c₂, ho, rfl⟩, by simpa using ha.trans ha'⟩

/-! ## Rounds -/

/-- What a round does to a session: it stops at the end mark, or it reads a record that uses up
exactly the bytes that were announced. -/
inductive Round (ctx : Context) (s : Session) : Option (Prototype × Nat) → Session → Prop
  | stop {c : Cursor} (h : nextLength s.cursor = .ok none c) :
      Round ctx s none { s with cursor := c }
  | record {c : Cursor} {n d : Nat} {p : Prototype} {t : Session}
      (h : nextLength s.cursor = .ok (some n) c)
      (hr : record ctx { s with cursor := c } = .ok (p, d) t)
      (hn : t.cursor.position - c.position = n) :
      Round ctx s (some (p, d)) { t with
        events := .record c.position n p.instructions.length p.objects.length p.footprint
          :: t.events }

theorem nextRecord_eq_ok_iff {ctx : Context} {s t : Session} {r : Option (Prototype × Nat)} :
    nextRecord ctx s = .ok r t ↔ Round ctx s r t := by
  constructor
  · intro h
    obtain ⟨n?, s₁, hl, h⟩ := Fallible.bind_eq_ok.1 h
    obtain ⟨c, hl', rfl⟩ := Decoding.ofReading_eq_ok_iff.1 hl
    cases n? with
    | none =>
      cases h
      exact .stop hl'
    | some n =>
      obtain ⟨_, _, ⟨⟩, h⟩ := Fallible.bind_eq_ok.1 h
      obtain ⟨⟨p, d⟩, t₁, hr, h⟩ := Fallible.bind_eq_ok.1 h
      obtain ⟨_, _, ⟨⟩, h⟩ := Fallible.bind_eq_ok.1 h
      by_cases hn : t₁.cursor.position - c.position = n
      · simp only [if_pos hn] at h
        cases h
        exact .record hl' hr hn
      · simp only [if_neg hn] at h
        cases h
  · rintro (hl | ⟨hl, hr, hn⟩)
    · exact Fallible.bind_eq_ok.2 ⟨none, _, Decoding.ofReading_eq_ok hl, rfl⟩
    · rename_i c n d p t
      refine Fallible.bind_eq_ok.2 ⟨some n, _, Decoding.ofReading_eq_ok hl, ?_⟩
      refine Fallible.bind_eq_ok.2 ⟨c.position, _, rfl, ?_⟩
      refine Fallible.bind_eq_ok.2 ⟨(p, d), t, hr, ?_⟩
      refine Fallible.bind_eq_ok.2 ⟨t.cursor.position, _, rfl, ?_⟩
      simp only [if_pos hn]
      rfl

variable {ctx : Context} {s t r : Session}

/-- A round consumes at least a byte. -/
theorem Round.advances {r : Option (Prototype × Nat)} (h : Round ctx s r t) :
    ∃ u, u ≠ [] ∧ s.cursor.Advances u t.cursor := by
  cases h with
  | stop h =>
    obtain ⟨u, hu, ha, -⟩ := of_nextLength_eq_ok h
    exact ⟨u, hu.ne_nil, ha⟩
  | record h hr hn =>
    obtain ⟨u, hu, ha, -⟩ := of_nextLength_eq_ok h
    obtain ⟨v, ha', -⟩ := record_takes hr
    exact ⟨u ++ v, by simp [hu.ne_nil], ha.trans ha'⟩

/-- A round consumes the record that it asks for, so behind it no more is ahead than before. -/
theorem Round.precedes {r : Option (Prototype × Nat)} (h : Round ctx s r t) :
    s.cursor.Precedes t.cursor := by
  cases h with
  | stop h =>
    obtain ⟨u, c₁, -, -, hc, h⟩ := of_nextLength_eq_await h
    obtain ⟨-, ⟨-, rfl⟩ | ⟨n, hn, -⟩⟩ := of_await_eq_ok h
    · exact hc
    · rw [hn] at h
      cases (of_await_eq_ok h).1
  | @record c n d p t h hr hn =>
    obtain ⟨u, c₁, -, -, hc, h⟩ := of_nextLength_eq_await h
    obtain ⟨hs, ⟨hnone, -⟩ | ⟨m, hm, hneed⟩⟩ := of_await_eq_ok h
    · cases hs.trans hnone
    · cases hs.trans hm
      obtain ⟨hp, hreach⟩ := Reading.reach_of_need hneed
      have hrec : c.Precedes t.cursor := Decoding.steadiness.record ctx _ _ _ hr
      have h₁ := hc.position
      have h₂ := hc.reach
      have h₃ := hrec.position
      have h₄ := hrec.reach
      have hl : lookahead = 4 + 5 + 5 + refillChunk := rfl
      exact ⟨by dsimp only; omega, by dsimp only; omega⟩

theorem Round.pending_lt {r : Option (Prototype × Nat)} (h : Round ctx s r t) :
    t.cursor.pending.length < s.cursor.pending.length := by
  obtain ⟨u, hu, ha⟩ := h.advances
  have := List.length_pos_iff.2 hu
  rw [ha.pending, List.length_append]
  omega

/-! ## Runs -/

/-- Pushing a prototype on the stack of a session. -/
def Session.push (s : Session) (p : Prototype) (d : Nat) : Session :=
  { s with stack := (p, d) :: s.stack }

/-- A session that has noted the head of its container. -/
def Session.opened (s : Session) (h : Header) : Session :=
  { s with events := .header h.flags.bits h.chunkName :: s.events }

/-- From `s` the rounds `next` read the prototypes `ps`, one by one, and come to `t`. -/
inductive Steps (next : Decoding (Option (Prototype × Nat))) (s : Session) :
    List Prototype → Session → Prop
  | refl : Steps next s [] s
  | snoc {ps : List Prototype} {t r : Session} {p : Prototype} {d : Nat} (h : Steps next s ps t)
      (h' : next t = .ok (some (p, d)) r) : Steps next s (ps ++ [p]) (r.push p d)

namespace Steps

variable {next : Decoding (Option (Prototype × Nat))} {ps qs : List Prototype}

theorem trans (h : Steps next s ps t) (h' : Steps next t qs r) : Steps next s (ps ++ qs) r := by
  induction h' with
  | refl => simpa using h
  | snoc _ hr ih => rw [← List.append_assoc]; exact ih.snoc hr

theorem single {p : Prototype} {d : Nat} (h : next s = .ok (some (p, d)) t) :
    Steps next s [p] (t.push p d) := refl.snoc h

end Steps

variable {next : Decoding (Option (Prototype × Nat))} {ps : List Prototype} {n m : Nat}

theorem records_succ (s : Session) : records next (n + 1) s =
    match next s with
    | .ok none t => .ok () t
    | .ok (some (p, d)) t => records next n (t.push p d)
    | .error e t => .error e t := by
  simp only [records, bind, EStateM.bind]
  cases next s with
  | ok r t => cases r <;> rfl
  | error e t => rfl

/-- The rounds behind some steps are those that `records` has left. -/
theorem Steps.records_eq (h : Steps next s ps t) (k : Nat) :
    records next (ps.length + k) s = records next k t := by
  induction h generalizing k with
  | refl => simp
  | @snoc ps t r p d _ hn ih =>
    calc records next ((ps ++ [p]).length + k) s
        = records next (ps.length + (k + 1)) s := by
          rw [List.length_append, List.length_singleton, Nat.add_assoc, Nat.add_comm 1 k]
      _ = records next (k + 1) t := ih (k + 1)
      _ = records next k (r.push p d) := by rw [records_succ, hn]

/-- `records` comes to its end exactly where steps lead to a round that stops. -/
theorem records_eq_ok_iff : records next n s = .ok () t ↔
    ∃ ps r, Steps next s ps r ∧ next r = .ok none t ∧ ps.length < n := by
  constructor
  · intro h
    induction n generalizing s with
    | zero => cases h
    | succ n ih =>
      rw [records_succ] at h
      cases hn : next s with
      | error e r => simp [hn] at h
      | ok p? r =>
        rcases p? with _ | ⟨p, d⟩
        · simp only [hn] at h
          cases h
          exact ⟨[], s, .refl, hn, by simp⟩
        · simp only [hn] at h
          obtain ⟨ps, r', hs, hr, hl⟩ := ih h
          exact ⟨[p] ++ ps, r', (Steps.single hn).trans hs, hr, by simp; omega⟩
  · rintro ⟨ps, r, hs, hr, hl⟩
    obtain ⟨k, rfl⟩ : ∃ k, n = ps.length + (k + 1) := ⟨n - ps.length - 1, by omega⟩
    rw [hs.records_eq, records_succ, hr]

/-- `records` fails where steps lead to a round that fails. -/
theorem Steps.records_eq_error {e : Failure} (h : Steps next s ps t) (he : next t = .error e r)
    (hl : ps.length < n) : records next n s = .error e r := by
  obtain ⟨k, rfl⟩ : ∃ k, n = ps.length + (k + 1) := ⟨n - ps.length - 1, by omega⟩
  rw [h.records_eq, records_succ, he]

/-- Steps consume at least a byte each. -/
theorem Steps.length_le (h : Steps (nextRecord ctx) s ps t) :
    ps.length + t.cursor.pending.length ≤ s.cursor.pending.length := by
  induction h with
  | refl => simp
  | snoc _ hn ih =>
    have := (nextRecord_eq_ok_iff.1 hn).pending_lt
    simp only [List.length_append, List.length_singleton, Session.push]
    omega

/-- Between two records no more is ahead than before. -/
theorem Steps.precedes (h : Steps (nextRecord ctx) s ps t) : s.cursor.Precedes t.cursor := by
  induction h with
  | refl => exact .refl _
  | snoc _ hn ih => exact ih.trans (nextRecord_eq_ok_iff.1 hn).precedes

/-- The rounds that a container allows itself are more than its records. -/
theorem Steps.length_lt_rounds {h : Header} (hs : Steps (nextRecord ctx) (s.opened h) ps t) :
    ps.length < s.cursor.undelivered + 1 := by
  have hle : ps.length + t.cursor.pending.length ≤ s.cursor.pending.length := hs.length_le
  have := s.cursor.length_pending_le
  omega

/-- The rounds never run out: any two numbers of rounds above that of the pending bytes give the
same run. -/
theorem records_rounds (hn : s.cursor.pending.length < n) (hm : s.cursor.pending.length < m) :
    records (nextRecord ctx) n s = records (nextRecord ctx) m s := by
  induction n generalizing m s with
  | zero => omega
  | succ n ih =>
    obtain ⟨m, rfl⟩ : ∃ k, m = k + 1 := ⟨m - 1, by omega⟩
    rw [records_succ, records_succ]
    cases hr : nextRecord ctx s with
    | error e r => rfl
    | ok p? r =>
      have hlt := (nextRecord_eq_ok_iff.1 hr).pending_lt
      rcases p? with _ | ⟨p, d⟩
      · rfl
      · exact ih (s := r.push p d) (by simp only [Session.push]; omega)
          (by simp only [Session.push]; omega)

/-! ## Whole containers -/

/-- What is read of a head is its opening. -/
theorem opening_of_header {options : Options} {name : Bytes} {h : Header}
    (hh : header options name s = .ok h t) :
    ∃ name?, opening options s.cursor = .ok (h.flags, name?) t.cursor := by
  obtain ⟨⟨f, name?⟩, _, ho, hh⟩ := Fallible.bind_eq_ok.1 hh
  obtain ⟨c, hc, rfl⟩ := Decoding.ofReading_eq_ok_iff.1 ho
  obtain ⟨str, r, hi, hh⟩ := Fallible.bind_eq_ok.1 hh
  have hcursor : r.cursor = c := by
    cases hi
    rfl
  cases hh
  rw [hcursor]
  exact ⟨name?, hc⟩

/-- A container is its head, the rounds behind it and the root that they leave. -/
theorem containerBy_eq_ok_iff {next : Context → Decoding (Option (Prototype × Nat))}
    {options : Options} {name : Bytes} {p : Prototype} :
    containerBy next options name s = .ok p t ↔ ∃ h s₁ s₂, header options name s = .ok h s₁ ∧
      records (next (h.context options)) (s₁.cursor.undelivered + 1) (s₁.opened h) = .ok () s₂ ∧
      root s₂ = .ok p t := by
  constructor
  · intro h
    obtain ⟨hd, s₁, hh, h⟩ := Fallible.bind_eq_ok.1 h
    obtain ⟨_, _, hnote, h⟩ := Fallible.bind_eq_ok.1 h
    obtain ⟨_, _, hget, h⟩ := Fallible.bind_eq_ok.1 h
    obtain ⟨_, s₂, hr, hroot⟩ := Fallible.bind_eq_ok.1 h
    cases hnote
    cases hget
    exact ⟨hd, s₁, s₂, hh, hr, hroot⟩
  · rintro ⟨hd, s₁, s₂, hh, hr, hroot⟩
    refine Fallible.bind_eq_ok.2 ⟨hd, s₁, hh, ?_⟩
    refine Fallible.bind_eq_ok.2 ⟨(), s₁.opened hd, rfl, ?_⟩
    refine Fallible.bind_eq_ok.2 ⟨s₁.opened hd, _, rfl, ?_⟩
    exact Fallible.bind_eq_ok.2 ⟨(), s₂, hr, hroot⟩

/-- A container fails with its records. -/
theorem containerBy_eq_error {next : Context → Decoding (Option (Prototype × Nat))}
    {options : Options} {name : Bytes} {h : Header} {e : Failure}
    (hh : header options name s = .ok h t)
    (hr : records (next (h.context options)) (t.cursor.undelivered + 1) (t.opened h) = .error e r) :
    containerBy next options name s = .error e r := by
  refine (Fallible.bind_of_ok hh).trans ?_
  refine (Fallible.bind_of_ok (t := t.opened h) rfl).trans ?_
  exact (Fallible.bind_of_ok rfl).trans (Fallible.bind_of_error hr)

/-- A container fails with its head. -/
theorem containerBy_eq_error_of_header {next : Context → Decoding (Option (Prototype × Nat))}
    {options : Options} {name : Bytes} {e : Failure} (h : header options name s = .error e t) :
    containerBy next options name s = .error e t := Fallible.bind_of_error h

theorem of_root_eq_ok {p : Prototype} (h : root s = .ok p t) :
    s.cursor.pending = [] ∧ ∃ d, s.stack = [(p, d)] := by
  obtain ⟨_, s₁, hw, h⟩ := Fallible.bind_eq_ok.1 h
  obtain ⟨c, hw', rfl⟩ := Decoding.ofReading_eq_ok_iff.1 hw
  obtain ⟨ha, hm⟩ := Reading.of_want_eq_ok (by decide) hw'
  obtain ⟨_, _, hget, h⟩ := Fallible.bind_eq_ok.1 h
  cases hget
  rcases hb : c.buffer with _ | ⟨b, u⟩
  · have hp : s.cursor.pending = [] := by
      rw [hb, List.length_nil] at hm
      exact List.eq_nil_of_length_eq_zero (by omega)
    rcases hs : s.stack with _ | ⟨⟨q, d⟩, _ | _⟩
    · simp only [hb, hs] at h
      cases h
    · simp only [hb, hs] at h
      cases h
      exact ⟨hp, d, rfl⟩
    · simp only [hb, hs] at h
      cases h
  · simp only [hb] at h
    cases h

/-- One prototype is the root, when nothing is left to be read. -/
theorem root_eq_ok {p : Prototype} {d : Nat} (hc : s.cursor.closing = .finished)
    (hp : s.cursor.pending = []) (hs : s.stack = [(p, d)]) :
    ∃ c, root s = .ok p { s with cursor := c } := by
  obtain ⟨c, hw, ha, hm⟩ := Reading.want_eq_ok (n := 1) (c := s.cursor) (by decide) (.inr hc)
  refine ⟨c, Fallible.bind_eq_ok.2 ⟨(), _, Decoding.ofReading_eq_ok hw, ?_⟩⟩
  refine Fallible.bind_eq_ok.2 ⟨_, _, rfl, ?_⟩
  have hb : c.buffer = [] := by
    have := c.length_buffer_le
    rw [ha.pending_eq, hp] at this
    exact List.eq_nil_of_length_eq_zero (by simpa using this)
  simp only [hb, hs]
  rfl

/-- No root, when something is left to be read or not exactly one prototype stands on the stack. -/
theorem root_eq_error (hc : 1 ≤ s.cursor.pending.length ∨ s.cursor.closing = .finished)
    (h : s.cursor.pending ≠ [] ∨ ¬ ∃ top, s.stack = [top]) :
    ∃ t, root s = .error (s.cursor.failure .trailingData) t := by
  obtain ⟨c, hw, ha, hm⟩ := Reading.want_eq_ok (n := 1) (c := s.cursor) (by decide) hc
  refine ⟨{ s with cursor := c }, ?_⟩
  refine (Fallible.bind_of_ok (Decoding.ofReading_eq_ok hw)).trans ?_
  refine (Fallible.bind_of_ok (t := { s with cursor := c }) rfl).trans ?_
  have hfail : (Decoding.ofReading (Reading.fail .trailingData) : Decoding Prototype)
      { s with cursor := c } = .error (s.cursor.failure .trailingData) { s with cursor := c } := by
    rw [← ha.failure_eq]
    rfl
  rcases hb : c.buffer with _ | ⟨b, u⟩
  · have hp : s.cursor.pending = [] := by
      rw [hb, List.length_nil] at hm
      exact List.eq_nil_of_length_eq_zero (by omega)
    rcases hs : s.stack with _ | ⟨⟨p, d⟩, _ | _⟩
    · rw [hs] at hfail
      exact hfail
    · exact absurd ⟨(p, d), hs⟩ (h.resolve_left fun h ↦ h hp)
    · rw [hs] at hfail
      exact hfail
  · exact hfail

/-- A decode gives a tree where its run comes to one. -/
theorem Decoded.ofRun_eq_ok {name : String} {x : EStateM.Result Failure Session Prototype}
    {p : Prototype} : (Decoded.ofRun name x).result = .ok p ↔ ∃ t, x = .ok p t := by
  cases x with
  | ok q t => simp [ofRun]
  | error e t => simp [ofRun]

/-- A decode fails where its run does. -/
theorem Decoded.ofRun_eq_error {name : String} {x : EStateM.Result Failure Session Prototype}
    {e : Failure} (h : x = .error e t) :
    (Decoded.ofRun name x).result = .error { e with chunk := chunkDisplayName name } := by
  rw [h, ofRun]

theorem Decoded.result_eq_ok {d : Decoded} {p : Prototype} (h : d.result.toOption = some p) :
    d.result = .ok p := by
  obtain ⟨_ | q, heap, events⟩ := d
  · cases h
  · cases h
    rfl

/-- The failure of a decode that gives no tree. -/
def Decoded.failure? (d : Decoded) : Option Failure :=
  match d.result with
  | .ok _ => none
  | .error e => some e

theorem Decoded.result_eq_error {d : Decoded} {e : Failure} (h : d.failure? = some e) :
    d.result = .error e := by
  obtain ⟨_ | q, heap, events⟩ := d
  · cases h
    rfl
  · cases h

end JitDump.Container
