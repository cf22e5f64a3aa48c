import JitDump.Proofs.Chunking

/-!
# Records in their frames

A decode reads a record from the whole of the input and compares afterwards how
far it came with the length that was announced.  The framed decode of this file
goes the other way: it cuts the announced bytes off and decodes the record from
them alone, as if the input ended behind them.  The two accept the same
containers, with the same tree and the same strings interned: a record that
reads past its frame ends in a failure, and one that does not never depends on
what stands behind.
-/

namespace JitDump

namespace Decoding

open Container

/-- Runs an operation on some bytes alone, all of which it has to use. -/
def within {α : Type} (frame : Bytes) (x : Decoding α) : Decoding α := fun s =>
  match x { s with cursor := .ofSource (.ofBytes frame) } with
  | .ok a t =>
    if t.cursor.position = frame.length then .ok a { t with cursor := s.cursor }
    else .error (s.cursor.failure (.lengthMismatch frame.length t.cursor.position))
      { t with cursor := s.cursor }
  | .error e t => .error e { t with cursor := s.cursor }

end Decoding

namespace Container

open Cursor

/-- Reads one framed record if there is another. -/
def nextFrame (ctx : Context) : Decoding (Option (Prototype × Nat)) := do
  let length := (← Reading.varint).toNat
  if length = 0 then return none
  else
    let start ← Reading.position
    let frame ← Reading.block length
    let (p, depth) ← Decoding.within frame (record ctx)
    Decoding.note (.record start length p.instructions.length p.objects.length p.footprint)
    return some (p, depth)

/-- Decodes one container, each of whose records is decoded from its frame. -/
def decodeFramed (options : Options) (heap : Heap) (source : Source) (sourceName : String) :
    Decoded :=
  .ofRun sourceName <|
    containerBy nextFrame options (Utf8.encode sourceName) (.start heap source)

/-- What a round of the framed decode does to a session: it stops at a length of zero, or it decodes
a record from the bytes of its frame. -/
inductive Frame (ctx : Context) (s : Session) : Option (Prototype × Nat) → Session → Prop
  | stop {c : Cursor} {w : UInt32} (h : Reading.varint s.cursor = .ok w c) (hw : w.toNat = 0) :
      Frame ctx s none { s with cursor := c }
  | record {c c' : Cursor} {w : UInt32} {frame : Bytes} {p : Prototype} {d : Nat} {t : Session}
      (h : Reading.varint s.cursor = .ok w c) (hw : w.toNat ≠ 0)
      (hb : Reading.block w.toNat c = .ok frame c')
      (hr : record ctx { s with cursor := .ofSource (.ofBytes frame) } = .ok (p, d) t)
      (hn : t.cursor.position = frame.length) :
      Frame ctx s (some (p, d)) { t with
        cursor := c'
        events := .record c.position w.toNat p.instructions.length p.objects.length p.footprint
          :: t.events }

theorem nextFrame_eq_ok_iff {ctx : Context} {s t : Session} {r : Option (Prototype × Nat)} :
    nextFrame ctx s = .ok r t ↔ Frame ctx s r t := by
  constructor
  · intro h
    obtain ⟨w, s₁, hv, h⟩ := Fallible.bind_eq_ok.1 h
    obtain ⟨c, hv', rfl⟩ := Decoding.ofReading_eq_ok_iff.1 hv
    by_cases hw : w.toNat = 0
    · simp only [if_pos hw] at h
      cases h
      exact .stop hv' hw
    · simp only [if_neg hw] at h
      obtain ⟨_, _, ⟨⟩, h⟩ := Fallible.bind_eq_ok.1 h
      obtain ⟨frame, s₂, hb, h⟩ := Fallible.bind_eq_ok.1 h
      obtain ⟨c', hb', rfl⟩ := Decoding.ofReading_eq_ok_iff.1 hb
      obtain ⟨⟨p, d⟩, s₃, hf, h⟩ := Fallible.bind_eq_ok.1 h
      simp only [Decoding.within] at hf
      split at hf
      · rename_i a t₁ hr
        by_cases hn : t₁.cursor.position = frame.length
        · rw [if_pos hn] at hf
          cases hf
          cases h
          exact .record hv' hw hb' hr hn
        · rw [if_neg hn] at hf
          cases hf
      · cases hf
  · rintro (⟨hv, hw⟩ | ⟨hv, hw, hb, hr, hn⟩)
    · refine Fallible.bind_eq_ok.2 ⟨_, _, Decoding.ofReading_eq_ok hv, ?_⟩
      simp only [if_pos hw]
      rfl
    · rename_i c c' w frame p d t
      refine Fallible.bind_eq_ok.2 ⟨w, _, Decoding.ofReading_eq_ok hv, ?_⟩
      simp only [if_neg hw]
      refine Fallible.bind_eq_ok.2 ⟨c.position, _, rfl, ?_⟩
      refine Fallible.bind_eq_ok.2 ⟨frame, _, Decoding.ofReading_eq_ok hb, ?_⟩
      refine Fallible.bind_eq_ok.2 ⟨(p, d), { t with cursor := c' }, ?_, rfl⟩
      simp only [Decoding.within, hr, hn, if_true]

/-! ## The two decodes beside each other

Each round of one decode is a round of the other, if it succeeds. -/

variable {ctx : Context} {s s' t : Session} {r : Option (Prototype × Nat)}

/-- Whatever a record from the whole input has used is a frame from which it is decoded alone. -/
theorem Round.frame (h : Round ctx s r t) (hs : s.Beside (Agree .finished) s') :
    ∃ t', Frame ctx s' r t' ∧ t.Beside (Agree .finished) t' := by
  obtain ⟨cursor, heap, stack, events⟩ := s'
  obtain ⟨hs, rfl, rfl, rfl⟩ := hs
  cases h with
  | stop h =>
    obtain ⟨u, hu, ha, hr, -⟩ := of_nextLength_eq_ok h
    obtain ⟨c', hv, -, hc⟩ := hs.takes ha (Reading.takes_varint hu)
    exact ⟨_, .stop hv (announcedLength_eq_none.1 hr.symm), hc, rfl, rfl, rfl⟩
  | @record c n d p t h hr hn =>
    obtain ⟨u, hu, ha, hl, -⟩ := of_nextLength_eq_ok h
    obtain ⟨hw, h0⟩ := announcedLength_eq_some.1 hl.symm
    obtain ⟨v, ha', ht⟩ := record_takes hr
    have hv : v.length = (Varint.value u).toNat := by
      rw [hw, ← hn, ha'.position]
      exact (Nat.add_sub_cancel_left ..).symm
    obtain ⟨c₁, hw₁, -, hc⟩ := hs.takes ha (Reading.takes_varint hu)
    obtain ⟨c₂, hb, -, hc'⟩ := hc.takes ha' (Reading.takes_block v)
    -- the record takes the same bytes where nothing stands behind them
    obtain ⟨c₃, hr', ha₃⟩ := ht (.ofSource (.ofBytes v)) [] (by simp) (hc.length_le ha')
    rw [hv] at hb
    refine ⟨_, .record hw₁ (hw ▸ h0) hb hr' (by simpa using ha₃.position), hc', rfl, rfl, ?_⟩
    simp only [hc.position, hw]

/-- A record that is decoded from its frame alone is decoded from the whole input, and uses as much
of it. -/
theorem Frame.round (h : Frame ctx s r t) (hs : s.Beside (Agree .finished) s') :
    ∃ t', Round ctx s' r t' ∧ t.Beside (Agree .finished) t' := by
  obtain ⟨cursor, heap, stack, events⟩ := s'
  obtain ⟨hs, rfl, rfl, rfl⟩ := hs
  cases h with
  | @stop c w h hw =>
    obtain ⟨u, hu, rfl, ha⟩ := Reading.of_varint_eq_ok h
    have hn := announcedLength_eq_none.2 hw
    obtain ⟨c', hl, ha'⟩ := nextLength_eq_ok hs.closing' (hs.pending ▸ ha.pending) hu
      (hs.length_le ha) (by simp [hn])
    rw [hn] at hl
    exact ⟨_, .stop hl, hs.advances ha ha', rfl, rfl, rfl⟩
  | @record c c' w frame p d t h hw hb hr hn =>
    obtain ⟨u, hu, rfl, ha⟩ := Reading.of_varint_eq_ok h
    obtain ⟨hf, ha'⟩ := Reading.of_block_eq_ok hb
    have hl := announcedLength_eq_some.2 ⟨rfl, hw⟩
    have hle := hs.length_le (ha.trans ha')
    rw [List.length_append] at hle
    obtain ⟨c₁, hl₁, ha₁⟩ := nextLength_eq_ok hs.closing' (hs.pending ▸ ha.pending) hu
      (hs.length_le ha) (by
        rintro n hn'
        rw [hl] at hn'
        cases hn'
        rw [ha'.pending, List.length_append]
        omega)
    have hc := hs.advances ha ha₁
    -- the record has used its whole frame, which the input holds too
    obtain ⟨v, hav, ht⟩ := record_takes hr
    have hv : v = frame := by
      have hp : v ++ t.cursor.pending = frame ++ [] := by simpa using hav.pending.symm
      exact List.append_inj_left hp (by rw [← hn, hav.position, position_ofSource, Nat.zero_add])
    subst hv
    obtain ⟨c₂, hr₂, ha₂⟩ := ht c₁ c'.pending (hc.pending ▸ ha'.pending) (hc.length_le ha')
    rw [hl] at hl₁
    refine ⟨_, .record hl₁ hr₂ ?_, hc.advances ha' ha₂, rfl, rfl, ?_⟩
    · rw [ha₂.position, hf]
      exact Nat.add_sub_cancel_left ..
    · simp only [hc.position]

/-! ## Whole containers -/

/-- Failures of the first decode are left open: what it accepts, the second one accepts. -/
abbrev Accepts {α : Type} (x y : Decoding α) : Prop :=
  Decoding.Tracks (Agree .finished) (Agree .finished) (fun _ ↦ True) x y

theorem accepts_of {α : Type} {x y : Decoding α}
    (h : ∀ s s' a t, s.Beside (Agree .finished) s' → x s = .ok a t →
      ∃ t', y s' = .ok a t' ∧ t.Beside (Agree .finished) t') : Accepts x y := by
  intro s s' hs
  cases hx : x s with
  | error e t => exact .stopped trivial
  | ok a t =>
    obtain ⟨t', hy, ht⟩ := h s s' a t hs hx
    rw [hy]
    exact .ok ht

theorem accepts_nextFrame (ctx : Context) : Accepts (nextRecord ctx) (nextFrame ctx) := by
  apply accepts_of
  intro s s' r t hs hr
  obtain ⟨t', hf, ht⟩ := (nextRecord_eq_ok_iff.1 hr).frame hs
  exact ⟨t', nextFrame_eq_ok_iff.2 hf, ht⟩

theorem accepts_nextRecord (ctx : Context) : Accepts (nextFrame ctx) (nextRecord ctx) := by
  apply accepts_of
  intro s s' r t hs hr
  obtain ⟨t', hf, ht⟩ := (nextFrame_eq_ok_iff.1 hr).round hs
  exact ⟨t', nextRecord_eq_ok_iff.2 hf, ht⟩

/-- Rounds that accept what other rounds accept make whole containers that do. -/
theorem containerBy_eq_ok {next next' : Context → Decoding (Option (Prototype × Nat))}
    {options : Options} {name : Bytes} {s t : Session} {p : Prototype}
    (hn : ∀ ctx, Accepts (next ctx) (next' ctx)) (hs : s.Beside (Agree .finished) s)
    (h : containerBy next options name s = .ok p t) :
    ∃ t', containerBy next' options name s = .ok p t' ∧ t.Beside (Agree .finished) t' := by
  obtain ⟨hd, s₁, s₂, hh, hr, hroot⟩ := containerBy_eq_ok_iff.1 h
  -- both go through the same head, behind which their input is still the same
  obtain ⟨s₁', hh', hb₁⟩ := (agrees_header options name).eq_ok hs hh
  rw [hh] at hh'
  cases hh'
  have hb : (s₁.opened hd).Beside (Agree .finished) (s₁.opened hd) := ⟨hb₁.cursor, rfl, rfl, rfl⟩
  have hrec := Decoding.tracks_records (fun _ _ ↦ Agree.position) (hn (hd.context options))
  obtain ⟨s₂', hr', hb₂⟩ := (hrec _).eq_ok hb hr
  obtain ⟨t', hroot', hb₃⟩ := agrees_root.eq_ok hb₂ hroot
  exact ⟨t', containerBy_eq_ok_iff.2 ⟨hd, s₁, s₂', hh, hr', hroot'⟩, hb₃⟩

/-- A decode gives a tree and leaves a heap. -/
def Decoded.Gives (d : Decoded) (p : Prototype) (heap : Heap) : Prop :=
  d.result = .ok p ∧ d.heap = heap

theorem Decoded.ofRun_gives_iff {name : String} {x : EStateM.Result Failure Session Prototype}
    {p : Prototype} {heap : Heap} :
    (Decoded.ofRun name x).Gives p heap ↔ ∃ t, x = .ok p t ∧ t.heap = heap := by
  cases x with
  | ok q t =>
    constructor
    · rintro ⟨⟨⟩, rfl⟩
      exact ⟨t, rfl, rfl⟩
    · rintro ⟨_, ⟨⟩, rfl⟩
      exact ⟨rfl, rfl⟩
  | error e t =>
    constructor
    · rintro ⟨⟨⟩, -⟩
    · rintro ⟨_, ⟨⟩, -⟩

/-- The lengths of a container frame its records: decoding each record from its frame alone accepts
the same byte strings, with the same trees and the same heaps. -/
theorem decode_gives_iff_framed {data : Bytes} (hl : data.length < maxBuffer) (options : Options)
    (heap heap' : Heap) (name : String) (p : Prototype) :
    (decode options heap (.ofBytes data) name).Gives p heap' ↔
      (decodeFramed options heap (.ofBytes data) name).Gives p heap' := by
  have hc : Agree .finished (ofSource (.ofBytes data)) (ofSource (.ofBytes data)) :=
    ⟨rfl, rfl, by simp, by simp, by simpa using hl⟩
  have hs : (Session.start heap (.ofBytes data)).Beside (Agree .finished)
      (Session.start heap (.ofBytes data)) := ⟨hc, rfl, rfl, rfl⟩
  rw [decode, decodeFramed, Decoded.ofRun_gives_iff, Decoded.ofRun_gives_iff]
  constructor
  · rintro ⟨t, h, rfl⟩
    obtain ⟨t', h', ht⟩ := containerBy_eq_ok accepts_nextFrame hs h
    exact ⟨t', h', ht.heap.symm⟩
  · rintro ⟨t, h, rfl⟩
    obtain ⟨t', h', ht⟩ := containerBy_eq_ok accepts_nextRecord hs h
    exact ⟨t', h', ht.heap.symm⟩

/-- A stripped container of one empty record, which is decoded from its frame of seven bytes. -/
theorem decodeFramed_empty_record :
    ∃ p heap', (decode .default .new
        (.ofBytes [0x1b, 0x4c, 0x4a, 2, 2, 7, 0, 0, 0, 0, 0, 0, 0, 0]) "a").Gives p heap' ∧
      (decodeFramed .default .new
        (.ofBytes [0x1b, 0x4c, 0x4a, 2, 2, 7, 0, 0, 0, 0, 0, 0, 0, 0]) "a").Gives p heap' := by
  have h : (decode .default .new (.ofBytes [0x1b, 0x4c, 0x4a, 2, 2, 7, 0, 0, 0, 0, 0, 0, 0, 0])
      "a").result.toOption.isSome := by decide +kernel
  obtain ⟨p, hp⟩ := Option.isSome_iff_exists.1 h
  have hg : Decoded.Gives _ p _ := ⟨Decoded.result_eq_ok hp, rfl⟩
  exact ⟨p, _, hg, (decode_gives_iff_framed (by decide) .default .new _ "a" p).1 hg⟩

end Container

end JitDump
