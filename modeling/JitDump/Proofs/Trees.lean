import JitDump.Proofs.Pools
import JitDump.Proofs.Records

/-!
# Reading back the records of a tree

The container of a tree stores its records in post-order.  The rounds over the
records of a tree push it, read back, on whatever stack they start from, so those
over a forest pile its trees one on the other, the last on top, where the record
of their parent finds them.
-/

namespace JitDump.Container

open Cursor Decoding

variable {N : Str → Str → Prop} {ctx : Context} {p : Prototype}
variable {s t r : Session} {u v rest : Bytes}

/-- The bytes `u` come next, and with them the input ends; the heap is sound, and no more is in the
buffer than looking ahead brings. -/
structure Session.Faces (s : Session) (u : Bytes) : Prop where
  pending : s.cursor.pending = u
  closing : s.cursor.closing = .finished
  shallow : s.cursor.Shallow
  heap : s.heap.Sound

/-! ## One record -/

theorem length_encodeNat_le_maxBuffer {n : Nat} (h : n < 2 ^ 32) :
    (Varint.encodeNat n).length ≤ maxBuffer := by
  have hlt : n < 128 ^ (4 + 1) := Nat.lt_of_lt_of_le h (by decide)
  exact (Varint.length_encodeNat_le hlt).trans (by decide)

theorem record_ne_nil (f : Flags) (p : Prototype) : Encode.record f p ≠ [] := by
  simp [Encode.record, Encode.front, RecordHead.chain]

/-- The length of a record is read, whatever it is, and the record comes next. -/
theorem nextLength_framed {c : Cursor} {body : Bytes} (hne : body ≠ []) (hlt : body.length < 2 ^ 32)
    (hc : c.closing = .finished) (hp : c.pending = Encode.framed body ++ rest) :
    ∃ c', nextLength c = await (some body.length) c' ∧
      c.Advances (Varint.encodeNat body.length) c' ∧ c.Precedes c' ∧ c'.pending = body ++ rest := by
  have hlen : announcedLength (Varint.encodeNat body.length) = some body.length :=
    announcedLength_eq_some.2
      ⟨Varint.value_encodeNat hlt, Nat.ne_of_gt (List.length_pos_iff.2 hne)⟩
  rw [Encode.framed, List.append_assoc] at hp
  obtain ⟨c', ha, hprec, hl⟩ := nextLength_eq_await hc hp (Varint.whole_encodeNat _)
    (length_encodeNat_le_maxBuffer hlt)
  rw [hlen] at hl
  exact ⟨c', hl, ha, hprec, ha.pending_of_append hp⟩

/-- A record that fits in the buffer is had there. -/
theorem nextLength_eq_some {c : Cursor} {body : Bytes} (hne : body ≠ [])
    (hfits : body.length ≤ maxBuffer) (hc : c.closing = .finished)
    (hp : c.pending = Encode.framed body ++ rest) :
    ∃ c', nextLength c = .ok (some body.length) c' ∧
      c.Advances (Varint.encodeNat body.length) c' ∧ c'.pending = body ++ rest := by
  have hlt : body.length < 2 ^ 32 := Nat.lt_of_le_of_lt hfits (by decide)
  obtain ⟨c₁, hl, ha, -, hp₁⟩ := nextLength_framed hne hlt hc hp
  obtain ⟨c₂, hn, ha', -⟩ := Reading.need_eq_ok (c := c₁) hfits (by simp [hp₁])
  refine ⟨c₂, hl.trans (Fallible.bind_of_ok hn), by simpa using ha.trans ha', ?_⟩
  rw [ha'.pending_eq, hp₁]

/-- A round reads a record behind its length. -/
theorem nextRecord_eq_ok {tops stack : List (Prototype × Nat)} (h : Readable ctx p)
    (hN : N p.chunkName ctx.chunkName) (hd : p.height ≤ maxNesting) (hs : s.stack = tops ++ stack)
    (htops : List.Forall₂ (Finished N) p.children.reverse tops)
    (hf : s.Faces (Encode.framed (Encode.record ctx.flags p) ++ rest)) :
    ∃ top t, nextRecord ctx s = .ok (some top) t ∧
      s.cursor.Advances (Encode.framed (Encode.record ctx.flags p)) t.cursor ∧
      s.heap.Extends t.heap ∧ Finished N p top ∧ t.stack = stack := by
  obtain ⟨c, hl, ha, hp⟩ := nextLength_eq_some (record_ne_nil ctx.flags p) h.fits hf.closing
    hf.pending
  obtain ⟨⟨q, d⟩, t, hr, ha', he, hfin, hstack⟩ :=
    yields_record h hN hd (s := { s with cursor := c }) hs htops hf.heap h.fits rest hp
  refine ⟨(q, d), _, nextRecord_eq_ok_iff.2 (.record hl hr ?_), ha.trans ha', he, hfin, hstack⟩
  rw [ha'.position]
  exact Nat.add_sub_cancel_left ..

/-! ## Trees -/

/-- From `s` some rounds use up the bytes `u`, only add to the heap and pile `tops` on the stack. -/
structure Piles (ctx : Context) (s : Session) (u : Bytes) (tops : List (Prototype × Nat))
    (t : Session) : Prop where
  steps : ∃ ps, Steps (nextRecord ctx) s ps t
  cursor : s.cursor.Advances u t.cursor
  heap : s.heap.Extends t.heap
  stack : t.stack = tops ++ s.stack

namespace Piles

variable {tops tops' : List (Prototype × Nat)}

theorem refl (hs : s.heap.Sound) : Piles ctx s [] [] s :=
  ⟨⟨[], .refl⟩, .refl _, .refl hs, rfl⟩

theorem trans (h : Piles ctx s u tops t) (h' : Piles ctx t v tops' r) :
    Piles ctx s (u ++ v) (tops' ++ tops) r := by
  obtain ⟨ps, hps⟩ := h.steps
  obtain ⟨qs, hqs⟩ := h'.steps
  refine ⟨⟨ps ++ qs, hps.trans hqs⟩, h.cursor.trans h'.cursor, h.heap.trans h'.heap, ?_⟩
  rw [h'.stack, h.stack, List.append_assoc]

/-- What comes next behind some rounds. -/
theorem faces (h : Piles ctx s u tops t) (hf : s.Faces (u ++ v)) : t.Faces v where
  pending := by
    have hp := hf.pending
    rw [h.cursor.pending] at hp
    exact List.append_cancel_left hp
  closing := h.cursor.closing.trans hf.closing
  shallow := by
    obtain ⟨ps, hps⟩ := h.steps
    exact hps.precedes.shallow hf.shallow
  heap := h.heap.sound

end Piles

/-- The records of a tree are those of its children, then its own. -/
theorem records_postorder (f : Flags) (p : Prototype) : Encode.records f p.postorder =
    Encode.records f (p.children.flatMap Prototype.postorder) ++
      Encode.framed (Encode.record f p) := by
  rw [p.postorder_eq_children, Encode.records, List.flatMap_append, Encode.records]
  simp

theorem records_flatMap_cons (f : Flags) (p : Prototype) (ps : List Prototype) :
    Encode.records f ((p :: ps).flatMap Prototype.postorder) =
      Encode.records f p.postorder ++ Encode.records f (ps.flatMap Prototype.postorder) := by
  rw [List.flatMap_cons, Encode.records, List.flatMap_append, Encode.records, Encode.records]

/-- The records of a tree, wherever they come next, are read back to a tree like it. -/
def ReadsBack (N : Str → Str → Prop) (ctx : Context) (p : Prototype) : Prop :=
  ∀ s rest, s.Faces (Encode.records ctx.flags p.postorder ++ rest) →
    ∃ top t, Piles ctx s (Encode.records ctx.flags p.postorder) [top] t ∧ Finished N p top

/-- The records of a forest pile its trees, the last on top. -/
theorem exists_piles {ps : List Prototype} (h : ∀ p ∈ ps, ReadsBack N ctx p)
    (hf : s.Faces (Encode.records ctx.flags (ps.flatMap Prototype.postorder) ++ rest)) :
    ∃ tops t, Piles ctx s (Encode.records ctx.flags (ps.flatMap Prototype.postorder)) tops t ∧
      List.Forall₂ (Finished N) ps.reverse tops := by
  induction ps generalizing s with
  | nil => exact ⟨[], s, .refl hf.heap, .nil⟩
  | cons p ps ih =>
    rw [records_flatMap_cons] at hf ⊢
    rw [List.append_assoc] at hf
    obtain ⟨top, t, ht, hfin⟩ := h p (List.mem_cons_self ..) s _ hf
    obtain ⟨tops, r, hr, hall⟩ := ih (fun q hq ↦ h q (List.mem_cons_of_mem _ hq)) (ht.faces hf)
    rw [List.reverse_cons]
    exact ⟨tops ++ [top], r, ht.trans hr, List.rel_append hall (.cons hfin .nil)⟩

/-- A tree whose records a decode in some context can take. -/
structure Acceptable (ctx : Context) (p : Prototype) : Prop where
  readable : ∀ q ∈ p.postorder, Readable ctx q
  height : p.height ≤ maxNesting

theorem Acceptable.of_mem_children (h : Acceptable ctx p) {q : Prototype} (hq : q ∈ p.children) :
    Acceptable ctx q where
  readable r hr := h.readable r (Prototype.mem_postorder_of_mem_children hq hr)
  height := (Prototype.height_lt_of_mem_children hq).le.trans h.height

/-- The records of such a tree are read back, by induction on the tree. -/
theorem readsBack (h : Acceptable ctx p) (hN : ∀ name, N name ctx.chunkName) :
    ReadsBack N ctx p := by
  induction p using Prototype.induction with
  | h p ih =>
    intro s rest hf
    rw [records_postorder] at hf ⊢
    rw [List.append_assoc] at hf
    -- first the children, which the record of their parent then takes
    have hchildren : ∀ q ∈ p.children, ReadsBack N ctx q := fun q hq ↦
      ih q hq (h.of_mem_children hq)
    obtain ⟨tops, t, ht, hall⟩ := exists_piles hchildren hf
    obtain ⟨top, r, hr, ha, he, hfin, hstack⟩ := nextRecord_eq_ok
      (h.readable p p.mem_postorder_self) (hN _) h.height ht.stack hall (ht.faces hf)
    obtain ⟨ps, hps⟩ := ht.steps
    refine ⟨top, r.push top.1 top.2, ⟨⟨_, hps.snoc hr⟩, ht.cursor.trans ha, ht.heap.trans he, ?_⟩,
      hfin⟩
    rw [Session.push, hstack]
    rfl

end JitDump.Container
