import JitDump.Proofs.Nesting

/-!
# Trees that a decode refuses

Two things of a canonical tree can keep a decode from taking it: how deep it nests
and how long its records are.  Its container is then read as far as the first
record that shows it.  A record that is too long fails where its length has been
read, for it cannot be in the buffer by chance; one that nests too deep fails in
an object.
-/

namespace JitDump.Container

open Cursor Decoding

variable {N : Str → Str → Prop} {ctx : Context} {p : Prototype} {P : Fault → Prop}
variable {s t : Session} {u rest : Bytes}

/-! ## One record -/

/-- A record that is too long for the buffer is refused for its length. -/
theorem nextRecord_eq_bufferLimit (hlong : maxBuffer < (Encode.record ctx.flags p).length)
    (hlt : (Encode.record ctx.flags p).length < 2 ^ 32)
    (hf : s.Faces (Encode.framed (Encode.record ctx.flags p) ++ rest)) :
    ∃ e t, nextRecord ctx s = .error e t ∧
      e.fault = .bufferLimit (Encode.record ctx.flags p).length := by
  obtain ⟨c, hl, -, hprec, -⟩ := nextLength_framed (record_ne_nil ctx.flags p) hlt hf.closing
    hf.pending
  have hn := Reading.need_eq_bufferLimit (hprec.shallow hf.shallow) hlong
  have he := ofReading_eq_error (hl.trans (Fallible.bind_of_error hn))
  exact ⟨_, _, Fallible.bind_of_error he, rfl⟩

/-- A record that nests too deep is refused for its nesting. -/
theorem nextRecord_eq_nestingTooDeep {tops stack : List (Prototype × Nat)} (h : Readable ctx p)
    (hd : maxNesting < p.height) (hchildren : ∀ q ∈ p.children, q.height ≤ maxNesting)
    (hs : s.stack = tops ++ stack) (htops : List.Forall₂ (Finished N) p.children.reverse tops)
    (hf : s.Faces (Encode.framed (Encode.record ctx.flags p) ++ rest)) :
    ∃ e t, nextRecord ctx s = .error e t ∧ e.fault = .nestingTooDeep (maxNesting + 1) := by
  obtain ⟨c, hl, -, hp⟩ := nextLength_eq_some (record_ne_nil ctx.flags p) h.fits hf.closing
    hf.pending
  obtain ⟨e, t, hr, he⟩ := breaks_record h hd hchildren (s := { s with cursor := c }) hs htops
    hf.heap h.fits rest hp
  refine ⟨e, t, (Fallible.bind_of_ok (ofReading_eq_ok hl)).trans ?_, he⟩
  exact (Fallible.bind_of_ok rfl).trans (Fallible.bind_of_error hr)

/-! ## Trees -/

/-- From `s` some rounds lead to one that fails with a fault as `P` says. -/
def Refuses (ctx : Context) (s : Session) (P : Fault → Prop) : Prop :=
  ∃ ps t e r, Steps (nextRecord ctx) s ps t ∧ nextRecord ctx t = .error e r ∧ P e.fault

theorem Refuses.of_nextRecord {e : Failure} (h : nextRecord ctx s = .error e t) (he : P e.fault) :
    Refuses ctx s P := ⟨[], s, e, t, .refl, h, he⟩

theorem Piles.refuses {tops : List (Prototype × Nat)} (h : Piles ctx s u tops t)
    (h' : Refuses ctx t P) : Refuses ctx s P := by
  obtain ⟨ps, hps⟩ := h.steps
  obtain ⟨qs, r, e, r', hqs, he, hfault⟩ := h'
  exact ⟨ps ++ qs, r, e, r', hps.trans hqs, he, hfault⟩

/-- A forest is refused at the first of its trees that is. -/
theorem refuses_forest {ps : List Prototype} (hbad : ∃ p ∈ ps, ¬ Acceptable ctx p)
    (hback : ∀ p ∈ ps, Acceptable ctx p → ReadsBack N ctx p)
    (h : ∀ p ∈ ps, ¬ Acceptable ctx p → ∀ s rest,
      s.Faces (Encode.records ctx.flags p.postorder ++ rest) → Refuses ctx s P)
    (hf : s.Faces (Encode.records ctx.flags (ps.flatMap Prototype.postorder) ++ rest)) :
    Refuses ctx s P := by
  induction ps generalizing s with
  | nil => simp at hbad
  | cons p ps ih =>
    rw [records_flatMap_cons, List.append_assoc] at hf
    by_cases hp : Acceptable ctx p
    · obtain ⟨top, t, ht, -⟩ := hback p (List.mem_cons_self ..) hp s _ hf
      have hbad' : ∃ q ∈ ps, ¬ Acceptable ctx q := by
        obtain ⟨q, hq, hnot⟩ := hbad
        rcases List.mem_cons.1 hq with rfl | hq
        · exact absurd hp hnot
        · exact ⟨q, hq, hnot⟩
      exact ht.refuses (ih hbad' (fun q hq ↦ hback q (List.mem_cons_of_mem _ hq))
        (fun q hq ↦ h q (List.mem_cons_of_mem _ hq)) (ht.faces hf))
    · exact h p (List.mem_cons_self ..) hp s _ hf

/-- A tree that is not acceptable is refused, by induction on the tree: below its root when a child
is not acceptable itself, and at its root otherwise. -/
theorem refuses_tree (hbad : ¬ Acceptable ctx p)
    (h : ∀ q ∈ p.postorder, (Encode.record ctx.flags q).length ≤ maxBuffer → Readable ctx q)
    (hlt : ∀ q ∈ p.postorder, (Encode.record ctx.flags q).length < 2 ^ 32)
    (hlong : ∀ q ∈ p.postorder, maxBuffer < (Encode.record ctx.flags q).length →
      P (.bufferLimit (Encode.record ctx.flags q).length))
    (hdeep : maxNesting < p.height → P (.nestingTooDeep (maxNesting + 1)))
    (hf : s.Faces (Encode.records ctx.flags p.postorder ++ rest)) : Refuses ctx s P := by
  induction p using Prototype.induction generalizing s rest with
  | h p ih =>
    rw [records_postorder, List.append_assoc] at hf
    have hmem : ∀ q ∈ p.children, ∀ r ∈ q.postorder, r ∈ p.postorder := fun q hq r hr ↦
      Prototype.mem_postorder_of_mem_children hq hr
    have hback : ∀ q ∈ p.children, Acceptable ctx q →
        ReadsBack (fun _ given ↦ given = ctx.chunkName) ctx q := fun q _ hq ↦
      readsBack hq fun _ ↦ rfl
    by_cases hchild : ∃ q ∈ p.children, ¬ Acceptable ctx q
    · refine refuses_forest hchild hback (fun q hq hnot s rest hf ↦ ?_) hf
      exact ih q hq hnot (fun r hr ↦ h r (hmem q hq r hr)) (fun r hr ↦ hlt r (hmem q hq r hr))
        (fun r hr ↦ hlong r (hmem q hq r hr))
        (fun hd ↦ hdeep (hd.trans (Prototype.height_lt_of_mem_children hq))) hf
    · have hchildren : ∀ q ∈ p.children, Acceptable ctx q := fun q hq ↦
        by_contra fun hnot ↦ hchild ⟨q, hq, hnot⟩
      obtain ⟨tops, t, ht, hall⟩ := exists_piles (fun q hq ↦ hback q hq (hchildren q hq)) hf
      have hf' := ht.faces hf
      have hp := p.mem_postorder_self
      apply ht.refuses
      by_cases hfits : (Encode.record ctx.flags p).length ≤ maxBuffer
      · -- every record is readable, so it is the nesting that is not acceptable
        have hd : maxNesting < p.height := by
          by_contra hd
          refine hbad ⟨fun q hq ↦ ?_, Nat.not_lt.1 hd⟩
          rw [p.postorder_eq_children, List.mem_append, List.mem_flatMap, List.mem_singleton] at hq
          obtain ⟨r, hr, hq⟩ | rfl := hq
          · exact (hchildren r hr).readable q hq
          · exact h q hp hfits
        obtain ⟨e, r, he, hfault⟩ := nextRecord_eq_nestingTooDeep (h p hp hfits) hd
          (fun q hq ↦ (hchildren q hq).height) ht.stack hall hf'
        exact .of_nextRecord he (hfault ▸ hdeep hd)
      · have hlong' := Nat.not_le.1 hfits
        obtain ⟨e, r, he, hfault⟩ := nextRecord_eq_bufferLimit hlong' (hlt p hp) hf'
        exact .of_nextRecord he (hfault ▸ hlong p hp hlong')

end JitDump.Container
