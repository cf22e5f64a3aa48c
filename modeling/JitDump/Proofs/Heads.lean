import JitDump.Proofs.Trees

/-!
# Reading back the head of a container

The head of a container is read back if its flags are accepted and the name that
it embeds, if it embeds one, fits in the buffer.  A longer name is refused.
-/

namespace JitDump.Container

open Cursor Decoding

variable {f : Flags} {options : Options} {s : Session} {c : Cursor} {rest : Bytes}

/-! ## The bytes of a head -/


/-- The bytes that open a container. -/
theorem prologue_eq_ok (hc : c.closing = .finished) (hp : c.pending = signature :: magic ++ rest) :
    ∃ c', prologue c = .ok () c' ∧ c.Advances (signature :: magic) c' := by
  obtain ⟨c₁, hw, ha, hm⟩ := Reading.want_eq_ok (n := 4 + 5 + 5) (c := c) (by decide) (.inr hc)
  have hp₁ : c₁.pending = signature :: magic ++ rest := ha.pending_eq.trans hp
  obtain ⟨c₂, hb, ha'⟩ := Reading.takes_block (signature :: magic) c₁ rest hp₁ (by decide)
  have hholds : c₁.holds 4 := by
    have hlen : 4 ≤ c.pending.length := by
      rw [hp, List.length_append]
      exact Nat.le_add_right 4 _
    rw [holds_eq, decide_eq_true_eq]
    omega
  refine ⟨c₂, Fallible.bind_eq_ok.2 ⟨(), c₁, hw, ?_⟩, by simpa using ha.trans ha'⟩
  refine Fallible.bind_eq_ok.2 ⟨c₁, c₁, rfl, ?_⟩
  rw [if_pos hholds]
  exact Fallible.bind_eq_ok.2 ⟨_, c₂, hb, rfl⟩

theorem takes_flags (h : f.accepted options) :
    Reading.Takes (flags options) (Varint.encode f.bits) f := by
  apply Reading.takes_position
  intro start
  rw [← List.append_nil (Varint.encode f.bits)]
  refine (Reading.takes_encode f.bits).bind ?_
  rw [if_pos h]
  exact Reading.takes_pure f

/-- The flags of a container are read back. -/
theorem exists_flags (h : f.accepted options) (hc : c.closing = .finished)
    (hp : c.pending = signature :: magic ++ (Varint.encode f.bits ++ rest)) :
    ∃ c₁ c₂, prologue c = .ok () c₁ ∧ flags options c₁ = .ok f c₂ ∧
      c.Advances (signature :: magic ++ Varint.encode f.bits) c₂ ∧ c.Precedes c₂ := by
  obtain ⟨c₁, hm, ha₁⟩ := prologue_eq_ok hc hp
  obtain ⟨c₂, hf, ha₂⟩ := takes_flags h c₁ _ (ha₁.pending_of_append hp)
    ((Varint.length_encode_le _).trans (by decide))
  have hprec := (steady_prologue _ _ _ hm).trans (Reading.steadiness.flags options _ _ _ hf)
  exact ⟨c₁, c₂, hm, hf, ha₁.trans ha₂, hprec⟩

/-- The length of a name that a container embeds is read back, whatever it is. -/
theorem exists_name_length {name : Bytes} (hlt : name.length < 2 ^ 32)
    (hp : c.pending = Encode.framed name ++ rest) :
    ∃ c' v, Reading.varint c = .ok v c' ∧ v.toNat = name.length ∧
      c.Advances (Varint.encodeNat name.length) c' ∧ c.Precedes c' ∧ c'.pending = name ++ rest := by
  rw [Encode.framed, List.append_assoc] at hp
  obtain ⟨c', hv, ha⟩ :=
    Reading.takes_encodeNat hlt c _ hp (length_encodeNat_le_maxBuffer hlt)
  exact ⟨c', _, hv, UInt32.toNat_ofNat_of_lt' hlt, ha, Reading.steady_varint _ _ _ hv,
    ha.pending_of_append hp⟩

/-- The head of a container is read back, with the name that it embeds. -/
theorem opening_eq_ok {name : Bytes} (h : f.accepted options)
    (hname : f.isStripped = false → name.length ≤ maxBuffer)
    (hc : c.closing = .finished) (hp : c.pending = Encode.header f name ++ rest) :
    ∃ c', opening options c = .ok (f, if f.isStripped then none else some name) c' ∧
      c.Advances (Encode.header f name) c' := by
  simp only [Encode.header, List.append_assoc] at hp
  obtain ⟨c₁, c₂, hm, hf, ha, -⟩ := exists_flags h hc hp
  rw [ha.pending, ← List.append_assoc] at hp
  have hp₂ := List.append_cancel_left hp
  rw [opening, Fallible.bind_of_ok hm, Fallible.bind_of_ok hf, Encode.header]
  by_cases hs : f.isStripped
  · refine ⟨c₂, by rw [if_pos hs, if_pos hs]; rfl, ?_⟩
    rw [if_pos hs, List.append_nil]
    exact ha
  · have hname := hname (by simpa using hs)
    rw [if_neg hs] at hp₂
    obtain ⟨c₃, v, hv, hlen, ha₃, -, hp₃⟩ :=
      exists_name_length (Nat.lt_of_le_of_lt hname (by decide)) hp₂
    obtain ⟨c₄, hb, ha₄⟩ := Reading.takes_block name c₃ rest hp₃ hname
    refine ⟨c₄, ?_, ?_⟩
    · rw [if_neg hs, if_neg hs, Fallible.bind_of_ok hv, hlen, Fallible.bind_of_ok hb]
      rfl
    · rw [if_neg hs]
      exact ha.trans (ha₃.trans ha₄)

/-- A name that is too long for the buffer is refused. -/
theorem opening_eq_bufferLimit {name : Bytes} (h : f.accepted options) (hs : f.isStripped = false)
    (hlong : maxBuffer < name.length) (hlt : name.length < 2 ^ 32) (hc : c.closing = .finished)
    (hshallow : c.Shallow) (hp : c.pending = Encode.header f name ++ rest) :
    ∃ e c', opening options c = .error e c' ∧ e.fault = .bufferLimit name.length := by
  simp only [Encode.header, hs, List.append_assoc] at hp
  obtain ⟨c₁, c₂, hm, hf, ha, hprec⟩ := exists_flags h hc hp
  rw [ha.pending, ← List.append_assoc] at hp
  obtain ⟨c₃, v, hv, hlen, -, hprec', -⟩ := exists_name_length hlt (List.append_cancel_left hp)
  have hb := Reading.block_eq_bufferLimit ((hprec.trans hprec').shallow hshallow) hlong
  refine ⟨c₃.failure (.bufferLimit name.length), c₃, ?_, rfl⟩
  rw [opening, Fallible.bind_of_ok hm, Fallible.bind_of_ok hf, hs, if_neg Bool.false_ne_true,
    Fallible.bind_of_ok hv, hlen, Fallible.bind_of_error hb]

/-! ## Heads -/

/-- The name that a decode gives to every prototype: the one that the container embeds, or that of
its source when it is stripped. -/
def givenName (f : Flags) (embedded sourceName : Bytes) : Bytes :=
  if f.isStripped then sourceName else embedded

theorem header_eq_ok {name : Bytes} (sourceName : Bytes) (h : f.accepted options)
    (hname : f.isStripped = false → name.length ≤ maxBuffer)
    (hf : s.Faces (Encode.header f name ++ rest)) :
    ∃ head t, header options sourceName s = .ok head t ∧ head.flags = f ∧
      head.chunkName.bytes = givenName f name sourceName ∧ t.Faces rest ∧ t.stack = s.stack := by
  obtain ⟨c, ho, ha⟩ := opening_eq_ok h hname hf.closing hf.pending
  have hbytes : (if f.isStripped then none else some name).getD sourceName =
      givenName f name sourceName := by
    rw [givenName]
    split <;> rfl
  obtain ⟨hb, -, he⟩ := hf.heap.intern (givenName f name sourceName)
  have hheader : header options sourceName s =
      .ok ⟨f, (s.heap.intern (givenName f name sourceName)).1⟩
        { s with cursor := c, heap := (s.heap.intern (givenName f name sourceName)).2 } := by
    refine (Fallible.bind_of_ok (ofReading_eq_ok ho)).trans ?_
    change (intern (Option.getD _ sourceName) >>= fun n ↦ pure (Header.mk f n)) _ = _
    rw [hbytes]
    rfl
  refine ⟨_, _, hheader, rfl, hb, ⟨?_, ha.closing.trans hf.closing, ?_, he.sound⟩, rfl⟩
  · exact ha.pending_of_append hf.pending
  · exact (steady_header options sourceName _ _ _ hheader).shallow hf.shallow

theorem header_eq_bufferLimit {name : Bytes} (sourceName : Bytes) (h : f.accepted options)
    (hs : f.isStripped = false) (hlong : maxBuffer < name.length) (hlt : name.length < 2 ^ 32)
    (hf : s.Faces (Encode.header f name ++ rest)) :
    ∃ e t, header options sourceName s = .error e t ∧ e.fault = .bufferLimit name.length := by
  obtain ⟨e, c, ho, he⟩ :=
    opening_eq_bufferLimit h hs hlong hlt hf.closing hf.shallow hf.pending
  exact ⟨e, _, Fallible.bind_of_error (ofReading_eq_error ho), he⟩

end JitDump.Container
