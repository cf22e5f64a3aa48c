import JitDump.Proofs.WireOrder

/-!
# Options as gates

The options of a decoder are asked in two places only: when the flags of a
container are checked, and when a record announces debug info.  Under stricter
options either place may turn a decode away, and nothing else differs.  So two
decodes of the same input under options of which the one are within the other
are equal step by step, up to the point where the stricter one is turned away.
-/

namespace JitDump

open Container

variable {σ α β : Type}

/-- The first result is the second one, unless it is a failure of a certain kind. -/
def Gated (P : Failure → Prop) (r r' : EStateM.Result Failure σ α) : Prop :=
  r = r' ∨ ∃ e t, r = .error e t ∧ P e

namespace Gated

variable {P Q : Failure → Prop} {r r' : EStateM.Result Failure σ α}

theorem refl (r : EStateM.Result Failure σ α) : Gated P r r := .inl rfl

theorem mono (h : Gated P r r') (hPQ : ∀ e, P e → Q e) : Gated Q r r' := by
  rcases h with h | ⟨e, t, h, he⟩
  · exact .inl h
  · exact .inr ⟨e, t, h, hPQ e he⟩

theorem bind {x y : Fallible σ α} {f g : α → Fallible σ β} {s : σ} (h : Gated P (x s) (y s))
    (h' : ∀ a t, x s = .ok a t → Gated P (f a t) (g a t)) :
    Gated P ((x >>= f) s) ((y >>= g) s) := by
  rcases h with h | ⟨e, t, h, he⟩
  · cases hx : x s with
    | ok a t =>
      rw [Fallible.bind_of_ok hx, Fallible.bind_of_ok (h.symm.trans hx)]
      exact h' a t hx
    | error e t =>
      rw [Fallible.bind_of_error hx, Fallible.bind_of_error (h.symm.trans hx)]
      exact .refl _
  · exact .inr ⟨e, t, Fallible.bind_of_error h, he⟩

/-- Where the same operation comes first. -/
theorem bind_left {x : Fallible σ α} {f g : α → Fallible σ β} {s : σ}
    (h : ∀ a t, x s = .ok a t → Gated P (f a t) (g a t)) :
    Gated P ((x >>= f) s) ((x >>= g) s) := bind (.refl _) h

theorem ofReading {x y : Reading α} {s : Session} (h : Gated P (x s.cursor) (y s.cursor)) :
    Gated P (Decoding.ofReading x s) (Decoding.ofReading y s) := by
  rcases h with h | ⟨e, c, h, he⟩
  · left
    simp only [Decoding.ofReading, h]
  · exact .inr ⟨e, _, Decoding.ofReading_eq_error h, he⟩

end Gated

namespace Container

/-- Options that accept no more than others do. -/
structure Options.Within (strict permissive : Options) : Prop where
  ffi (h : strict.ffi = true) : permissive.ffi = true
  allowDebugInfo (h : strict.allowDebugInfo = true) : permissive.allowDebugInfo = true

variable {strict permissive : Options}

/-! ## The flags of a container -/

/-- Some bytes that open a container whose flags are these. -/
inductive Opens : Bytes → Flags → Prop
  | mk {u rest : Bytes} (hu : Varint.Whole u) :
      Opens (signature :: magic ++ (u ++ rest)) ⟨Varint.value u⟩

/-- A refusal of the flags of an input for the sake of its constants of the foreign function
interface. -/
structure RefusesFfi (options : Options) (input : Bytes) (flags : Flags) (e : Failure) : Prop where
  off : options.ffi = false
  opens : Opens input flags
  hasFfi : flags.hasFfi = true
  failure : e = ⟨"", 4, .badFlags flags.bits⟩

theorem accepted_or_hasFfi (h : strict.Within permissive) (f : Flags) :
    f.accepted strict = f.accepted permissive ∨ strict.ffi = false ∧ f.hasFfi = true := by
  cases hs : strict.ffi with
  | true =>
    left
    rw [Flags.accepted, Flags.accepted, hs, h.ffi hs]
  | false =>
    cases hf : f.hasFfi with
    | true => exact .inr ⟨rfl, rfl⟩
    | false =>
      left
      rw [Flags.accepted, Flags.accepted, hf]
      rfl

theorem gated_flags (h : strict.Within permissive) (c : Cursor) :
    Gated (fun e ↦ strict.ffi = false ∧ ∃ u rest, Varint.Whole u ∧ c.pending = u ++ rest ∧
        (Flags.mk (Varint.value u)).hasFfi = true ∧
        e = ⟨"", c.position, .badFlags (Varint.value u)⟩)
      (flags strict c) (flags permissive c) := by
  refine Gated.bind_left fun start c' hp ↦ ?_
  cases hp
  refine Gated.bind_left fun bits c' hv ↦ ?_
  obtain ⟨u, hu, rfl, ha⟩ := Reading.of_varint_eq_ok hv
  rcases accepted_or_hasFfi h ⟨Varint.value u⟩ with heq | ⟨hs, hf⟩
  · dsimp only
    rw [heq]
    exact .refl _
  · have hno : Flags.accepted strict ⟨Varint.value u⟩ = false := by
      rw [Flags.accepted, hs, hf]
      simp
    dsimp only
    rw [if_neg (by simp [hno])]
    exact .inr ⟨_, _, rfl, hs, u, _, hu, ha.pending, hf, rfl⟩

theorem of_prologue_eq_ok {c c' : Cursor} (h : prologue c = .ok () c') :
    c.Advances (signature :: magic) c' := by
  obtain ⟨_, c₁, hw, h⟩ := Fallible.bind_eq_ok.1 h
  obtain ⟨ha, -⟩ := Reading.of_want_eq_ok (by decide) hw
  obtain ⟨_, _, hget, h⟩ := Fallible.bind_eq_ok.1 h
  cases hget
  split at h
  · obtain ⟨found, c₂, hb, h⟩ := Fallible.bind_eq_ok.1 h
    obtain ⟨-, ha'⟩ := Reading.of_block_eq_ok hb
    by_cases hf : found = signature :: magic
    · rw [if_pos hf] at h
      cases h
      rw [hf] at ha'
      simpa using ha.trans ha'
    · rw [if_neg hf] at h
      cases h
  · obtain ⟨found, c₂, -, h⟩ := Fallible.bind_eq_ok.1 h
    cases h

theorem gated_header (h : strict.Within permissive) (name : Bytes) (heap : Heap)
    (source : Source) :
    Gated (fun e ↦ ∃ f, RefusesFfi strict source.delivered f e)
      (header strict name (.start heap source)) (header permissive name (.start heap source)) := by
  refine Gated.bind (Gated.ofReading ?_) fun _ _ _ ↦ .refl _
  refine Gated.bind_left fun _ c hp ↦ ?_
  have ha := of_prologue_eq_ok hp
  refine Gated.bind ((gated_flags h c).mono ?_) fun _ _ _ ↦ .refl _
  rintro e ⟨hs, u, rest, hu, hpend, hf, rfl⟩
  have hd : source.delivered = signature :: magic ++ (u ++ rest) := by
    rw [← hpend]
    exact ha.pending
  refine ⟨⟨Varint.value u⟩, hs, hd ▸ .mk hu, hf, ?_⟩
  rw [ha.position]
  rfl

/-! ## The debug info of a record -/

/-- Some bytes of a record that declare debug info: behind its head of four bytes and three counts
stands a size that is not zero, so many bytes further on. -/
inductive DeclaresDebug : Bytes → Nat → Prop
  | mk {head numbers objects code size rest : Bytes} (hh : head.length = 4)
      (hn : Varint.Whole numbers) (ho : Varint.Whole objects) (hc : Varint.Whole code)
      (hs : Varint.Whole size) (hz : Varint.value size ≠ 0) :
      DeclaresDebug (head ++ numbers ++ objects ++ code ++ (size ++ rest))
        (head ++ numbers ++ objects ++ code).length

/-- A refusal of a record in front of a cursor for the sake of its debug info. -/
structure RefusesDebug (ctx : Context) (c : Cursor) (e : Failure) : Prop where
  off : ctx.options.allowDebugInfo = false
  unstripped : ctx.flags.isStripped = false
  declares : ∃ i, DeclaresDebug c.pending i ∧ e = ⟨"", c.position + i, .unexpectedDebugInfo⟩

theorem gated_debugHeader (h : strict.Within permissive) (c : Cursor) :
    Gated (fun e ↦ strict.allowDebugInfo = false ∧ ∃ u rest, Varint.Whole u ∧
        c.pending = u ++ rest ∧ Varint.value u ≠ 0 ∧ e = ⟨"", c.position, .unexpectedDebugInfo⟩)
      (debugHeader strict c) (debugHeader permissive c) := by
  refine Gated.bind_left fun start c' hp ↦ ?_
  cases hp
  refine Gated.bind_left fun size c' hv ↦ ?_
  obtain ⟨u, hu, rfl, ha⟩ := Reading.of_varint_eq_ok hv
  by_cases hz : Varint.value u = 0
  · rw [if_pos hz, if_pos hz]
    exact .refl _
  · rw [if_neg hz, if_neg hz]
    cases hs : strict.allowDebugInfo with
    | true =>
      rw [h.allowDebugInfo hs]
      exact .refl _
    | false =>
      obtain ⟨c₁, he⟩ := ReadingCongruence.reject_eq_error c.position c'
      exact .inr ⟨_, c₁, he, rfl, u, _, hu, ha.pending, hz, rfl⟩

/-- The same container, decoded under other options. -/
abbrev Context.under (ctx : Context) (options : Options) : Context := { ctx with options }

variable {ctx : Context}

theorem gated_announced (h : ctx.options.Within permissive) (c : Cursor) :
    Gated (fun e ↦ ctx.options.allowDebugInfo = false ∧ ctx.flags.isStripped = false ∧
        ∃ u rest, Varint.Whole u ∧ c.pending = u ++ rest ∧ Varint.value u ≠ 0 ∧
          e = ⟨"", c.position, .unexpectedDebugInfo⟩)
      (announced ctx c) (announced (ctx.under permissive) c) := by
  rw [announced, announced]
  cases hs : ctx.flags.isStripped with
  | true => exact .refl _
  | false => exact (gated_debugHeader h c).mono fun e ⟨ho, hd⟩ ↦ ⟨ho, rfl, hd⟩

theorem gated_front (h : ctx.options.Within permissive) (c : Cursor) :
    Gated (RefusesDebug ctx c) (front ctx c) (front (ctx.under permissive) c) := by
  refine Gated.bind_left fun head c₁ hhead ↦ ?_
  rw [Reading.headBytes_eq] at hhead
  obtain ⟨headBytes, _, hblock, hhead⟩ := Fallible.bind_eq_ok.1 hhead
  cases hhead
  obtain ⟨hh, ha₁⟩ := Reading.of_block_eq_ok hblock
  refine Gated.bind_left fun numberCount c₂ hn ↦ ?_
  obtain ⟨numbers, hnumbers, -, ha₂⟩ := Reading.of_varint_eq_ok hn
  refine Gated.bind_left fun objectCount c₃ ho ↦ ?_
  obtain ⟨objects, hobjects, -, ha₃⟩ := Reading.of_varint_eq_ok ho
  refine Gated.bind_left fun codeCount c₄ hc ↦ ?_
  obtain ⟨code, hcode, -, ha₄⟩ := Reading.of_varint_eq_ok hc
  have ha := ((ha₁.trans ha₂).trans ha₃).trans ha₄
  refine Gated.bind ((gated_announced h c₄).mono ?_) fun _ _ _ ↦ .refl _
  rintro e ⟨ho, hs, size, rest, hsize, hpend, hz, rfl⟩
  refine ⟨ho, hs, _, ?_, by rw [ha.position]⟩
  rw [ha.pending, hpend]
  exact .mk hh hnumbers hobjects hcode hsize hz

/-- A refusal of the next record of a container. -/
def RefusesRecord (ctx : Context) (c : Cursor) (e : Failure) : Prop :=
  ∃ n c', nextLength c = .ok (some n) c' ∧ RefusesDebug ctx c' e

theorem gated_nextRecord (h : ctx.options.Within permissive) (s : Session) :
    Gated (RefusesRecord ctx s.cursor) (nextRecord ctx s) (nextRecord (ctx.under permissive) s) := by
  refine Gated.bind_left fun length? t hl ↦ ?_
  obtain ⟨c, hc, rfl⟩ := Decoding.ofReading_eq_ok_iff.1 hl
  cases length? with
  | none => exact .refl _
  | some length =>
    refine Gated.bind_left fun start t hp ↦ ?_
    cases hp
    refine Gated.bind (Gated.bind (Gated.ofReading ?_) fun _ _ _ ↦ .refl _) fun _ _ _ ↦ .refl _
    exact (gated_front h c).mono fun e he ↦ ⟨length, c, hc, he⟩

/-! ## Runs -/

/-- Rounds that are gated make runs that are gated, wherever the run has come to. -/
theorem gated_records {P : Failure → Prop} {next next' : Decoding (Option (Prototype × Nat))}
    {s : Session} (h : ∀ ps t, Steps next s ps t → Gated P (next t) (next' t)) (rounds : Nat)
    {ps : List Prototype} {t : Session} (hs : Steps next s ps t) :
    Gated P (records next rounds t) (records next' rounds t) := by
  induction rounds generalizing ps t with
  | zero => exact .refl _
  | succ rounds ih =>
    refine Gated.bind (h ps t hs) fun r u hr ↦ ?_
    rcases r with _ | ⟨p, d⟩
    · exact .refl _
    · refine Gated.bind_left fun _ u' hpush ↦ ?_
      cases hpush
      exact ih (hs.snoc hr)

/-- Why stricter options turn a container away: for its flags, or for one of its records. -/
inductive Refusal (options : Options) (heap : Heap) (source : Source) (name : String) :
    Failure → Prop
  | ffi {f : Flags} {e : Failure} (h : RefusesFfi options source.delivered f e) :
      Refusal options heap source name e
  | debug {ctx : Context} {ps : List Prototype} {t : Session} {e : Failure}
      (hp : Point options heap source name ctx ps t) (h : RefusesRecord ctx t.cursor e) :
      Refusal options heap source name e

theorem gated_container (h : strict.Within permissive) (heap : Heap) (source : Source)
    (name : String) :
    Gated (Refusal strict heap source name)
      (container strict (Utf8.encode name) (.start heap source))
      (container permissive (Utf8.encode name) (.start heap source)) := by
  refine Gated.bind ((gated_header h _ heap source).mono fun e ⟨f, he⟩ ↦ .ffi he) fun head s hh ↦ ?_
  refine Gated.bind_left fun _ t hnote ↦ ?_
  cases hnote
  refine Gated.bind_left fun _ t hget ↦ ?_
  cases hget
  refine Gated.bind (gated_records ?_ _ .refl) fun _ _ _ ↦ .refl _
  exact fun ps t hs ↦ (gated_nextRecord h t).mono fun e he ↦ .debug (.mk hh hs) he

/-- Options only gate.  A decode under stricter options is in every respect the decode under more
permissive ones, or it is turned away for what the permissive ones allow: constants of the foreign
function interface, or debug info.  So a tree that is accepted under strict options is accepted
under permissive ones. -/
theorem decode_gated (h : strict.Within permissive) (heap : Heap) (source : Source)
    (name : String) :
    (decode strict heap source name = decode permissive heap source name ∨
      ∃ e, Refusal strict heap source name e ∧
        (decode strict heap source name).result =
          .error { e with chunk := chunkDisplayName name }) ∧
    ∀ tree, (decode strict heap source name).result = .ok tree →
      (decode permissive heap source name).result = .ok tree := by
  have hgated := gated_container h heap source name
  unfold decode
  rcases hgated with heq | ⟨e, t, he, hr⟩
  · rw [heq]
    exact ⟨.inl rfl, fun _ h ↦ h⟩
  · rw [he]
    refine ⟨.inr ⟨e, hr, rfl⟩, ?_⟩
    rintro _ ⟨⟩

/-- A record whose debug info is not allowed is turned away, since it is accepted where it is. -/
theorem decode_gated_debug_info :
    Options.Within ⟨true, false⟩ ⟨true, true⟩ ∧
    ∃ e, Refusal ⟨true, false⟩ .new (.ofBytes [0x1b, 0x4c, 0x4a, 2, 0, 1, 97,
      12, 0, 0, 0, 0, 0, 0, 0, 2, 0, 0, 0, 0, 0]) "a" e := by
  have hw : Options.Within ⟨true, false⟩ ⟨true, true⟩ := ⟨fun h ↦ h, fun _ ↦ rfl⟩
  have hno : (decode ⟨true, false⟩ .new (.ofBytes [0x1b, 0x4c, 0x4a, 2, 0, 1, 97,
      12, 0, 0, 0, 0, 0, 0, 0, 2, 0, 0, 0, 0, 0]) "a").result.toOption.isSome = false := by
    decide +kernel
  have hyes : (decode ⟨true, true⟩ .new (.ofBytes [0x1b, 0x4c, 0x4a, 2, 0, 1, 97,
      12, 0, 0, 0, 0, 0, 0, 0, 2, 0, 0, 0, 0, 0]) "a").result.toOption.isSome = true := by
    decide +kernel
  refine ⟨hw, ?_⟩
  rcases (decode_gated hw .new _ "a").1 with heq | ⟨e, he, -⟩
  · rw [heq, hyes] at hno
    cases hno
  · exact ⟨e, he⟩

end Container

end JitDump
