import JitDump.Proofs.Gating
import JitDump.Proofs.Stops

/-!
# What is said of failures

To say something of every failure of a decode one has to know where the cursor
may stand when it shows.  A `Verdict` is a condition on cursors, which consuming
bytes keeps, and a condition on failures, which is to be met by each fault where
it is found.  The passage through the operations of a decode is made here once,
for any verdict: whatever a decode stops with is as the verdict says.
-/

namespace JitDump

open Cursor Container

variable {σ α β : Type}

/-! ## What an operation settles -/

/-- What an operation may come to: states of some kind, or failures of some kind. -/
def Fallible.Settles (within : σ → Prop) (holds : Failure → Prop) :
    EStateM.Result Failure σ α → Prop
  | .ok _ t => within t
  | .error e _ => holds e

namespace Fallible

variable {within : σ → Prop} {holds : Failure → Prop} {x : Fallible σ α} {f : α → Fallible σ β}
variable {s t : σ} {a : α} {e : Failure}

theorem Settles.of_ok (h : Settles within holds (x s)) (hx : x s = .ok a t) : within t := by
  rwa [hx] at h

theorem Settles.of_fails (h : Settles within holds (x s)) (he : Fails x s e) : holds e := by
  obtain ⟨t, hx⟩ := he
  rwa [hx] at h

theorem Settles.bind (h : Settles within holds (x s))
    (h' : ∀ a t, x s = .ok a t → within t → Settles within holds (f a t)) :
    Settles within holds ((x >>= f) s) := by
  cases hx : x s with
  | ok a t =>
    rw [bind_of_ok hx]
    exact h' a t hx (h.of_ok hx)
  | error e t =>
    rw [bind_of_error hx]
    exact h.of_fails ⟨t, hx⟩

theorem Settles.map (h : Settles within holds (x s)) (g : α → β) :
    Settles within holds ((g <$> x) s) :=
  h.bind (f := fun a ↦ pure (g a)) fun _ _ _ ht ↦ ht

theorem settles_timesFrom (hx : ∀ s, within s → Settles within holds (x s)) (done : List α)
    (n : Nat) (hs : within s) : Settles within holds (timesFrom x done n s) := by
  induction n generalizing done s with
  | zero => exact hs
  | succ n ih =>
    rw [timesFrom_succ]
    exact (hx s hs).bind fun a t _ ht ↦ ih (a :: done) ht

end Fallible

open Fallible

/-! ## What objects and keys stop with -/

namespace Container

variable {s t : Session} {e : Failure}

/-- A reference to a child comes next. -/
def Session.AtChild (s : Session) : Prop := ∃ c, Reading.varint s.cursor = .ok 0 c

/-- A reference to a child fails where the stack is empty, or where its latest tree nests as deep as
any tree may. -/
theorem fails_object_iff_of_child (h : s.AtChild) : Fails object s e ↔
    (s.stack = [] ∧ e = s.cursor.failure .stackUnderflow) ∨
    ∃ top stack, s.stack = top :: stack ∧ maxNesting < top.2 + 1 ∧
      e = s.cursor.failure (.nestingTooDeep (top.2 + 1)) := by
  obtain ⟨c, hc⟩ := h
  refine (fails_bind_of_ok (x := Decoding.ofReading Reading.position) rfl).trans ?_
  refine (fails_bind_of_ok (Decoding.ofReading_eq_ok hc)).trans ?_
  refine (fails_bind_of_ok (Decoding.pop?_eq _)).trans ?_
  cases hs : s.stack with
  | nil => simp [Cursor.failure]
  | cons top stack =>
    rw [List.head?_cons]
    dsimp only
    by_cases hd : maxNesting < top.2 + 1
    · rw [if_pos hd, fails_failAt_iff]
      constructor
      · exact fun he ↦ .inr ⟨top, stack, rfl, hd, he⟩
      · rintro (⟨⟨⟩, -⟩ | ⟨_, _, ⟨⟩, -, he⟩)
        exact he
    · rw [if_neg hd, fails_pure_iff]
      constructor
      · exact False.elim
      · rintro (⟨⟨⟩, -⟩ | ⟨_, _, ⟨⟩, hd', -⟩)
        exact hd hd'

/-- A value that no table is indexed by is nil, which the number zero stands for. -/
theorem varint_of_key?_eq_none {v : Template.Value} (h : templateValue s = .ok v t)
    (hv : v.key? = none) : ∃ c, Reading.varint s.cursor = .ok 0 c := by
  obtain ⟨kind, r, hk, h⟩ := bind_eq_ok.1 h
  obtain ⟨c, hc, -⟩ := Decoding.ofReading_eq_ok_iff.1 hk
  split at h
  · exact ⟨c, hc⟩
  · cases h
    cases hv
  · cases h
    cases hv
  · obtain ⟨_, _, -, h⟩ := bind_eq_ok.1 h
    cases h
    cases hv
  · obtain ⟨_, _, -, h⟩ := bind_eq_ok.1 h
    cases h
    cases hv
  · obtain ⟨_, _, -, h⟩ := bind_eq_ok.1 h
    cases h
    cases hv

end Container

/-! ## Verdicts -/

/-- What is to be shown of the failures of some decode, and of the cursors in front of which they
show: a failure may tell what the cursor stands at, and faults of the stack and of lengths are told
from the place in the decode. -/
structure Verdict (options : Options) (heap : Heap) (source : Source) (name : String) where
  within : Cursor → Prop
  holds : Failure → Prop
  start : within (.ofSource source)
  advance {c c' : Cursor} {u : Bytes} (h : within c) (ha : c.Advances u c') : within c'
  short {c : Cursor} (h : within c) (n : Nat) : holds (c.failure (c.shortage n))
  badMagic : holds ⟨"", 0, .badMagic (source.delivered.take 4)⟩
  badFlags {c c' : Cursor} {bits : UInt32}
    (ha : Cursor.Advances (.ofSource source) (signature :: magic) c)
    (hv : Reading.varint c = .ok bits c') : holds (c.failure (.badFlags bits))
  unexpectedDebugInfo {c c' : Cursor} {size : UInt32} (h : within c)
    (hv : Reading.varint c = .ok size c') (hz : size ≠ 0) : holds (c.failure .unexpectedDebugInfo)
  badOpcode {f : Flags} {c c' : Cursor} {n index : Nat} {block : Bytes} {op : UInt8}
    (hf : Opens source.delivered f) (h : within c) (hb : Reading.block n c = .ok block c')
    (hr : restoreFrom [] 0 (f.order.words32 block) = .error (index, op)) :
    holds ⟨"", c.position + 4 * index, .badOpcode op⟩
  invalidKey {c c' : Cursor} (h : within c) (hv : Reading.varint c = .ok 0 c') :
    holds (c.failure .invalidKey)
  child {ctx : Context} {f : Front} {left : Nat} {s : Session} {e : Failure}
    (ha : Amid options heap source name ctx f (left + 1) s) (h : within s.cursor) (hc : s.AtChild)
    (he : Fails object s e) : holds e
  lengthMismatch {ctx : Context} {n : Nat} {s t : Session} {r : Prototype × Nat}
    (ha : AtRecord options heap source name ctx n s) (h : within s.cursor)
    (hr : record ctx s = .ok r t) (hn : t.cursor.position - s.cursor.position ≠ n) :
    holds (s.cursor.failure (.lengthMismatch n (t.cursor.position - s.cursor.position)))
  unsplit {ctx : Context} {f : Front} {t : Session} {header : DebugHeader} {block : Bytes}
    {c : Cursor} (ha : Amid options heap source name ctx f 0 t) (h : within t.cursor)
    (hd : f.debug? = some header) (hb : Reading.block header.size.toNat t.cursor = .ok block c)
    (hp : DebugBlock.parse? ctx.flags.order header f.codeCount.toNat f.head.upvalueCount.toNat
      block = none) :
    holds (t.cursor.failure (.lengthMismatch header.size.toNat block.length))
  trailingData {ctx : Context} {ps : List Prototype} {t : Session} {c : Cursor}
    (hp : Point options heap source name ctx ps t) (h : within t.cursor)
    (hn : nextLength t.cursor = .ok none c) : holds (c.failure .trailingData)

namespace Verdict

variable {options : Options} {heap : Heap} {source : Source} {name : String}
variable (V : Verdict options heap source name)

/-- A reading comes to a cursor within, or fails as the verdict says. -/
abbrev Reads (r : EStateM.Result Failure Cursor α) : Prop := Settles V.within V.holds r

/-- An operation of a decode does. -/
abbrev Decodes (r : EStateM.Result Failure Session α) : Prop :=
  Settles (fun s ↦ V.within s.cursor) V.holds r

variable {V} {c : Cursor} {s : Session} {ctx : Context}

/-! ## Readings -/

theorem need (n : Nat) (h : V.within c) : V.Reads (Reading.need n c) := by
  cases hx : Reading.need n c with
  | ok _ c' => exact V.advance h (Reading.of_need_eq_ok hx).2.1
  | error e c' =>
    rw [Reading.of_need_eq_error hx]
    exact V.short h n

theorem want {n : Nat} (hn : n ≤ maxBuffer) (h : V.within c) : V.Reads (Reading.want n c) := by
  cases hx : Reading.want n c with
  | ok _ c' => exact V.advance h (Reading.of_want_eq_ok hn hx).1
  | error e c' =>
    rw [Reading.of_want_eq_error hn hx]
    exact V.short h n

theorem block (n : Nat) (h : V.within c) : V.Reads (Reading.block n c) := by
  cases hx : Reading.block n c with
  | ok u c' => exact V.advance h (Reading.of_block_eq_ok hx).2
  | error e c' =>
    rw [Reading.of_block_eq_error hx]
    exact V.short h n

theorem byte (h : V.within c) : V.Reads (Reading.byte c) := by
  cases hp : c.pending with
  | cons b rest =>
    obtain ⟨c', hx, ha⟩ := Reading.byte_eq_ok hp
    rw [hx]
    exact V.advance h ha
  | nil =>
    obtain ⟨c', hx⟩ := Reading.byte_eq_error hp
    rw [hx]
    exact V.short h 1

/-- By induction on what the cursor has left. -/
theorem groupsFrom (done : Bytes) (h : V.within c) : V.Reads (Reading.groupsFrom done c) := by
  induction hn : c.undelivered using Nat.strongRecOn generalizing c done with
  | ind n ih =>
    rw [Reading.groupsFrom_eq done c]
    cases hx : Reading.byte c with
    | error e c' => exact (byte h).of_fails ⟨c', hx⟩
    | ok b c' =>
      have hc' := (byte h).of_ok hx
      dsimp only
      by_cases hb : Varint.continues b
      · rw [if_pos hb]
        exact ih _ (hn ▸ Reading.byte_undelivered hx) (b :: done) hc' rfl
      · rw [if_neg hb]
        exact hc'

theorem varint (h : V.within c) : V.Reads (Reading.varint c) := (groupsFrom [] h).map _

theorem taggedVarint (h : V.within c) : V.Reads (Reading.taggedVarint c) := (groupsFrom [] h).map _

theorem wide (h : V.within c) : V.Reads (Container.wide c) :=
  (varint h).bind fun _ _ _ h ↦ (varint h).bind fun _ _ _ h ↦ h

theorem number (h : V.within c) : V.Reads (Container.number c) := by
  refine (taggedVarint h).bind fun low c' _ hc' ↦ ?_
  obtain ⟨low, isFloat⟩ := low
  cases isFloat with
  | true => exact (varint hc').bind fun _ _ _ h ↦ h
  | false => exact hc'

theorem word16 (order : ByteOrder) (h : V.within c) : V.Reads (Reading.word16 order c) := by
  rw [Reading.word16_eq]
  exact (block 2 h).map _

theorem headBytes (h : V.within c) : V.Reads (Container.headBytes c) := by
  rw [Reading.headBytes_eq]
  exact (block 4 h).map _

/-! ### The head of a container -/

/-- What does not open a container is its first four bytes, or all there is. -/
theorem prologue : V.Reads (Container.prologue (.ofSource source)) := by
  refine (want (by decide) V.start).bind fun _ c hw hc ↦ ?_
  obtain ⟨ha, hl⟩ := Reading.of_want_eq_ok (by decide) hw
  have hpend : c.pending = source.delivered := ha.pending_eq
  rw [← ha.pending_eq] at hl
  refine Settles.bind (x := MonadState.get) hc fun c₀ c₁ hget _ ↦ ?_
  cases hget
  by_cases h4 : 4 ≤ c.buffer.length
  · simp only [holds_eq, h4, decide_true, if_true]
    refine (block 4 hc).bind fun found c' hb hc' ↦ ?_
    obtain ⟨hlen, ha'⟩ := Reading.of_block_eq_ok hb
    have hfound : source.delivered.take 4 = found := by
      rw [← hpend, ha'.pending, ← hlen, List.take_left]
    split
    · exact hc'
    · rw [← hfound]
      exact V.badMagic
  · simp only [holds_eq, h4, decide_false, Bool.false_eq_true, if_false]
    refine (block _ hc).bind fun found c' hb _ ↦ ?_
    obtain ⟨hlen, ha'⟩ := Reading.of_block_eq_ok hb
    -- looking ahead has brought all there is into the buffer
    have hall : c.pending.length ≤ found.length := by
      rw [hlen, Cursor.remaining]
      omega
    have hfound : source.delivered.take 4 = found := by
      rw [hlen, Cursor.remaining] at hall
      rw [← hpend, List.take_of_length_le (by omega)]
      have hpending := ha'.pending
      have hnil : c'.pending = [] := by
        have hlength := congrArg List.length hpending
        rw [List.length_append, hlen, Cursor.remaining] at hlength
        exact List.eq_nil_of_length_eq_zero (by omega)
      rw [hpending, hnil, List.append_nil]
    rw [← hfound]
    exact V.badMagic

theorem flags (h : V.within c) (ha : Cursor.Advances (.ofSource source) (signature :: magic) c) :
    V.Reads (Container.flags options c) := by
  refine Settles.bind (x := Reading.position) h fun start c₀ hp _ ↦ ?_
  cases hp
  refine (varint h).bind fun bits c' hv hc' ↦ ?_
  dsimp only
  split
  · exact hc'
  · exact V.badFlags ha hv

theorem opening : V.Reads (Container.opening options (.ofSource source)) := by
  refine prologue.bind fun _ c hp hc ↦ ?_
  refine (flags hc (of_prologue_eq_ok hp)).bind fun f c' _ hc' ↦ ?_
  split
  · exact hc'
  · refine (varint hc').bind fun length c' _ hc' ↦ ?_
    exact (block _ hc').bind fun _ _ _ h ↦ h

/-! ### Lengths -/

theorem nextLength (h : V.within c) : V.Reads (Container.nextLength c) := by
  refine (want (by decide) h).bind fun _ c₁ hw hc₁ ↦ ?_
  obtain ⟨ha, hl⟩ := Reading.of_want_eq_ok (by decide) hw
  rw [← ha.pending_eq] at hl
  refine Settles.bind (x := Reading.peek) hc₁ fun b? c₂ hpeek _ ↦ ?_
  cases hpeek
  rw [Reading.head?_buffer hl]
  cases hp : c₁.pending with
  | nil =>
    -- looking ahead went well, so the input is over
    have hclosing : c₁.closing = .finished := by
      rw [ha.closing]
      refine (Reading.length_le_of_want (by decide) hw).resolve_left ?_
      rw [← ha.pending_eq, hp]
      decide
    have hshort := V.short hc₁ 1
    rwa [shortage, if_neg (by decide), hclosing] at hshort
  | cons b rest =>
    dsimp only [List.head?_cons]
    split
    · refine Settles.bind (x := Reading.skip 1) ?_ fun _ _ _ h ↦ h
      obtain ⟨c₃, hs, ha'⟩ := Reading.skip_eq_ok (n := 1) (c := c₁) (by decide) (by simp [hp])
      rw [hs]
      exact V.advance hc₁ ha'
    · refine (want (by decide) hc₁).bind fun _ c₃ _ hc₃ ↦ ?_
      refine (varint hc₃).bind fun length c₄ _ hc₄ ↦ ?_
      split
      · exact hc₄
      · exact (need _ hc₄).bind fun _ _ _ h ↦ h

/-! ### The front and the debug block of a record -/

theorem debugHeader (options : Options) (h : V.within c) :
    V.Reads (Container.debugHeader options c) := by
  refine Settles.bind (x := Reading.position) h fun start c₀ hp _ ↦ ?_
  cases hp
  refine (varint h).bind fun size c' hv hc' ↦ ?_
  split
  · exact hc'
  · rename_i hz
    split
    · exact (varint hc').bind fun _ _ _ h ↦ (varint h).bind fun _ _ _ h ↦ h
    · obtain ⟨c₁, he⟩ := ReadingCongruence.reject_eq_error c.position c'
      rw [he]
      exact V.unexpectedDebugInfo h hv hz

theorem announced (ctx : Context) (h : V.within c) : V.Reads (Container.announced ctx c) := by
  rw [Container.announced]
  split
  · exact h
  · exact debugHeader _ h

theorem instructions {f : Flags} (hf : Opens source.delivered f) (count : Nat) (h : V.within c) :
    V.Reads (Container.instructions f.order count c) := by
  refine Settles.bind (x := Reading.position) h fun start c₀ hp _ ↦ ?_
  cases hp
  refine (block _ h).bind fun u c' hb hc' ↦ ?_
  cases hr : restoreFrom [] 0 (f.order.words32 u) with
  | ok code => exact hc'
  | error bad => exact V.badOpcode hf h hb hr

theorem front (hf : Opens source.delivered ctx.flags) (h : V.within c) :
    V.Reads (Container.front ctx c) := by
  refine (headBytes h).bind fun head c _ h ↦ ?_
  refine (varint h).bind fun numberCount c _ h ↦ ?_
  refine (varint h).bind fun objectCount c _ h ↦ ?_
  refine (varint h).bind fun codeCount c _ h ↦ ?_
  refine (announced ctx h).bind fun debug? c _ h ↦ ?_
  refine (instructions hf _ h).bind fun code c _ h ↦ ?_
  refine (settles_timesFrom (fun _ ↦ word16 _) [] _ h).bind fun upvalues c _ h ↦ ?_
  exact (settles_timesFrom (fun _ ↦ number) [] _ h).bind fun numbers c _ h ↦ h

theorem debugInfo {f : Front} (ha : Amid options heap source name ctx f 0 s)
    (h : V.within s.cursor) : V.Reads (Container.debugInfo ctx.flags.order f s.cursor) := by
  rw [Container.debugInfo]
  cases hd : f.debug? with
  | none => exact h
  | some header =>
    refine Settles.map (Settles.bind (x := Reading.position) h fun start c₀ hp _ ↦ ?_) _
    cases hp
    refine (block _ h).bind fun u c' hb hc' ↦ ?_
    cases hp : DebugBlock.parse? ctx.flags.order header f.codeCount.toNat
      f.head.upvalueCount.toNat u with
    | some info => exact hc'
    | none => exact V.unsplit ha h hd hb hp

/-! ## Operations of a decode -/

theorem ofReading {x : Reading α} (h : V.Reads (x s.cursor)) :
    V.Decodes (Decoding.ofReading x s) := by
  cases hx : x s.cursor with
  | ok a c =>
    rw [Decoding.ofReading_eq_ok hx]
    exact h.of_ok hx
  | error e c =>
    rw [Decoding.ofReading_eq_error hx]
    exact h.of_fails ⟨c, hx⟩

theorem maskedString (length : Nat) (h : V.within s.cursor) :
    V.Decodes (Container.maskedString length s) :=
  (ofReading (block length h)).bind fun _ _ _ h ↦ h

theorem templateValue (h : V.within s.cursor) : V.Decodes (Container.templateValue s) := by
  refine (ofReading (varint h)).bind fun kind t _ ht ↦ ?_
  split
  · exact ht
  · exact ht
  · exact ht
  · exact (ofReading (varint ht)).bind fun _ _ _ h ↦ h
  · exact (ofReading (wide ht)).bind fun _ _ _ h ↦ h
  · exact (maskedString _ ht).bind fun _ _ _ h ↦ h

theorem templatePair (t : Template) (h : V.within s.cursor) :
    V.Decodes (Container.templatePair t s) := by
  refine Settles.bind (x := Decoding.ofReading Reading.position) h fun start r hp _ ↦ ?_
  cases hp
  refine (templateValue h).bind fun v r hv hr ↦ ?_
  cases hk : v.key? with
  | none =>
    obtain ⟨c, hc⟩ := varint_of_key?_eq_none hv hk
    exact V.invalidKey h hc
  | some key => exact (templateValue hr).bind fun _ _ _ h ↦ h

theorem templatePairs (t : Template) (n : Nat) (h : V.within s.cursor) :
    V.Decodes (Container.templatePairs t n s) := by
  induction n generalizing t s with
  | zero => exact h
  | succ n ih => exact (templatePair t h).bind fun t r _ hr ↦ ih t hr

theorem template (h : V.within s.cursor) : V.Decodes (Container.template s) := by
  refine (ofReading (varint h)).bind fun pairs r _ hr ↦ ?_
  refine (ofReading (varint hr)).bind fun values r _ hr ↦ ?_
  refine (settles_timesFrom (fun _ ↦ templateValue) [] _ hr).bind fun array r _ hr ↦ ?_
  exact templatePairs _ _ hr

/-- An object that is no child, told from the number that gives its kind. -/
theorem object_of_ne_zero {kind : UInt32} {c : Cursor} (h : V.within s.cursor)
    (hc : Reading.varint s.cursor = .ok kind c) (hk : kind ≠ 0) :
    V.Decodes (Container.object s) := by
  refine Settles.bind (x := Decoding.ofReading Reading.position) h fun start r hp _ ↦ ?_
  cases hp
  refine (ofReading (varint h)).bind fun kind' r hr hwithin ↦ ?_
  rw [Decoding.ofReading_eq_ok hc] at hr
  cases hr
  split
  · exact absurd rfl hk
  · exact (template hwithin).bind fun _ _ _ h ↦ h
  · exact (ofReading (wide hwithin)).bind fun _ _ _ h ↦ h
  · exact (ofReading (wide hwithin)).bind fun _ _ _ h ↦ h
  · refine (ofReading (wide hwithin)).bind fun _ _ _ h ↦ ?_
    exact (ofReading (wide h)).bind fun _ _ _ h ↦ h
  · exact (maskedString _ hwithin).bind fun _ _ _ h ↦ h

end Verdict

/-! ## Places in a decode -/

namespace Container

variable {options : Options} {heap : Heap} {source : Source} {name : String} {ctx : Context}

/-- The flags of an opening stand behind its first four bytes. -/
theorem flags_of_opening {c c' : Cursor} {f : Flags} {name? : Option Bytes}
    (h : opening options c = .ok (f, name?) c') :
    ∃ c₁ c₂, prologue c = .ok () c₁ ∧ flags options c₁ = .ok f c₂ := by
  obtain ⟨_, c₁, hp, h⟩ := bind_eq_ok.1 h
  obtain ⟨f', c₂, hf, h⟩ := bind_eq_ok.1 h
  refine ⟨c₁, c₂, hp, ?_⟩
  split at h
  · cases h
    exact hf
  · obtain ⟨_, _, -, h⟩ := bind_eq_ok.1 h
    obtain ⟨_, _, -, h⟩ := bind_eq_ok.1 h
    cases h
    exact hf

/-- The flags of a head are those that its input opens with. -/
theorem opens_of_header {h : Header} {s : Session} {bytes : Bytes}
    (hh : header options bytes (.start heap source) = .ok h s) :
    Opens source.delivered h.flags := by
  obtain ⟨name?, ho⟩ := opening_of_header hh
  generalize h.flags = f at ho ⊢
  obtain ⟨c₁, c₂, hp, hf⟩ := flags_of_opening ho
  obtain ⟨_, _, ⟨⟩, hf⟩ := bind_eq_ok.1 hf
  obtain ⟨bits, c₃, hv, hf⟩ := bind_eq_ok.1 hf
  obtain ⟨u, hu, rfl, ha⟩ := Reading.of_varint_eq_ok hv
  dsimp only at hf
  split at hf
  · cases hf
    have hpend : source.delivered = _ := (of_prologue_eq_ok hp).pending
    rw [hpend, ha.pending]
    exact .mk hu
  · cases hf

theorem Point.opens {ps : List Prototype} {t : Session}
    (hp : Point options heap source name ctx ps t) : Opens source.delivered ctx.flags := by
  cases hp with
  | mk hh hs => exact opens_of_header hh

theorem AtRecord.opens {n : Nat} {s : Session} (ha : AtRecord options heap source name ctx n s) :
    Opens source.delivered ctx.flags := by
  cases ha with
  | mk hp hl => exact hp.opens

end Container

namespace Verdict

variable {options : Options} {heap : Heap} {source : Source} {name : String}
variable {V : Verdict options heap source name} {s t : Session} {ctx : Context}

theorem header (bytes : Bytes) : V.Decodes (Container.header options bytes (.start heap source)) :=
  (ofReading opening).bind fun _ _ _ h ↦ h

/-- Rounds consume bytes, so what is within stays so. -/
theorem within_of_steps {ps : List Prototype} (hs : Steps (nextRecord ctx) s ps t)
    (h : V.within s.cursor) : V.within t.cursor := by
  induction hs with
  | refl => exact h
  | snoc _ hn ih =>
    obtain ⟨u, -, ha⟩ := (nextRecord_eq_ok_iff.1 hn).advances
    exact V.advance ih ha

theorem within_of_point {ps : List Prototype} (hp : Point options heap source name ctx ps t) :
    V.within t.cursor := by
  cases hp with
  | mk hh hs =>
    have h := (header (V := V) _).of_ok hh
    exact within_of_steps hs h

theorem within_of_atRecord {n : Nat} (ha : AtRecord options heap source name ctx n s) :
    V.within s.cursor := by
  cases ha with
  | mk hp hl => exact (nextLength (within_of_point hp)).of_ok hl

theorem within_of_amid {f : Front} {left : Nat} (ha : Amid options heap source name ctx f left t) :
    V.within t.cursor := by
  cases ha with
  | @mk _ _ _ _ _ _ c _ ha hf ho hl =>
    have hwithin : V.within c := (front ha.opens (within_of_atRecord ha)).of_ok hf
    clear hf hl
    induction ho with
    | nil => exact hwithin
    | cons _ ho ih =>
      obtain ⟨u, hadv, -⟩ := Decoding.locality.object _ _ _ ho
      exact V.advance ih hadv

/-! ## Whole decodes -/

theorem object {f : Front} {left : Nat} {e : Failure}
    (ha : Amid options heap source name ctx f (left + 1) s) (he : Fails Container.object s e) :
    V.holds e := by
  have h := V.within_of_amid ha
  rcases fails_bind_iff.1 ((fails_bind_of_ok rfl).1 he) with hk | ⟨kind, r, hk, -⟩
  · exact (ofReading (varint h)).of_fails hk
  · obtain ⟨c, hc, -⟩ := Decoding.ofReading_eq_ok_iff.1 hk
    by_cases h0 : kind = 0
    · subst h0
      exact V.child ha h ⟨c, hc⟩ he
    · exact (object_of_ne_zero h hc h0).of_fails he

theorem root {ps : List Prototype} {r : Session} {e : Failure}
    (hp : Point options heap source name ctx ps t) (hn : nextRecord ctx t = .ok none r)
    (he : Fails Container.root r e) : V.holds e := by
  cases nextRecord_eq_ok_iff.1 hn with
  | @stop c hl =>
    have hc : V.within c := (nextLength (within_of_point hp)).of_ok hl
    have htrailing := V.trailingData hp (within_of_point hp) hl
    rcases Decoding.fails_read_iff.1 he with hw | ⟨_, c', hw, he⟩
    · exact (want (by decide) hc).of_fails hw
    · obtain ⟨ha, -⟩ := Reading.of_want_eq_ok (by decide) hw
      replace he := (fails_bind_of_ok (x := MonadState.get) rfl).1 he
      rw [← ha.failure_eq] at htrailing
      split at he
      · exact absurd he fails_pure_iff.1
      · obtain ⟨_, hx⟩ := Decoding.fails_ofReading_iff.1 he
        cases hx
        exact htrailing

/-- Whatever a decode stops with is as the verdict says. -/
theorem holds_of_stop {e : Failure} (h : Stop options heap source name e) : V.holds e := by
  cases h with
  | opening h => exact opening.of_fails h
  | length hp h => exact (nextLength (within_of_point hp)).of_fails h
  | front ha h => exact (front ha.opens (within_of_atRecord ha)).of_fails h
  | object ha h => exact object ha h
  | debug ha h => exact (debugInfo ha (within_of_amid ha)).of_fails h
  | mismatch ha hr hn h =>
    rw [h]
    exact V.lengthMismatch ha (within_of_atRecord ha) hr hn
  | root hp hn h => exact root hp hn h

/-- The failure of a decode is as the verdict says, under the name of its source. -/
theorem of_decode {e : Failure} (h : (decode options heap source name).result = .error e) :
    ∃ e₀, V.holds e₀ ∧ e = { e₀ with chunk := chunkDisplayName name } := by
  obtain ⟨e₀, hs, he⟩ := decode_eq_error_iff.1 h
  exact ⟨e₀, V.holds_of_stop hs, he⟩

end Verdict

end JitDump
