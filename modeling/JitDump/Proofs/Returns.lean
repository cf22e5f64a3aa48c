import JitDump.Proofs.Canonical
import JitDump.Proofs.Locality
import JitDump.Proofs.Obfuscation

/-!
# What the readings of a record return

Whatever the input is, a reading that succeeds returns something of a known
form: as many bytes, words and names as were announced, canonical instructions,
and debug info that takes up its whole block. The conditions are collected along
the operations of a record, without a word on the input.
-/

namespace JitDump

variable {σ α β : Type}

/-- All that an operation returns is as `P` says. -/
def Fallible.Returns (x : Fallible σ α) (P : α → Prop) : Prop := ∀ s a t, x s = .ok a t → P a

namespace Fallible

variable {x : Fallible σ α} {f : α → Fallible σ β} {P : α → Prop} {Q : β → Prop}

theorem returns_pure {a : α} (h : P a) : Returns (Pure.pure a : Fallible σ α) P := by
  rintro s _ _ ⟨⟩
  exact h

theorem returns_failAt (i : Nat) (fault : Fault) :
    Returns (failAt i fault : Fallible σ α) P := by rintro _ _ _ ⟨⟩

theorem Returns.bind (hx : Returns x P) (hf : ∀ a, P a → Returns (f a) Q) :
    Returns (x >>= f) Q := by
  intro s b t h
  obtain ⟨a, r, ha, h⟩ := bind_eq_ok.1 h
  exact hf a (hx s a r ha) r b t h

/-- Where nothing is said of what the first of two operations returns. -/
theorem returns_bind (hf : ∀ a, Returns (f a) Q) : Returns (x >>= f) Q :=
  Returns.bind (P := fun _ ↦ True) (fun _ _ _ _ ↦ trivial) fun a _ ↦ hf a

theorem returns_timesFrom (hx : Returns x P) {done : List α} (hd : ∀ a ∈ done, P a) (n : Nat) :
    Returns (timesFrom x done n) fun as ↦ as.length = done.length + n ∧ ∀ a ∈ as, P a := by
  induction n generalizing done with
  | zero => exact returns_pure ⟨List.length_reverse, fun a ha ↦ hd a (List.mem_reverse.1 ha)⟩
  | succ n ih =>
    rw [timesFrom_succ]
    refine hx.bind fun a ha ↦ ?_
    have hcons : ∀ b ∈ a :: done, P b := List.forall_mem_cons.2 ⟨ha, hd⟩
    have hn := ih hcons
    rwa [List.length_cons, Nat.succ_add_eq_add_succ] at hn

theorem returns_times (hx : Returns x P) (n : Nat) :
    Returns (times n x) fun as ↦ as.length = n ∧ ∀ a ∈ as, P a := by
  have hnil : ∀ a ∈ [], P a := by simp
  have h := returns_timesFrom hx hnil n
  rwa [List.length_nil, Nat.zero_add] at h

theorem returns_any (x : Fallible σ α) : Returns x fun _ ↦ True := fun _ _ _ _ ↦ trivial

end Fallible

open Fallible

theorem Reading.returns_block (n : Nat) : Returns (Reading.block n) fun u ↦ u.length = n :=
  fun _ _ _ h ↦ (Reading.of_block_eq_ok h).1

theorem Decoding.returns_ofReading {x : Reading α} {P : α → Prop} (hx : Returns x P) :
    Returns (Decoding.ofReading x) P := by
  intro s a t h
  obtain ⟨c, hc, -⟩ := Decoding.ofReading_eq_ok_iff.1 h
  exact hx _ _ _ hc

namespace Container

/-! ## The front of a record -/

theorem returns_instructions (order : ByteOrder) (count : Nat) :
    Returns (instructions order count) fun code ↦
      code.length = count ∧ ∀ i ∈ code, i.op.toNat < Opcode.count := by
  refine returns_bind fun start ↦ (Reading.returns_block _).bind fun block hb ↦ ?_
  split
  · rename_i code hcode
    obtain ⟨added, rfl, hl, hop⟩ := of_restoreFrom_eq_ok hcode
    rw [order.length_words32, hb, Nat.mul_div_cancel_left _ (by decide)] at hl
    exact returns_pure ⟨hl, hop⟩
  · exact returns_failAt _ _

/-- A record may announce a debug block if its container is not stripped and a decoder allows it. -/
structure Admits (ctx : Context) (header : DebugHeader) : Prop where
  unstripped : ctx.flags.isStripped = false
  allowed : ctx.options.allowDebugInfo = true
  nonempty : header.size ≠ 0

theorem returns_announced (ctx : Context) :
    Returns (announced ctx) fun header? ↦ ∀ header ∈ header?, Admits ctx header := by
  rw [announced]
  split
  · exact returns_pure (by simp)
  · rename_i hs
    refine returns_bind fun start ↦ returns_bind fun size ↦ ?_
    split
    · exact returns_pure (by simp)
    · rename_i hz
      split
      · rename_i ha
        refine returns_bind fun firstLine ↦ returns_bind fun lineCount ↦ returns_pure ?_
        rintro _ ⟨⟩
        exact ⟨Bool.eq_false_iff.2 hs, ha, hz⟩
      · exact returns_bind fun _ ↦ returns_bind fun _ ↦ returns_failAt _ _

/-- What the front of a record returns. -/
structure Front.Checked (ctx : Context) (f : Front) : Prop where
  length_code : f.code.length = f.codeCount.toNat
  opcodes : ∀ i ∈ f.code, i.op.toNat < Opcode.count
  length_upvalues : f.upvalues.length = f.head.upvalueCount.toNat
  debug : ∀ header ∈ f.debug?, Admits ctx header

theorem returns_front (ctx : Context) : Returns (front ctx) (Front.Checked ctx) := by
  refine returns_bind fun head ↦ returns_bind fun numberCount ↦ returns_bind fun objectCount ↦
    returns_bind fun codeCount ↦ (returns_announced ctx).bind fun debug? hdebug ↦ ?_
  refine (returns_instructions _ _).bind fun code hcode ↦ ?_
  refine (returns_times (returns_any _) _).bind fun upvalues hup ↦ ?_
  exact returns_bind fun numbers ↦ returns_pure ⟨hcode.1, hcode.2, hup.1, hdebug⟩

/-! ## The debug block -/

theorem returns_debugBlock (order : ByteOrder) {header : DebugHeader} (hz : header.size ≠ 0)
    (lineEntries upvalues : Nat) : Returns (debugBlock order header lineEntries upvalues)
      (DebugBlock.Canonical order lineEntries upvalues) := by
  refine returns_bind fun start ↦ (Reading.returns_block _).bind fun block hb ↦ ?_
  split
  · rename_i d hd
    obtain ⟨rfl, hfits, hl, hu, hblock⟩ := DebugBlock.of_parse?_eq_some order hd
    exact returns_pure ⟨hfits, by rw [hblock, hb], hz, hl, hu⟩
  · exact returns_failAt _ _

/-- What the debug block of a record returns, for its front. -/
structure Front.Carries (ctx : Context) (f : Front) (d : DebugInfo) : Prop where
  unstripped : ctx.flags.isStripped = false
  allowed : ctx.options.allowDebugInfo = true
  canonical : DebugBlock.Canonical ctx.flags.order f.code.length f.upvalues.length d

theorem returns_debugInfo {ctx : Context} {f : Front} (hf : f.Checked ctx) :
    Returns (debugInfo ctx.flags.order f) fun d? ↦ ∀ d ∈ d?, f.Carries ctx d := by
  rw [debugInfo]
  split
  · exact returns_pure (by simp)
  · rename_i header hh
    have ha := hf.debug header hh
    refine (returns_debugBlock _ ha.nonempty _ _).bind fun d hd ↦ returns_pure ?_
    rintro _ ⟨⟩
    refine ⟨ha.unstripped, ha.allowed, ?_⟩
    rwa [hf.length_code, hf.length_upvalues]

end Container

end JitDump
