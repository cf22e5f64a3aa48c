import JitDump.Proofs.Obfuscation
import JitDump.Proofs.Verdicts

/-!
# What failures point at

A failure carries an offset, which is noted before, amid or behind the reads that
lead to it, while the buffer moves on.  `Cursor.Within` ties a cursor to the input
that it reads: its position is within the input, and what is pending is the input
from there on.  Consuming bytes keeps this, so at the offset of a failure the
input holds what the failure is about: a number, the word of an instruction, or
the end mark of the container just before.
-/

namespace JitDump

open Cursor Fallible

variable {input : Bytes} {c c' : Cursor} {u : Bytes} {i : Nat}

/-! ## Cursors in an input -/

/-- What is pending in `c` is the input from the position of `c` on. -/
structure Cursor.Within (input : Bytes) (c : Cursor) : Prop where
  position_le : c.position ≤ input.length
  drop_position : input.drop c.position = c.pending

theorem Cursor.within_ofSource (source : Source) : (ofSource source).Within source.delivered :=
  ⟨Nat.zero_le _, rfl⟩

theorem Cursor.Within.advance (h : c.Within input) (ha : c.Advances u c') : c'.Within input := by
  have hdrop : input.drop c.position = u ++ c'.pending := h.drop_position.trans ha.pending
  constructor
  · have hlength := congrArg List.length hdrop
    have hle := h.position_le
    rw [List.length_drop, List.length_append] at hlength
    rw [ha.position]
    omega
  · rw [ha.position, ← List.drop_drop, hdrop, List.drop_left]

/-! ## What may stand at an offset -/

/-- The input holds a number from an offset on. -/
inductive NumberAt (input : Bytes) (i : Nat) : UInt32 → Prop
  | mk {u rest : Bytes} (hu : Varint.Whole u) (h : input.drop i = u ++ rest) :
      NumberAt input i (Varint.value u)

theorem Cursor.Within.numberAt {n : UInt32} (h : c.Within input)
    (hv : Reading.varint c = .ok n c') : NumberAt input c.position n := by
  obtain ⟨u, hu, rfl, ha⟩ := Reading.of_varint_eq_ok hv
  exact .mk hu (h.drop_position.trans ha.pending)

namespace Container

/-- The input holds the word of an instruction from an offset on, and with it an opcode number: in
the first byte of four, or in the last of a container whose words are big-endian. -/
inductive OpcodeAt (f : Flags) (input : Bytes) (i : Nat) : UInt8 → Prop
  | mk {b₀ b₁ b₂ b₃ : UInt8} {rest : Bytes} (h : input.drop i = b₀ :: b₁ :: b₂ :: b₃ :: rest) :
      OpcodeAt f input i (if f.isBigEndian then b₃ else b₀)

end Container

/-! ## Bad opcodes -/

/-- A word that lies in a block of words is laid out in four bytes of the block. -/
theorem ByteOrder.of_getElem?_words32 (order : ByteOrder) {word : UInt32} :
    ∀ (block : Bytes) (j : Nat), (order.words32 block)[j]? = some word →
      ∃ b₀ b₁ b₂ b₃ rest, block.drop (4 * j) = b₀ :: b₁ :: b₂ :: b₃ :: rest ∧
        word = order.word32 b₀ b₁ b₂ b₃
  | [], _, h | [_], _, h | [_, _], _, h | [_, _, _], _, h => by
    simp [words32, words32From] at h
  | b₀ :: b₁ :: b₂ :: b₃ :: rest, 0, h => by
    rw [words32_cons, List.getElem?_cons_zero, Option.some.injEq] at h
    exact ⟨b₀, b₁, b₂, b₃, rest, rfl, h.symm⟩
  | _ :: _ :: _ :: _ :: rest, j + 1, h => by
    rw [words32_cons, List.getElem?_cons_succ] at h
    exact of_getElem?_words32 order rest j h

namespace Instruction

theorem op_word32 (order : ByteOrder) (b₀ b₁ b₂ b₃ : UInt8) :
    op ⟨order.word32 b₀ b₁ b₂ b₃⟩ = if order = .big then b₃ else b₀ := by
  cases order with
  | little => exact op_ofABC b₀ b₁ b₃ b₂
  | big => exact op_ofABC b₃ b₂ b₀ b₁

/-- A word is refused for the opcode number that it holds, which is none of the table's. -/
theorem of_restore_eq_error {word : UInt32} {index n : UInt8}
    (h : restore word index = .error n) : n = op ⟨word⟩ ∧ Opcode.count ≤ n.toNat := by
  rw [restore] at h
  split at h
  · cases h
  · rename_i hn
    cases h
    refine ⟨rfl, ?_⟩
    rw [← Opcode.table_length]
    exact List.getElem?_eq_none_iff.1 hn

end Instruction

namespace Container

/-- Restoring stops at the first word that is refused. -/
theorem of_restoreFrom_eq_error {done : List Instruction} {index k : Nat} {op : UInt8}
    {words : List UInt32} (h : restoreFrom done index words = .error (k, op)) :
    ∃ j word, k = index + j ∧ words[j]? = some word ∧ op = Instruction.op ⟨word⟩ ∧
      Opcode.count ≤ op.toNat := by
  induction words generalizing done index with
  | nil => cases h
  | cons word words ih =>
    rw [restoreFrom] at h
    split at h
    · obtain ⟨j, word', rfl, hj, hop⟩ := ih h
      exact ⟨j + 1, word', by omega, hj, hop⟩
    · rename_i hr
      cases h
      exact ⟨0, word, rfl, rfl, Instruction.of_restore_eq_error hr⟩

/-- A bad opcode is reported where its word stands, which is within the block. -/
theorem opcodeAt_of_restoreFrom {f : Flags} {n k : Nat} {block : Bytes} {op : UInt8}
    (h : c.Within input) (hb : Reading.block n c = .ok block c')
    (hr : restoreFrom [] 0 (f.order.words32 block) = .error (k, op)) :
    c.position + 4 * k ≤ input.length ∧ Opcode.count ≤ op.toNat ∧
      OpcodeAt f input (c.position + 4 * k) op := by
  obtain ⟨j, word, hk, hj, rfl, hcount⟩ := of_restoreFrom_eq_error hr
  rw [Nat.zero_add] at hk
  subst hk
  obtain ⟨b₀, b₁, b₂, b₃, rest, hword, rfl⟩ := f.order.of_getElem?_words32 block k hj
  have hblock := (Reading.of_block_eq_ok hb).2.pending
  have hlength := congrArg List.length hword
  rw [List.length_drop] at hlength
  simp only [List.length_cons] at hlength
  have hdrop : input.drop (c.position + 4 * k) = b₀ :: b₁ :: b₂ :: b₃ :: (rest ++ c'.pending) := by
    rw [← List.drop_drop, h.drop_position, hblock, List.drop_append_of_le_length (by omega), hword]
    rfl
  refine ⟨?_, hcount, ?_⟩
  · have hle := congrArg List.length hdrop
    rw [List.length_drop] at hle
    simp only [List.length_cons] at hle
    omega
  · have hop : Instruction.op ⟨f.order.word32 b₀ b₁ b₂ b₃⟩ = if f.isBigEndian then b₃ else b₀ := by
      rw [Instruction.op_word32, Flags.order]
      cases f.isBigEndian <;> rfl
    rw [hop]
    exact .mk hdrop

/-! ## Causes -/

variable {options : Options} {heap : Heap} {source : Source} {name : String}

/-- An offset of the input of a decode just behind the end mark of its records: behind a number of
value zero in the place of the length of a record. -/
inductive EndMark (options : Options) (heap : Heap) (source : Source) (name : String) (i : Nat) :
    Prop
  | mk {ctx : Context} {ps : List Prototype} {t : Session} {u rest : Bytes}
      (hp : Point options heap source name ctx ps t) (hu : Varint.Whole u)
      (hz : Varint.value u = 0) (h : source.delivered.drop t.cursor.position = u ++ rest)
      (hi : i = t.cursor.position + u.length)

end Container

open Container

/-- What the input of a decode holds at the offset of a fault. Want of input, an oversized
requirement and records of another length than announced are not about a single place. -/
def Fault.Cause (options : Options) (heap : Heap) (source : Source) (name : String) (i : Nat) :
    Fault → Prop
  | .badMagic found => i = 0 ∧ found = source.delivered.take 4
  | .badFlags bits => i = 4 ∧ NumberAt source.delivered 4 bits
  | .badOpcode op => Opcode.count ≤ op.toNat ∧
      ∃ f, Opens source.delivered f ∧ OpcodeAt f source.delivered i op
  | .stackUnderflow | .nestingTooDeep _ | .invalidKey => NumberAt source.delivered i 0
  | .unexpectedDebugInfo => ∃ size, NumberAt source.delivered i size ∧ size ≠ 0
  | .trailingData => EndMark options heap source name i
  | .truncatedInput | .lengthMismatch _ _ | .bufferLimit _ | .io _ => True

namespace Container

variable {options : Options} {heap : Heap} {source : Source} {name : String}

/-- A failure within the input of a decode that points at its cause. -/
structure Sited (options : Options) (heap : Heap) (source : Source) (name : String) (e : Failure) :
    Prop where
  offset_le : e.offset ≤ source.delivered.length
  cause : e.fault.Cause options heap source name e.offset

theorem cause_shortage (c : Cursor) (n : Nat) :
    (c.shortage n).Cause options heap source name i := by
  rw [shortage]
  split
  · trivial
  · split <;> trivial

/-- Cursors stand within the input, and every fault points at its cause. -/
def sites (options : Options) (heap : Heap) (source : Source) (name : String) :
    Verdict options heap source name where
  within := Cursor.Within source.delivered
  holds := Sited options heap source name
  start := within_ofSource source
  advance := Cursor.Within.advance
  short h n := ⟨h.position_le, cause_shortage _ n⟩
  badMagic := ⟨Nat.zero_le _, rfl, rfl⟩
  badFlags ha hv := by
    have h := (within_ofSource source).advance ha
    have hi : _ = 0 + 4 := ha.position
    refine ⟨h.position_le, hi, ?_⟩
    have hnumber := h.numberAt hv
    rwa [hi] at hnumber
  unexpectedDebugInfo h hv hz := ⟨h.position_le, _, h.numberAt hv, hz⟩
  badOpcode hf h hb hr := by
    obtain ⟨hle, hcount, hop⟩ := opcodeAt_of_restoreFrom h hb hr
    exact ⟨hle, hcount, _, hf, hop⟩
  invalidKey h hv := ⟨h.position_le, h.numberAt hv⟩
  child _ h hc he := by
    obtain ⟨c, hv⟩ := hc
    rcases (fails_object_iff_of_child ⟨c, hv⟩).1 he with ⟨-, rfl⟩ | ⟨top, stack, -, -, rfl⟩
    · exact ⟨h.position_le, h.numberAt hv⟩
    · exact ⟨h.position_le, h.numberAt hv⟩
  lengthMismatch _ h _ _ := ⟨h.position_le, trivial⟩
  unsplit _ h _ _ _ := ⟨h.position_le, trivial⟩
  trailingData hp h hn := by
    obtain ⟨u, hu, ha, hnone, -⟩ := of_nextLength_eq_ok hn
    have hz : Varint.value u = 0 := UInt32.toNat_inj.1 (announcedLength_eq_none.1 hnone.symm)
    have hmark := h.drop_position.trans ha.pending
    exact ⟨(h.advance ha).position_le, .mk hp hu hz hmark ha.position⟩

/-- Failures point at their causes.  The offset of a failure is within the input, and there the
input holds what the failure is about. -/
theorem failure_points_at_cause {e : Failure}
    (h : (decode options heap source name).result = .error e) :
    e.offset ≤ source.delivered.length ∧ e.fault.Cause options heap source name e.offset := by
  obtain ⟨e₀, hsited, rfl⟩ := (sites options heap source name).of_decode h
  exact ⟨hsited.offset_le, hsited.cause⟩

/-- A stripped container with big-endian words, whose one instruction has the opcode number 255. -/
def badWord : Bytes := [0x1b, 0x4c, 0x4a, 2, 3, 11, 0, 0, 0, 0, 0, 0, 1, 1, 2, 3, 0xff, 0]

/-- The failure points at the word, behind five bytes of head, the length of the record, and four
bytes and three counts of the record. -/
theorem failure_points_at_bad_word :
    (decode .default .new (.ofBytes badWord) "a").result =
      .error ⟨"a", 13, .badOpcode 255⟩ ∧
    Fault.Cause .default .new (.ofBytes badWord) "a" 13 (.badOpcode 255) := by
  have h : (decode .default .new (.ofBytes badWord) "a").failure? =
      some ⟨"a", 13, .badOpcode 255⟩ := by decide +kernel
  have hresult := Decoded.result_eq_error h
  exact ⟨hresult, (failure_points_at_cause hresult).2⟩

end Container

end JitDump
