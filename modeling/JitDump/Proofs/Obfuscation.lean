import Mathlib.Tactic.Common
import Mathlib.Tactic.IntervalCases
import JitDump.Container.Encode
import JitDump.Proofs.Words

/-!
# What a container hides can be restored

The fields of an instruction are independent bytes of its word, so renumbering
the opcode, complementing one operand and keying another are undone field by
field.  The head of a record is chained byte by byte, and unchained the same way.
-/

namespace JitDump

theorem RecordHead.unchain_chain (h : RecordHead) :
    ∃ b0 b1 b2 b3, h.chain = [b0, b1, b2, b3] ∧ unchain b0 b1 b2 b3 = h := by
  refine ⟨_, _, _, _, rfl, ?_⟩
  simp only [unchain, UInt8.xor_assoc, UInt8.xor_self, UInt8.xor_zero]

/-- The numbering of opcodes can be read backwards. -/
theorem Opcode.exists_obfuscated {op : UInt8} (h : op.toNat < count) :
    ∃ n, obfuscated? op = some n ∧ canonical? n = some op := by
  have hall : ∀ k < count, ∃ n, obfuscated? (UInt8.ofNat k) = some n ∧
      canonical? n = some (UInt8.ofNat k) := by
    have hbind : ∀ k < count,
        (obfuscated? (UInt8.ofNat k)).bind canonical? = some (UInt8.ofNat k) := by
      decide
    exact fun k hk ↦ Option.bind_eq_some_iff.1 (hbind k hk)
  simpa using hall op.toNat h

theorem Opcode.toNat_lt_of_canonical {n op : UInt8} (h : canonical? n = some op) :
    op.toNat < count := by
  have hall : ∀ op ∈ table, op.toNat < count := by decide +kernel
  exact hall op (List.mem_of_getElem? h)

namespace Instruction

/-! ## Fields -/

section Fields

variable (op a b c x : UInt8)

@[simp] theorem op_ofABC : (ofABC op a b c).op = op := by
  rw [← UInt8.toBitVec_inj]
  ext j hj
  interval_cases j <;> simp [ofABC, Instruction.op]

@[simp] theorem a_ofABC : (ofABC op a b c).a = a := by
  rw [← UInt8.toBitVec_inj]
  ext j hj
  interval_cases j <;> simp [ofABC, Instruction.a]

@[simp] theorem b_ofABC : (ofABC op a b c).b = b := by
  rw [← UInt8.toBitVec_inj]
  ext j hj
  interval_cases j <;> simp [ofABC, Instruction.b]

@[simp] theorem c_ofABC : (ofABC op a b c).c = c := by
  rw [← UInt8.toBitVec_inj]
  ext j hj
  interval_cases j <;> simp [ofABC, Instruction.c]

@[simp] theorem withOp_ofABC : (ofABC op a b c).withOp x = ofABC x a b c := by
  refine congrArg mk (UInt32.toBitVec_inj.1 ?_)
  ext j hj
  interval_cases j <;> simp [ofABC]

@[simp] theorem withA_ofABC : (ofABC op a b c).withA x = ofABC op x b c := by
  refine congrArg mk (UInt32.toBitVec_inj.1 ?_)
  ext j hj
  interval_cases j <;> simp [ofABC]

@[simp] theorem withB_ofABC : (ofABC op a b c).withB x = ofABC op a x c := by
  refine congrArg mk (UInt32.toBitVec_inj.1 ?_)
  ext j hj
  interval_cases j <;> simp [ofABC]

theorem d_ofABC_zero : (ofABC op a 0 0).d = 0 := by
  rw [← UInt16.toBitVec_inj]
  ext j hj
  interval_cases j <;> simp [ofABC, Instruction.d]

/-- An instruction is its four fields. -/
theorem eq_ofABC (i : Instruction) : i = ofABC i.op i.a i.b i.c :=
  congrArg mk (ByteOrder.word32_bytes i.raw).symm

end Fields

theorem entry_eq_ofABC (variadic : Bool) (frame : UInt8) : entry variadic frame =
    ofABC (if variadic then Opcode.variadicEntry else Opcode.fixedEntry) frame 0 0 := by
  simp [entry, ofAD, ofABC]

/-! ## Restoring -/

theorem restore_ofABC (op a b c index : UInt8) : restore (ofABC op a b c).raw index =
    match Opcode.canonical? op with
    | some op => .ok (ofABC op (~~~a) (b ^^^ index) c)
    | none => .error op := by
  have heta : (⟨(ofABC op a b c).raw⟩ : Instruction) = ofABC op a b c := rfl
  simp only [restore, heta, op_ofABC]
  cases Opcode.canonical? op with
  | none => rfl
  | some op => simp

theorem obfuscate_ofABC {op n : UInt8} (h : Opcode.obfuscated? op = some n) (a b c index : UInt8) :
    (ofABC op a b c).obfuscate index = (ofABC n (~~~a) (b ^^^ index) c).raw := by
  simp [obfuscate, h]

/-- A canonical instruction is restored from the word that hides it. -/
theorem restore_obfuscate {i : Instruction} (h : i.op.toNat < Opcode.count) (index : UInt8) :
    restore (i.obfuscate index) index = .ok i := by
  obtain ⟨n, hn, hc⟩ := Opcode.exists_obfuscated h
  calc restore (i.obfuscate index) index
      = restore (ofABC n (~~~i.a) (i.b ^^^ index) i.c).raw index := by
        rw [← obfuscate_ofABC hn, ← i.eq_ofABC]
    _ = .ok (ofABC i.op i.a i.b i.c) := by
        simp only [restore_ofABC, hc, UInt8.not_not, UInt8.xor_assoc, UInt8.xor_self,
          UInt8.xor_zero]
    _ = .ok i := by rw [← i.eq_ofABC]

/-- A restored instruction is canonical. -/
theorem op_of_restore {word : UInt32} {index : UInt8} {i : Instruction}
    (h : restore word index = .ok i) : i.op.toNat < Opcode.count := by
  have hw : word = (ofABC _ _ _ _).raw := congrArg raw (eq_ofABC ⟨word⟩)
  rw [hw, restore_ofABC] at h
  split at h
  · rename_i op hop
    cases h
    rw [op_ofABC]
    exact Opcode.toNat_lt_of_canonical hop
  · cases h

end Instruction

namespace Container

theorem length_words (index : Nat) (code : List Instruction) :
    (Encode.words index code).length = code.length := by
  induction code generalizing index with
  | nil => rfl
  | cons i code ih => rw [Encode.words, List.length_cons, ih, List.length_cons]

/-- A block of hidden instructions is restored, whatever has been restored before it. -/
theorem restoreFrom_words {code : List Instruction} (h : ∀ i ∈ code, i.op.toNat < Opcode.count)
    (done : List Instruction) (index : Nat) :
    restoreFrom done index (Encode.words index code) = .ok (done.reverse ++ code) := by
  induction code generalizing done index with
  | nil => simp [Encode.words, restoreFrom]
  | cons i code ih =>
    have hi := Instruction.restore_obfuscate (h i (List.mem_cons_self ..)) (UInt8.ofNat index)
    rw [Encode.words, restoreFrom, hi]
    change restoreFrom (i :: done) (index + 1) (Encode.words (index + 1) code) = _
    rw [ih fun j hj ↦ h j (List.mem_cons_of_mem _ hj)]
    simp

/-- Restoring gives one canonical instruction for each word. -/
theorem of_restoreFrom_eq_ok {done code : List Instruction} {index : Nat} {words : List UInt32}
    (h : restoreFrom done index words = .ok code) :
    ∃ added, code = done.reverse ++ added ∧ added.length = words.length ∧
      ∀ i ∈ added, i.op.toNat < Opcode.count := by
  induction words generalizing done index with
  | nil =>
    cases h
    exact ⟨[], by simp⟩
  | cons word words ih =>
    rw [restoreFrom] at h
    split at h
    · rename_i i hi
      obtain ⟨added, rfl, hl, hop⟩ := ih h
      refine ⟨i :: added, by simp, by simp [hl], ?_⟩
      rw [List.forall_mem_cons]
      exact ⟨Instruction.op_of_restore hi, hop⟩
    · cases h

end Container

end JitDump
