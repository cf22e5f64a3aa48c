import Mathlib.Data.Set.Function
import JitDump.Proofs.Causes

/-!
# Instructions are restored without loss

The words of a block and the instructions behind them determine each other.  A
word whose opcode number is in the table is the one that hides the instruction it
is restored to, so hiding undoes restoring as restoring undoes hiding: word by
word, and block by block since a word is its four bytes.  Reading a block returns
all of its instructions, or it fails at the first opcode number that the table
does not hold.
-/

namespace JitDump

/-- The numbering of opcodes is read backwards in one way. -/
theorem Opcode.obfuscated?_of_canonical {n op : UInt8} (h : canonical? n = some op) :
    obfuscated? op = some n := by
  have hall : ∀ k < count, (canonical? (UInt8.ofNat k)).bind obfuscated? =
      some (UInt8.ofNat k) := by
    decide
  obtain ⟨hn, -⟩ := List.getElem?_eq_some_iff.1 h
  have hbind := hall n.toNat hn
  rw [UInt8.ofNat_toNat, h] at hbind
  exact hbind

namespace Instruction

variable {word : UInt32} {i : Instruction}

theorem exists_restore (h : (op ⟨word⟩).toNat < Opcode.count) (index : UInt8) :
    ∃ i, restore word index = .ok i := by
  rw [restore]
  split
  · exact ⟨_, rfl⟩
  · rename_i hn
    exact absurd h (Nat.not_lt.2 (List.getElem?_eq_none_iff.1 hn))

theorem restore_eq_error (h : Opcode.count ≤ (op ⟨word⟩).toNat) (index : UInt8) :
    restore word index = .error (op ⟨word⟩) := by
  have hn : Opcode.canonical? (op ⟨word⟩) = none := List.getElem?_eq_none_iff.2 h
  simp only [restore, hn]

/-- A word hides the instruction that it is restored to. -/
theorem obfuscate_of_restore {index : UInt8} (h : restore word index = .ok i) :
    i.obfuscate index = word := by
  have hw : word = (ofABC _ _ _ _).raw := congrArg raw (eq_ofABC ⟨word⟩)
  rw [hw, restore_ofABC] at h
  split at h
  · rename_i op hop
    cases h
    rw [obfuscate_ofABC (Opcode.obfuscated?_of_canonical hop), UInt8.not_not, UInt8.xor_assoc,
      UInt8.xor_self, UInt8.xor_zero, ← hw]
  · cases h

/-- A word hides an instruction at an index of a record: it has the number of the opcode, the
complement of A, B keyed by the low byte of the index, and C as it is. -/
structure Hides (word i : Instruction) (index : ℕ) : Prop where
  op : Opcode.obfuscated? i.op = some word.op
  a : word.a = ~~~i.a
  b : word.b = i.b ^^^ UInt8.ofNat (index % 256)
  c : word.c = i.c

theorem hides_obfuscate (h : i.op.toNat < Opcode.count) (index : ℕ) :
    Hides ⟨i.obfuscate (UInt8.ofNat index)⟩ i index := by
  obtain ⟨n, hn, -⟩ := Opcode.exists_obfuscated h
  have hkey : UInt8.ofNat (index % 256) = UInt8.ofNat index := by
    rw [← UInt8.toNat_inj, UInt8.toNat_ofNat', UInt8.toNat_ofNat', Nat.mod_mod]
  have hword : i.obfuscate (UInt8.ofNat index) =
      (ofABC n (~~~i.a) (i.b ^^^ UInt8.ofNat index) i.c).raw := by
    rw [← obfuscate_ofABC hn, ← i.eq_ofABC]
  rw [hword]
  exact ⟨by rw [hn, op_ofABC], a_ofABC .., by rw [b_ofABC, hkey], c_ofABC ..⟩

theorem Hides.toNat_op_lt {word : Instruction} {index : ℕ} (h : Hides word i index) :
    word.op.toNat < Opcode.count := by
  obtain ⟨k, hk, hop⟩ := Option.map_eq_some_iff.1 h.op
  have hlt : k < Opcode.table.length := by
    rw [List.idxOf?, List.findIdx?_eq_some_iff_getElem] at hk
    exact hk.1
  rw [← hop, UInt8.toNat_ofNat', ← Opcode.table_length]
  exact (Nat.mod_le _ _).trans_lt hlt

end Instruction

namespace Container

open Instruction

/-! ## Words -/

section Words

variable {words front : List UInt32} {word : UInt32}

/-- Words with numbers of the table are restored, and they hide what they are restored to. -/
theorem restoreFrom_eq_ok (h : ∀ w ∈ words, (op ⟨w⟩).toNat < Opcode.count)
    (done : List Instruction) (index : ℕ) :
    ∃ code, restoreFrom done index words = .ok (done.reverse ++ code) ∧
      Encode.words index code = words := by
  induction words generalizing done index with
  | nil => exact ⟨[], by simp [restoreFrom, Encode.words]⟩
  | cons word words ih =>
    rw [List.forall_mem_cons] at h
    obtain ⟨i, hi⟩ := exists_restore h.1 (UInt8.ofNat index)
    obtain ⟨code, hcode, hwords⟩ := ih h.2 (i :: done) (index + 1)
    refine ⟨i :: code, ?_, ?_⟩
    · rw [restoreFrom, hi]
      simpa using hcode
    · rw [Encode.words, obfuscate_of_restore hi, hwords]

/-- The first number that the table does not hold is the one that is reported. -/
theorem restoreFrom_eq_error (h : ∀ w ∈ front, (op ⟨w⟩).toNat < Opcode.count)
    (hw : Opcode.count ≤ (op ⟨word⟩).toNat) (later : List UInt32) (done : List Instruction)
    (index : ℕ) : restoreFrom done index (front ++ word :: later) =
      .error (index + front.length, op ⟨word⟩) := by
  induction front generalizing done index with
  | nil =>
    rw [List.nil_append, restoreFrom, restore_eq_error hw]
    rfl
  | cons w front ih =>
    rw [List.forall_mem_cons] at h
    obtain ⟨i, hi⟩ := exists_restore h.1 (UInt8.ofNat index)
    rw [List.cons_append, restoreFrom, hi]
    refine (ih h.2 (i :: done) (index + 1)).trans ?_
    rw [List.length_cons, Nat.add_assoc, Nat.add_comm 1]

theorem getElem?_words (code : List Instruction) (index k : ℕ) :
    (Encode.words index code)[k]? =
      code[k]?.map fun i ↦ i.obfuscate (UInt8.ofNat (index + k)) := by
  induction code generalizing index k with
  | nil => rfl
  | cons i code ih =>
    cases k with
    | zero => rfl
    | succ k =>
      rw [Encode.words, List.getElem?_cons_succ, List.getElem?_cons_succ, ih, Nat.add_assoc,
        Nat.add_comm 1]

end Words

/-! ## Blocks -/

/-- The opcode number of a word in a block: the first byte of its four, or the last if words are
big-endian. -/
def opcodeByte (order : ByteOrder) (block : Bytes) (i : ℕ) : UInt8 :=
  block.getD (4 * i + if order = .big then 3 else 0) 0

/-- The blocks of `n` words with opcode numbers of the table. -/
def restorable (order : ByteOrder) (n : ℕ) : Set Bytes :=
  {block | block.length = 4 * n ∧ ∀ i < n, (opcodeByte order block i).toNat < Opcode.count}

/-- The lists of `n` instructions with canonical opcodes. -/
def canonicalCode (n : ℕ) : Set (List Instruction) :=
  {code | code.length = n ∧ ∀ i ∈ code, i.op.toNat < Opcode.count}

/-- The instructions behind the words of a block, or none if one of its words is refused. -/
def restored (order : ByteOrder) (block : Bytes) : List Instruction :=
  (restoreFrom [] 0 (order.words32 block)).toOption.getD []

/-- The block that hides some instructions. -/
def hidden (order : ByteOrder) (code : List Instruction) : Bytes :=
  (Encode.words 0 code).flatMap order.bytes32

variable {order : ByteOrder} {block : Bytes} {code : List Instruction} {n i : ℕ}

theorem op_of_getElem?_words32 {word : UInt32} (h : (order.words32 block)[i]? = some word) :
    op ⟨word⟩ = opcodeByte order block i := by
  obtain ⟨b₀, b₁, b₂, b₃, rest, hdrop, rfl⟩ := order.of_getElem?_words32 block i h
  have hbyte (k : ℕ) : block.getD (4 * i + k) 0 = (b₀ :: b₁ :: b₂ :: b₃ :: rest).getD k 0 := by
    rw [← hdrop, List.getD_eq_getElem?_getD, List.getD_eq_getElem?_getD, List.getElem?_drop]
  rw [op_word32, opcodeByte]
  split
  · rw [hbyte]
    rfl
  · rw [hbyte]
    rfl

theorem length_words32_of_length (hb : block.length = 4 * n) :
    (order.words32 block).length = n := by
  rw [order.length_words32, hb, Nat.mul_div_cancel_left _ (by decide)]

/-- The words of a block have opcode numbers of the table up to an index if its bytes do. -/
theorem op_lt_of_mem_take (h : ∀ j < i, (opcodeByte order block j).toNat < Opcode.count) :
    ∀ w ∈ (order.words32 block).take i, (op ⟨w⟩).toNat < Opcode.count := by
  intro w hw
  obtain ⟨j, hj⟩ := List.mem_iff_getElem?.1 hw
  have hlt : j < i := by
    by_contra hle
    rw [List.getElem?_take_eq_none (Nat.not_lt.1 hle)] at hj
    cases hj
  rw [List.getElem?_take_of_lt hlt] at hj
  rw [op_of_getElem?_words32 hj]
  exact h j hlt

theorem restoreFrom_of_restorable (h : block ∈ restorable order n) :
    restoreFrom [] 0 (order.words32 block) = .ok (restored order block) ∧
      hidden order (restored order block) = block := by
  obtain ⟨hlen, hop⟩ := h
  have hwords := op_lt_of_mem_take hop
  rw [List.take_of_length_le (length_words32_of_length hlen).le] at hwords
  obtain ⟨code, hcode, hw⟩ := restoreFrom_eq_ok hwords [] 0
  have hr : restored order block = code := by
    rw [restored, hcode]
    rfl
  rw [hr]
  refine ⟨hcode, ?_⟩
  rw [hidden, hw, order.flatMap_words32 block ⟨n, hlen⟩]

theorem restoreFrom_of_not_restorable (hlen : block.length = 4 * n) (hi : i < n)
    (h : ∀ j < i, (opcodeByte order block j).toNat < Opcode.count)
    (hop : Opcode.count ≤ (opcodeByte order block i).toNat) :
    restoreFrom [] 0 (order.words32 block) = .error (i, opcodeByte order block i) := by
  have hlt : i < (order.words32 block).length := by rwa [length_words32_of_length hlen]
  have hword := op_of_getElem?_words32 (List.getElem?_eq_getElem hlt)
  rw [← hword] at hop ⊢
  have herror := restoreFrom_eq_error (op_lt_of_mem_take h) hop
    ((order.words32 block).drop (i + 1)) [] 0
  rwa [← List.drop_eq_getElem_cons hlt, List.take_append_drop, List.length_take_of_le hlt.le,
    Nat.zero_add] at herror

theorem restored_hidden (h : code ∈ canonicalCode n) :
    restored order (hidden order code) = code := by
  rw [restored, hidden, order.words32_flatMap, restoreFrom_words h.2]
  rfl

theorem restored_mem (h : block ∈ restorable order n) :
    restored order block ∈ canonicalCode n := by
  obtain ⟨added, hadded, hlen, hop⟩ := of_restoreFrom_eq_ok (restoreFrom_of_restorable h).1
  rw [hadded]
  exact ⟨hlen.trans (length_words32_of_length h.1), hop⟩

theorem hides_of_getElem? (order : ByteOrder) (h : code ∈ canonicalCode n) {k : ℕ} {i : Instruction}
    (hk : code[k]? = some i) :
    ∃ w, (order.words32 (hidden order code))[k]? = some w ∧ Hides ⟨w⟩ i k := by
  refine ⟨i.obfuscate (UInt8.ofNat k), ?_, hides_obfuscate (h.2 i (List.mem_of_getElem? hk)) k⟩
  rw [hidden, order.words32_flatMap, getElem?_words, hk, Nat.zero_add]
  rfl

theorem hidden_mem (h : code ∈ canonicalCode n) : hidden order code ∈ restorable order n := by
  have hlen : (hidden order code).length = 4 * n := by
    rw [hidden, order.length_flatMap_bytes32, length_words, h.1]
  refine ⟨hlen, fun k hk ↦ ?_⟩
  obtain ⟨w, hw, hides⟩ := hides_of_getElem? order h
    (List.getElem?_eq_getElem (h.1.symm ▸ hk))
  rw [← op_of_getElem?_words32 hw]
  exact hides.toNat_op_lt

/-! ## Reading -/

variable {c c' : Cursor}

/-- What reading instructions comes to is what restoring the block comes to, if it can be had. -/
theorem instructions_of_block_eq_ok (h : Reading.block (4 * n) c = .ok block c') :
    instructions order n c = match restoreFrom [] 0 (order.words32 block) with
      | .ok code => .ok code c'
      | .error (i, op) => .error ⟨"", c.position + 4 * i, .badOpcode op⟩ c' := by
  refine (Fallible.bind_of_ok rfl).trans ((Fallible.bind_of_ok h).trans ?_)
  cases restoreFrom [] 0 (order.words32 block) <;> rfl

theorem instructions_of_block_eq_error {e : Failure} (h : Reading.block (4 * n) c = .error e c') :
    instructions order n c = .error e c' :=
  (Fallible.bind_of_ok rfl).trans (Fallible.bind_of_error h)

/-- A cursor hands out a block that is in its buffer, however long it is. -/
theorem block_of_buffer {rest : Bytes} (hlen : block.length = 4 * n)
    (h : c.buffer = block ++ rest) : ∃ c', Reading.block (4 * n) c = .ok block c' := by
  have hle : 4 * n ≤ c.buffer.length := by
    rw [h, List.length_append]
    omega
  have htake : c.buffer.take (4 * n) = block := by rw [h, ← hlen, List.take_left]
  exact ⟨_, by simp only [Reading.block, Reading.need, Cursor.holds_eq, hle, decide_true, if_true,
    List.splitAt_eq, htake]; rfl⟩

/-- A cursor hands out a block that comes next, unless it is too long to be asked for. -/
theorem block_of_pending {rest : Bytes} (hlen : block.length = 4 * n)
    (h : c.pending = block ++ rest) (hn : 4 * n ≤ Cursor.maxBuffer) :
    ∃ c', Reading.block (4 * n) c = .ok block c' := by
  have hle : 4 * n ≤ c.pending.length := by
    rw [h, List.length_append]
    omega
  obtain ⟨c', hb, -⟩ := Reading.block_eq_ok hn hle
  rw [h, ← hlen, List.take_left] at hb
  exact ⟨c', hlen ▸ hb⟩

/-- A block of words either can be restored or has a first word that is refused. -/
theorem exists_first_refused (hlen : block.length = 4 * n) (h : block ∉ restorable order n) :
    ∃ i < n, (∀ j < i, (opcodeByte order block j).toNat < Opcode.count) ∧
      Opcode.count ≤ (opcodeByte order block i).toNat := by
  have hex : ∃ i, i < n ∧ Opcode.count ≤ (opcodeByte order block i).toNat := by
    by_contra hnone
    push Not at hnone
    exact h ⟨hlen, hnone⟩
  obtain ⟨hi, hop⟩ := Nat.find_spec hex
  refine ⟨Nat.find hex, hi, fun j hj ↦ ?_, hop⟩
  by_contra hrefused
  exact Nat.find_min hex hj ⟨hj.trans hi, Nat.not_lt.1 hrefused⟩

/-- Reading instructions either fails at the first word that is refused or returns all of them. -/
theorem instructions_cases (h : Reading.block (4 * n) c = .ok block c') :
    (∃ i < n, (∀ j < i, (opcodeByte order block j).toNat < Opcode.count) ∧
      Opcode.count ≤ (opcodeByte order block i).toNat ∧
      instructions order n c =
        .error ⟨"", c.position + 4 * i, .badOpcode (opcodeByte order block i)⟩ c') ∨
    (block ∈ restorable order n ∧ instructions order n c = .ok (restored order block) c') := by
  have hlen := (Reading.of_block_eq_ok h).1
  rw [instructions_of_block_eq_ok h]
  by_cases hb : block ∈ restorable order n
  · exact .inr ⟨hb, by rw [(restoreFrom_of_restorable hb).1]⟩
  · obtain ⟨i, hi, hfirst, hop⟩ := exists_first_refused hlen hb
    exact .inl ⟨i, hi, hfirst, hop, by rw [restoreFrom_of_not_restorable hlen hi hfirst hop]⟩

/-- What a reading of instructions consumes is what hides the instructions that it returns. -/
theorem advances_of_instructions_eq_ok (h : instructions order n c = .ok code c') :
    c.Advances (hidden order code) c' := by
  cases hb : Reading.block (4 * n) c with
  | error e c₁ =>
    rw [instructions_of_block_eq_error hb] at h
    cases h
  | ok block c₁ =>
    rcases instructions_cases hb with ⟨i, -, -, -, herror⟩ | ⟨hr, hok⟩
    · rw [herror] at h
      cases h
    · rw [hok] at h
      cases h
      rw [(restoreFrom_of_restorable hr).2]
      exact (Reading.of_block_eq_ok hb).2

/-- Blocks of instructions are restored bijectively, at any length and in both byte orders. Where a
cursor hands out a block of `n` words, reading `n` instructions fails at the first opcode number
that is not in the table or returns what is restored; a block that comes next is handed out if it
is in the buffer or short enough to be asked for, and where none is handed out, reading instructions
fails as reading the block does. Restoring takes the blocks of `n` words with numbers of the table
to the lists of `n` canonical instructions one to one, and its inverse hides each instruction at its
index; so what a reading consumes is told by what it returns. -/
theorem instructions_restored_bijectively (order : ByteOrder) (n : ℕ) :
    (∀ c block c', Reading.block (4 * n) c = .ok block c' →
      (∃ i < n, (∀ j < i, (opcodeByte order block j).toNat < Opcode.count) ∧
        Opcode.count ≤ (opcodeByte order block i).toNat ∧
        instructions order n c =
          .error ⟨"", c.position + 4 * i, .badOpcode (opcodeByte order block i)⟩ c') ∨
      (block ∈ restorable order n ∧ instructions order n c = .ok (restored order block) c')) ∧
    (∀ (c : Cursor) (block rest : Bytes), block.length = 4 * n →
      c.buffer = block ++ rest ∨ (c.pending = block ++ rest ∧ 4 * n ≤ Cursor.maxBuffer) →
      ∃ c', Reading.block (4 * n) c = .ok block c') ∧
    (∀ c e c', Reading.block (4 * n) c = .error e c' → instructions order n c = .error e c') ∧
    Set.BijOn (restored order) (restorable order n) (canonicalCode n) ∧
    Set.InvOn (hidden order) (restored order) (restorable order n) (canonicalCode n) ∧
    (∀ code ∈ canonicalCode n, ∀ k i, code[k]? = some i →
      ∃ w, (order.words32 (hidden order code))[k]? = some w ∧ Hides ⟨w⟩ i k) ∧
    ∀ c code c', instructions order n c = .ok code c' → c.Advances (hidden order code) c' := by
  have hinv : Set.InvOn (hidden order) (restored order) (restorable order n) (canonicalCode n) :=
    ⟨fun _ hb ↦ (restoreFrom_of_restorable hb).2, fun _ hc ↦ restored_hidden hc⟩
  refine ⟨fun _ _ _ ↦ instructions_cases, ?_, fun _ _ _ ↦ instructions_of_block_eq_error,
    hinv.bijOn (fun _ ↦ restored_mem) (fun _ ↦ hidden_mem), hinv,
    fun _ hc _ _ ↦ hides_of_getElem? order hc, fun _ _ _ ↦ advances_of_instructions_eq_ok⟩
  rintro c block rest hlen (h | ⟨h, hn⟩)
  · exact block_of_buffer hlen h
  · exact block_of_pending hlen h hn

/-- Three hundred times the same instruction, more than the indices that a byte tells apart: its
words differ, and reading them gives it back three hundred times. -/
theorem instructions_restored_bijectively_wrapped :
    ∃ c', instructions .big 300
      (.ofSource (.ofBytes (hidden .big (List.replicate 300 (ofABC 75 1 2 3))))) =
        .ok (List.replicate 300 (ofABC 75 1 2 3)) c' := by
  have hcode : List.replicate 300 (ofABC 75 1 2 3) ∈ canonicalCode 300 := by
    refine ⟨List.length_replicate, fun i hi ↦ ?_⟩
    rw [List.eq_of_mem_replicate hi, op_ofABC]
    decide
  generalize List.replicate 300 (ofABC 75 1 2 3) = code at hcode
  obtain ⟨hcases, hnext, -, hbij, hinv, -⟩ := instructions_restored_bijectively .big 300
  have hmem : hidden .big code ∈ restorable .big 300 := by
    obtain ⟨block, hblock, rfl⟩ := hbij.surjOn hcode
    rwa [hinv.1 hblock]
  obtain ⟨c', hb⟩ := hnext (.ofSource (.ofBytes (hidden .big code))) (hidden .big code) [] hmem.1
    (.inr ⟨by simp, by decide⟩)
  rcases hcases _ _ _ hb with ⟨i, hi, -, hop, -⟩ | ⟨-, hok⟩
  · exact absurd (hmem.2 i hi) (Nat.not_lt.2 hop)
  · rw [hinv.2 hcode] at hok
    exact ⟨c', hok⟩

end Container

end JitDump
