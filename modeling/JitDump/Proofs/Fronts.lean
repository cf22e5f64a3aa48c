import JitDump.Proofs.Canonical
import JitDump.Proofs.Locality
import JitDump.Proofs.Obfuscation

/-!
# Reading back what stands in a record without strings

Each reading of a record takes what the writer of its part writes, to the same
value: the chained head, the counts, the announcement of debug info, the hidden
instructions, the upvalue descriptors, the numbers and the debug block.
-/

namespace JitDump

namespace Reading

variable {α : Type} {x : Reading α} {u : Bytes} {a : α}

theorem takes_timesFrom {enc : α → Bytes} {as : List α} (h : ∀ a ∈ as, Takes x (enc a) a)
    (done : List α) :
    Takes (Fallible.timesFrom x done as.length) (as.flatMap enc) (done.reverse ++ as) := by
  induction as generalizing done with
  | nil =>
    rw [List.append_nil]
    exact takes_pure done.reverse
  | cons a as ih =>
    rw [List.length_cons, Fallible.timesFrom_succ, List.flatMap_cons]
    have hi := ih (fun b hb ↦ h b (List.mem_cons_of_mem _ hb)) (a :: done)
    rw [List.reverse_cons, List.append_assoc] at hi
    exact (h a (List.mem_cons_self ..)).bind hi

/-- Repeating a reading takes what is written of each value in turn. -/
theorem takes_times {enc : α → Bytes} {as : List α} (h : ∀ a ∈ as, Takes x (enc a) a) :
    Takes (Fallible.times as.length x) (as.flatMap enc) as := takes_timesFrom h []

theorem takes_encode (v : UInt32) : Takes varint (Varint.encode v) v := by
  have h := takes_varint (Varint.whole_encodeNat v.toNat)
  rwa [← Varint.encode, Varint.value_encode] at h

/-- A count is taken, as long as it fits in a word. -/
theorem takes_encodeNat {n : Nat} (h : n < 2 ^ 32) :
    Takes varint (Varint.encodeNat n) (UInt32.ofNat n) := by
  have ht := takes_encode (UInt32.ofNat n)
  rwa [Varint.encode, UInt32.toNat_ofNat_of_lt' h] at ht

theorem takes_encodeTagged (v : UInt32) (tag : Bool) :
    Takes taggedVarint (Varint.encodeTagged v tag) (v, tag) := by
  have h := takes_taggedVarint (Varint.whole_encodeTagged v tag)
  rwa [Varint.taggedValue_encodeTagged] at h

theorem takes_word16 (order : ByteOrder) (w : UInt16) :
    Takes (word16 order) (order.bytes16 w) w := by
  obtain ⟨a, b, hb, rfl⟩ := order.exists_bytes16 w
  rw [hb, ← List.append_nil [a, b]]
  exact (takes_block [a, b]).bind (takes_pure _)

end Reading

namespace Container

open Reading

variable {f : Flags} {options : Options} {p : Prototype}

theorem takes_headBytes (h : RecordHead) : Takes headBytes h.chain h := by
  obtain ⟨b0, b1, b2, b3, hb, rfl⟩ := h.unchain_chain
  rw [hb, ← List.append_nil [b0, b1, b2, b3]]
  exact (takes_block [b0, b1, b2, b3]).bind (takes_pure _)

theorem takes_wide (w : UInt64) : Takes wide (Encode.wide w) w := by
  refine (takes_encode w.toUInt32).bind ?_
  have h := (takes_encode (w >>> 32).toUInt32).map fun high ↦ word64 w.toUInt32 high
  rw [word64_halves] at h
  exact h

theorem takes_number (n : Number) : Takes number (Encode.number n) n := by
  cases n with
  | int i =>
    rw [Encode.number, ← List.append_nil (Varint.encodeTagged _ _)]
    refine (takes_encodeTagged i.toUInt32 false).bind ?_
    have h := takes_pure (Number.int i.toUInt32.toInt32)
    rw [Int32.toInt32_toUInt32] at h
    exact h
  | float d =>
    refine (takes_encodeTagged d.bits.toUInt32 true).bind ?_
    have h := (takes_encode (d.bits >>> 32).toUInt32).map
      fun high ↦ Number.float ⟨word64 d.bits.toUInt32 high⟩
    rw [word64_halves] at h
    exact h

/-- What a record announces of its debug info is read back, unless options forbid it. -/
theorem takes_debugHeader (d : Option DebugInfo) (hs : ∀ e ∈ d, e.size ≠ 0)
    (ho : d.isSome → options.allowDebugInfo) :
    Takes (debugHeader options) (Encode.debugHeader d)
      (d.map fun e ↦ ⟨e.size, e.firstLine, e.lineCount⟩) := by
  apply takes_position
  intro i
  cases d with
  | none =>
    have h := takes_varint (u := [0]) (.last (by decide))
    rw [Encode.debugHeader, ← List.append_nil [0]]
    exact h.bind (takes_pure none)
  | some d =>
    rw [Encode.debugHeader, List.append_assoc]
    refine (takes_encode d.size).bind ?_
    rw [if_neg (hs d rfl), if_pos (ho rfl)]
    refine (takes_encode d.firstLine).bind ?_
    exact (takes_encode d.lineCount).map fun lineCount ↦
      some (DebugHeader.mk d.size d.firstLine lineCount)

theorem takes_instructions (order : ByteOrder) {code : List Instruction}
    (h : ∀ i ∈ code, i.op.toNat < Opcode.count) :
    Takes (instructions order code.length) ((Encode.words 0 code).flatMap order.bytes32) code := by
  apply takes_position
  intro i
  have hl : ((Encode.words 0 code).flatMap order.bytes32).length = 4 * code.length := by
    rw [order.length_flatMap_bytes32, length_words]
  have hb := takes_block ((Encode.words 0 code).flatMap order.bytes32)
  rw [hl] at hb
  rw [← List.append_nil (List.flatMap _ _)]
  refine hb.bind ?_
  rw [order.words32_flatMap, restoreFrom_words h]
  exact takes_pure code

/-! ## The whole front -/

/-- What a record announces of its debug block. -/
def DebugHeader.of (d : DebugInfo) : DebugHeader := ⟨d.size, d.firstLine, d.lineCount⟩

/-- What stands in the record of a prototype before its objects. -/
def Front.of (p : Prototype) : Front where
  head := ⟨p.frameSize, p.flags, p.paramCount, p.upvalueCount.toUInt8⟩
  objectCount := UInt32.ofNat p.objects.length
  codeCount := UInt32.ofNat p.instructions.tail.length
  debug? := p.debug.map DebugHeader.of
  code := p.instructions.tail
  upvalues := p.upvalues
  numbers := p.numbers

theorem length_le_flatMap {α : Type} {enc : α → Bytes} (h : ∀ a, enc a ≠ []) (as : List α) :
    as.length ≤ (as.flatMap enc).length := by
  induction as with
  | nil => exact Nat.le_refl 0
  | cons a as ih =>
    have := List.length_pos_iff.2 (h a)
    rw [List.length_cons, List.flatMap_cons, List.length_append]
    omega

theorem number_ne_nil (n : Number) : Encode.number n ≠ [] := by
  cases n with
  | int i => exact (Varint.whole_encodeTagged _ _).ne_nil
  | float d => exact List.append_ne_nil_of_left_ne_nil (Varint.whole_encodeTagged _ _).ne_nil _

theorem string_ne_nil (s : Str) : Encode.string s ≠ [] :=
  List.append_ne_nil_of_left_ne_nil (Varint.whole_encodeNat _).ne_nil _

theorem object_ne_nil (o : Constant Prototype) : Encode.object o ≠ [] := by
  cases o with
  | str s => exact string_ne_nil s
  | _ => simp [Encode.object]

variable {ctx : Context}

theorem Canonical.toNat_upvalueCount (h : Canonical f p) :
    p.upvalueCount.toUInt8.toNat = p.upvalues.length := by
  have := h.upvalues
  rw [UInt16.toNat_toUInt8, h.upvalueCount]
  omega

/-- The counts of a record that fits in a buffer fit in a word. -/
theorem Readable.counts (h : Readable ctx p) : p.numbers.length < 2 ^ 32 ∧
    p.objects.length < 2 ^ 32 ∧ p.instructions.tail.length < 2 ^ 32 := by
  have hn := length_le_flatMap number_ne_nil p.numbers
  have ho := length_le_flatMap object_ne_nil p.objects.reverse
  have hc := ctx.flags.order.length_flatMap_bytes32 (Encode.words 0 p.instructions.tail)
  have hl := h.fits
  rw [length_words] at hc
  rw [List.length_reverse] at ho
  simp only [Encode.record, Encode.front, List.length_append, Cursor.maxBuffer] at hl
  omega

theorem Readable.objectCount (h : Readable ctx p) :
    (Front.of p).objectCount.toNat = p.objects.reverse.length := by
  rw [List.length_reverse]
  exact UInt32.toNat_ofNat_of_lt' h.counts.2.1

theorem takes_announced (h : Readable ctx p) :
    Takes (announced ctx) (if ctx.flags.isStripped then [] else Encode.debugHeader p.debug)
      (p.debug.map DebugHeader.of) := by
  rw [announced]
  by_cases hs : ctx.flags.isStripped
  · have hd : p.debug = none := by
      apply Option.eq_none_iff_forall_not_mem.2
      intro d hd
      exact absurd (h.debug d hd).1 (by simp [hs])
    rw [if_pos hs, if_pos hs, hd]
    exact takes_pure none
  · rw [if_neg hs, if_neg hs]
    exact takes_debugHeader p.debug (fun d hd ↦ (h.debug d hd).2.nonempty) h.allowed

/-- The front of a record is read back. -/
theorem takes_front (h : Readable ctx p) :
    Takes (front ctx) (Encode.front ctx.flags p) (.of p) := by
  obtain ⟨hn, hobj, hc⟩ := h.counts
  have hcode := takes_instructions ctx.flags.order h.opcodes
  have hup := takes_times fun w (_ : w ∈ p.upvalues) ↦ takes_word16 ctx.flags.order w
  have hnum := takes_times fun n (_ : n ∈ p.numbers) ↦ takes_number n
  rw [← UInt32.toNat_ofNat_of_lt' hc] at hcode
  rw [← h.toNat_upvalueCount] at hup
  rw [← UInt32.toNat_ofNat_of_lt' hn] at hnum
  simp only [Encode.front, List.append_assoc]
  refine (takes_headBytes _).bind ?_
  refine (takes_encodeNat hn).bind ?_
  refine (takes_encodeNat hobj).bind ?_
  refine (takes_encodeNat hc).bind ?_
  refine (takes_announced h).bind ?_
  refine hcode.bind ?_
  refine hup.bind ?_
  exact hnum.map fun numbers ↦ { Front.of p with numbers }

/-- The debug block that a front announces is read back. -/
theorem takes_debugInfo (h : Readable ctx p) :
    Takes (debugInfo ctx.flags.order (.of p))
      ((p.debug.map (DebugBlock.encode ctx.flags.order)).getD []) p.debug := by
  obtain ⟨-, -, hc⟩ := h.counts
  cases hd : p.debug with
  | none =>
    rw [debugInfo, Front.of, hd]
    exact takes_pure none
  | some d =>
    obtain ⟨-, hcan⟩ := h.debug d hd
    have hb := takes_block (DebugBlock.encode ctx.flags.order d)
    have hp := DebugBlock.parse?_encode ctx.flags.order hcan.toFits
    rw [← hcan.size] at hb
    rw [hcan.lineEntries, hcan.upvalueNames, ← UInt32.toNat_ofNat_of_lt' hc,
      ← h.toNat_upvalueCount] at hp
    rw [debugInfo, Front.of, hd]
    refine Takes.map (takes_position fun i ↦ ?_) some
    change Takes _ (DebugBlock.encode ctx.flags.order d) d
    rw [← List.append_nil (DebugBlock.encode ctx.flags.order d)]
    refine hb.bind ?_
    simp only [DebugHeader.of, hp]
    exact takes_pure d

end Container

end JitDump
