import Mathlib.Data.List.TakeWhile
import Mathlib.Tactic.Common
import JitDump.Container.DebugBlock
import JitDump.Proofs.Words

/-!
# Debug blocks are split where they were joined

A debug block is line offsets of one width, names with a zero byte behind each,
and what is left.  Where the offsets fit their width and no name holds a zero
byte, splitting the block gives its parts back. What a block is split into has
this form, and makes up the whole block; and a block can be split as soon as it
is long enough and has a zero byte for each name.
-/

namespace JitDump.Container.DebugBlock

variable (order : ByteOrder)

/-- The width of a line offset is one of three. -/
theorem lineWidth_cases (lineCount : UInt32) :
    lineWidth lineCount = 1 ∨ lineWidth lineCount = 2 ∨ lineWidth lineCount = 4 := by
  unfold lineWidth
  split
  · exact .inl rfl
  · split
    · exact .inr (.inl rfl)
    · exact .inr (.inr rfl)

theorem lineWidth_eq (lineCount : UInt32) : lineWidth lineCount =
    if lineCount.toNat < 256 then 1 else if lineCount.toNat < 65536 then 2 else 4 := by
  have h8 : lineCount ≤ 0xff ↔ lineCount.toNat < 256 :=
    UInt32.le_iff_toNat_le.trans Nat.lt_succ_iff.symm
  have h16 : lineCount ≤ 0xffff ↔ lineCount.toNat < 65536 :=
    UInt32.le_iff_toNat_le.trans Nat.lt_succ_iff.symm
  simp only [lineWidth, h8, h16]

variable {width : Nat} {ls : List UInt32}

theorem length_lineBytes (hw : width = 1 ∨ width = 2 ∨ width = 4) (l : UInt32) :
    (lineBytes order width l).length = width := by
  rcases hw with rfl | rfl | rfl <;> simp [lineBytes]

/-- Line offsets that fit their width are read back. -/
theorem lines_flatMap (hw : width = 1 ∨ width = 2 ∨ width = 4)
    (hl : ∀ l ∈ ls, l.toNat < 256 ^ width) :
    lines order width (ls.flatMap (lineBytes order width)) = ls := by
  rcases hw with rfl | rfl | rfl
  · have hb : ls.flatMap (lineBytes order 1) = ls.map UInt32.toUInt8 := by
      induction ls with
      | nil => rfl
      | cons l ls ih =>
        rw [List.flatMap_cons, ih fun l hm ↦ hl l (List.mem_cons_of_mem _ hm)]
        rfl
    rw [lines, hb, List.map_map]
    refine (List.map_congr_left fun l hm ↦ ?_).trans (List.map_id ls)
    rw [id, Function.comp, ← UInt32.toNat_inj, UInt8.toNat_toUInt32, UInt32.toNat_toUInt8]
    exact Nat.mod_eq_of_lt (hl l hm)
  · have hb : ls.flatMap (lineBytes order 2) = (ls.map UInt32.toUInt16).flatMap order.bytes16 := by
      rw [List.flatMap_map]
      rfl
    rw [lines, hb, order.words16_flatMap, List.map_map]
    refine (List.map_congr_left fun l hm ↦ ?_).trans (List.map_id ls)
    rw [id, Function.comp, ← UInt32.toNat_inj, UInt16.toNat_toUInt32, UInt32.toNat_toUInt16]
    exact Nat.mod_eq_of_lt (hl l hm)
  · exact order.words32_flatMap ls

/-- Names without zero bytes are told apart by the zero bytes behind them. -/
theorem names?_flatMap {names : List Bytes} (h : ∀ name ∈ names, 0 ∉ name) (rest : Bytes) :
    names? names.length (names.flatMap (· ++ [0]) ++ rest) = some (names, rest) := by
  induction names with
  | nil => rfl
  | cons name names ih =>
    have hp : ∀ b ∈ name, (b != 0) = true := by
      intro b hb
      have := h name (List.mem_cons_self ..)
      simp only [bne_iff_ne]
      rintro rfl
      exact this hb
    have happ : (name :: names).flatMap (· ++ [0]) ++ rest =
        name ++ 0 :: (names.flatMap (· ++ [0]) ++ rest) := by simp
    rw [happ, List.length_cons, names?, List.dropWhile_append_of_pos hp,
      List.takeWhile_append_of_pos hp]
    simp [ih fun n hn ↦ h n (List.mem_cons_of_mem _ hn)]

/-- What the block of some debug info can hold. -/
structure Fits (d : DebugInfo) : Prop where
  lines : ∀ l ∈ d.lines, l.toNat < 256 ^ lineWidth d.lineCount
  names : ∀ name ∈ d.upvalueNames, 0 ∉ name

/-- Splitting the block of some debug info gives it back. -/
theorem parse?_encode {d : DebugInfo} (h : Fits d) :
    parse? order ⟨d.size, d.firstLine, d.lineCount⟩ d.lines.length d.upvalueNames.length
      (encode order d) = some d := by
  have hw := lineWidth_cases d.lineCount
  have hl := length_flatMap_const (length_lineBytes order hw) d.lines
  have hb : encode order d = d.lines.flatMap (lineBytes order (lineWidth d.lineCount)) ++
      (d.upvalueNames.flatMap (· ++ [0]) ++ d.variableInfo) := by
    rw [encode, List.append_assoc]
  rw [Nat.mul_comm] at hl
  rw [parse?, hb]
  simp only [Bytes.hasAtLeast_eq, List.length_append, hl, Nat.le_add_right, decide_true, if_true,
    List.splitAt_eq]
  rw [← hl, List.take_left, List.drop_left, names?_flatMap h.names, lines_flatMap order hw h.lines]
  rfl

/-! ## What a block is split into -/

theorem length_lines (hw : width = 1 ∨ width = 2 ∨ width = 4) {n : Nat} {block : Bytes}
    (hb : block.length = n * width) : (lines order width block).length = n := by
  rcases hw with rfl | rfl | rfl
  · rw [lines, List.length_map, hb, Nat.mul_one]
  · rw [lines, List.length_map, order.length_words16]
    omega
  · rw [lines, order.length_words32]
    · omega
    all_goals decide

theorem lt_of_mem_lines (hw : width = 1 ∨ width = 2 ∨ width = 4) {block : Bytes} {l : UInt32}
    (h : l ∈ lines order width block) : l.toNat < 256 ^ width := by
  rcases hw with rfl | rfl | rfl
  · obtain ⟨b, -, rfl⟩ := List.mem_map.1 h
    exact b.toNat_lt
  · obtain ⟨w, -, rfl⟩ := List.mem_map.1 h
    exact w.toNat_lt
  · exact l.toNat_lt

/-- The line offsets that are read from a block of them make up the block. -/
theorem flatMap_lines (hw : width = 1 ∨ width = 2 ∨ width = 4) {n : Nat} {block : Bytes}
    (hb : block.length = n * width) :
    (lines order width block).flatMap (lineBytes order width) = block := by
  rcases hw with rfl | rfl | rfl
  · have hbyte : (fun b : UInt8 ↦ lineBytes order 1 b.toUInt32) = fun b ↦ [b] := by
      funext b
      rw [lineBytes, UInt8.toUInt8_toUInt32]
    rw [lines, List.flatMap_map, hbyte, List.flatMap_singleton']
  · have hword : (fun w : UInt16 ↦ lineBytes order 2 w.toUInt32) = order.bytes16 := by
      funext w
      rw [lineBytes, UInt16.toUInt16_toUInt32]
    rw [lines, List.flatMap_map, hword]
    exact order.flatMap_words16 block ⟨n, by rw [hb, Nat.mul_comm]⟩
  · exact order.flatMap_words32 block ⟨n, by rw [hb, Nat.mul_comm]⟩

/-- The byte that stops the search for the end of a name is zero. -/
theorem eq_zero_of_dropWhile {b : UInt8} {block behind : Bytes}
    (h : block.dropWhile (· != 0) = b :: behind) : b = 0 := by
  have hstop := List.head?_dropWhile_not (· != 0) block
  simpa [h] using hstop

theorem of_names?_eq_some {n : Nat} {block rest : Bytes} {names : List Bytes}
    (h : names? n block = some (names, rest)) :
    names.length = n ∧ (∀ name ∈ names, 0 ∉ name) ∧ block = names.flatMap (· ++ [0]) ++ rest := by
  induction n generalizing block names with
  | zero =>
    cases h
    exact ⟨rfl, by simp, rfl⟩
  | succ n ih =>
    rw [names?] at h
    split at h
    · cases h
    · rename_i b behind hd
      obtain ⟨⟨names', _⟩, hn, heq⟩ := Option.map_eq_some_iff.1 h
      cases heq
      obtain ⟨hl, hnul, rfl⟩ := ih hn
      have hb := eq_zero_of_dropWhile hd
      have hname : 0 ∉ block.takeWhile (· != 0) := fun hm ↦
        absurd (List.mem_takeWhile_imp hm) (by simp)
      refine ⟨by rw [List.length_cons, hl], List.forall_mem_cons.2 ⟨hname, hnul⟩, ?_⟩
      calc block = block.takeWhile (· != 0) ++ block.dropWhile (· != 0) :=
            List.takeWhile_append_dropWhile.symm
        _ = _ := by simp [hd, hb]

/-- As many names can be split off as there are zero bytes to close them. -/
theorem isSome_names?_iff {n : Nat} {block : Bytes} :
    (names? n block).isSome = true ↔ n ≤ block.count 0 := by
  induction n generalizing block with
  | zero => simp [names?]
  | succ n ih =>
    have hcount : block.count 0 = (block.dropWhile (· != 0)).count 0 := by
      have hname : (block.takeWhile (· != 0)).count 0 = 0 :=
        List.count_eq_zero.2 fun hm ↦ absurd (List.mem_takeWhile_imp hm) (by simp)
      conv_lhs => rw [← List.takeWhile_append_dropWhile (p := (· != 0)) (l := block)]
      rw [List.count_append, hname, Nat.zero_add]
    rw [names?, hcount]
    split
    · rename_i hd
      simp [hd]
    · rename_i b behind hd
      rw [hd, eq_zero_of_dropWhile hd, List.count_cons_self, Option.isSome_map, ih,
        Nat.succ_le_succ_iff]

/-- The length of a block is that of its line offsets, of its names with their zero bytes and of
what is left. -/
theorem length_encode (d : DebugInfo) : (encode order d).length =
    lineWidth d.lineCount * d.lines.length + (d.upvalueNames.map (·.length + 1)).sum +
      d.variableInfo.length := by
  have hl := length_flatMap_const (length_lineBytes order (lineWidth_cases d.lineCount)) d.lines
  simp only [encode, List.length_append, hl, List.length_flatMap, List.length_singleton]

section Parse

variable {header : DebugHeader} {n k : Nat} {block : Bytes} {d : DebugInfo}

theorem parse?_eq (h : n * lineWidth header.lineCount ≤ block.length) :
    parse? order header n k block =
      (names? k (block.drop (n * lineWidth header.lineCount))).map fun (names, rest) ↦
        ⟨header.size, header.firstLine, header.lineCount, lines order (lineWidth header.lineCount)
          (block.take (n * lineWidth header.lineCount)), names, rest⟩ := by
  simp only [parse?, Bytes.hasAtLeast_eq, h, decide_true, if_true, List.splitAt_eq]

theorem isSome_parse?_iff : (parse? order header n k block).isSome = true ↔
    n * lineWidth header.lineCount ≤ block.length ∧
      k ≤ (block.drop (n * lineWidth header.lineCount)).count 0 := by
  by_cases h : n * lineWidth header.lineCount ≤ block.length
  · rw [parse?_eq order h, Option.isSome_map, isSome_names?_iff, and_iff_right h]
  · simp [parse?, h]

/-- What a block is split into is what it is written from. -/
theorem of_parse?_eq_some (h : parse? order header n k block = some d) :
    (⟨d.size, d.firstLine, d.lineCount⟩ : DebugHeader) = header ∧ Fits d ∧ d.lines.length = n ∧
      d.upvalueNames.length = k ∧ encode order d = block := by
  have hw := lineWidth_cases header.lineCount
  have hb : n * lineWidth header.lineCount ≤ block.length :=
    ((isSome_parse?_iff order).1 (Option.isSome_of_eq_some h)).1
  rw [parse?_eq order hb] at h
  obtain ⟨⟨names, rest⟩, hn, rfl⟩ := Option.map_eq_some_iff.1 h
  obtain ⟨hk, hnul, hrest⟩ := of_names?_eq_some hn
  have hfront := List.length_take_of_le hb
  refine ⟨rfl, ⟨fun l hl ↦ lt_of_mem_lines order hw hl, hnul⟩, length_lines order hw hfront, hk, ?_⟩
  rw [encode]
  dsimp only
  rw [flatMap_lines order hw hfront, List.append_assoc, ← hrest, List.take_append_drop]

end Parse

/-- A block is split without loss or overlap. The number of lines tells the width of a line offset;
a block can be split exactly if it has room for its line offsets and, behind them, a zero byte for
each name; its parts, of which no name holds a zero byte, then make it up again; and parts that can
be written are what the written block is split into. -/
theorem parse?_lossless (header : DebugHeader) (lineEntries upvalues : ℕ) (block : Bytes) :
    (lineWidth header.lineCount = if header.lineCount.toNat < 256 then 1
      else if header.lineCount.toNat < 65536 then 2 else 4) ∧
    ((parse? order header lineEntries upvalues block).isSome = true ↔
      lineEntries * lineWidth header.lineCount ≤ block.length ∧
        upvalues ≤ (block.drop (lineEntries * lineWidth header.lineCount)).count 0) ∧
    (∀ d, parse? order header lineEntries upvalues block = some d →
      (d.size = header.size ∧ d.firstLine = header.firstLine ∧ d.lineCount = header.lineCount) ∧
        d.lines.length = lineEntries ∧ d.upvalueNames.length = upvalues ∧
        (∀ name ∈ d.upvalueNames, 0 ∉ name) ∧
        d.lines.flatMap (lineBytes order (lineWidth header.lineCount)) ++
          d.upvalueNames.flatMap (· ++ [0]) ++ d.variableInfo = block) ∧
    ∀ (lines : List UInt32) (names : List Bytes) (variableInfo : Bytes),
      (∀ l ∈ lines, l.toNat < 256 ^ lineWidth header.lineCount) → (∀ name ∈ names, 0 ∉ name) →
      parse? order header lines.length names.length
          (lines.flatMap (lineBytes order (lineWidth header.lineCount)) ++
            names.flatMap (· ++ [0]) ++ variableInfo) =
        some ⟨header.size, header.firstLine, header.lineCount, lines, names, variableInfo⟩ := by
  refine ⟨lineWidth_eq _, isSome_parse?_iff order, fun d h ↦ ?_,
    fun lines names variableInfo hl hn ↦ ?_⟩
  · obtain ⟨rfl, hfits, hlines, hnames, hblock⟩ := of_parse?_eq_some order h
    exact ⟨⟨rfl, rfl, rfl⟩, hlines, hnames, hfits.names, hblock⟩
  · exact parse?_encode order (d := ⟨header.size, header.firstLine, header.lineCount, lines, names,
      variableInfo⟩) ⟨hl, hn⟩

/-- Two wide line offsets, a name, an empty name, and variable info that holds a zero byte. -/
theorem parse?_lossless_wide :
    parse? .big ⟨10, 7, 300⟩ 2 2 [1, 2, 0, 5, 0x78, 0, 0, 9, 0, 9] =
      some ⟨10, 7, 300, [0x0102, 5], [[0x78], []], [9, 0, 9]⟩ :=
  (parse?_lossless .big ⟨10, 7, 300⟩ 2 2 []).2.2.2 [0x0102, 5] [[0x78], []] [9, 0, 9]
    (by simp [lineWidth_eq]) (by simp)

end JitDump.Container.DebugBlock
