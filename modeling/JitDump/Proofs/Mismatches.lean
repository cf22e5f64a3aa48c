import JitDump.Proofs.Causes
import JitDump.Proofs.DebugBlocks

/-!
# Which lengths are said to mismatch

A decode reports a mismatch of lengths at two kinds of places.  Behind a record
that is not as long as was announced it tells the announced length and the
consumed one, which differ.  At a debug block that is too short for its line
offsets and names it tells the announced length twice: the block is read at that
length before it is split, and how long it would have to be is never worked out.
-/

namespace JitDump

open Cursor Fallible

variable {input : Bytes} {c c' : Cursor} {i : Nat}

theorem Cursor.shortage_ne_lengthMismatch (c : Cursor) (n expected actual : Nat) :
    c.shortage n ≠ .lengthMismatch expected actual := by
  rw [shortage]
  split
  · exact Fault.noConfusion
  · split <;> exact Fault.noConfusion

/-- A block is a piece of the input from the position of the cursor on. -/
theorem Cursor.Within.block_eq {n : Nat} {block : Bytes} (h : c.Within input)
    (hb : Reading.block n c = .ok block c') :
    block.length = n ∧ (input.drop c.position).take n = block := by
  obtain ⟨hlen, ha⟩ := Reading.of_block_eq_ok hb
  refine ⟨hlen, ?_⟩
  rw [h.drop_position, ha.pending, ← hlen, List.take_left]

namespace Container

/-! ## Declared lengths -/

/-- A number that declares `n` reaches up to an offset of the input. -/
inductive LengthBefore (input : Bytes) (i : Nat) : Nat → Prop
  | mk {j : Nat} {u rest : Bytes} (hu : Varint.Whole u) (h : input.drop j = u ++ rest)
      (hi : i = j + u.length) : LengthBefore input i (Varint.value u).toNat

/-- The length of a record stands just before the record. -/
theorem lengthBefore_of_nextLength {n : Nat} (h : c.Within input)
    (hl : nextLength c = .ok (some n) c') : LengthBefore input c'.position n := by
  obtain ⟨u, hu, ha, hn, -⟩ := of_nextLength_eq_ok hl
  obtain ⟨rfl, -⟩ := announcedLength_eq_some.1 hn.symm
  exact .mk hu (h.drop_position.trans ha.pending) ha.position

/-- The input holds a record that declares a debug block of some size, from an offset on. -/
inductive DeclaresBlock (input : Bytes) (start : Nat) (size : UInt32) : Prop
  | mk {j : Nat} (hd : DeclaresDebug (input.drop start) j) (hs : NumberAt input (start + j) size)

variable {ctx : Context}

theorem of_announced_eq_some {header : DebugHeader}
    (h : announced ctx c = .ok (some header) c') : ctx.options.allowDebugInfo = true ∧
      ∃ u rest, Varint.Whole u ∧ c.pending = u ++ rest ∧ Varint.value u = header.size ∧
        header.size ≠ 0 := by
  rw [announced] at h
  split at h
  · cases h
  obtain ⟨_, _, ⟨⟩, h⟩ := bind_eq_ok.1 h
  obtain ⟨size, c₁, hv, h⟩ := bind_eq_ok.1 h
  obtain ⟨u, hu, rfl, ha⟩ := Reading.of_varint_eq_ok hv
  split at h
  · cases h
  · rename_i hz
    split at h
    · rename_i hallow
      obtain ⟨_, _, -, h⟩ := bind_eq_ok.1 h
      obtain ⟨_, _, -, h⟩ := bind_eq_ok.1 h
      cases h
      exact ⟨hallow, u, _, hu, ha.pending, rfl, hz⟩
    · obtain ⟨c₂, he⟩ := ReadingCongruence.reject_eq_error c.position c₁
      rw [he] at h
      cases h

/-- The announcement of a debug block stands behind the head of a record and three counts. -/
theorem announced_of_front {f : Front} (hf : front ctx c = .ok f c') :
    ∃ head numbers objects code c₁ c₂, head.length = 4 ∧ Varint.Whole numbers ∧
      Varint.Whole objects ∧ Varint.Whole code ∧
      c.Advances (head ++ numbers ++ objects ++ code) c₁ ∧ announced ctx c₁ = .ok f.debug? c₂ := by
  obtain ⟨_, _, hhead, hf⟩ := bind_eq_ok.1 hf
  rw [Reading.headBytes_eq] at hhead
  obtain ⟨head, _, hblock, hhead⟩ := bind_eq_ok.1 hhead
  cases hhead
  obtain ⟨hh, ha₁⟩ := Reading.of_block_eq_ok hblock
  obtain ⟨_, _, hn, hf⟩ := bind_eq_ok.1 hf
  obtain ⟨numbers, hnumbers, -, ha₂⟩ := Reading.of_varint_eq_ok hn
  obtain ⟨_, _, ho, hf⟩ := bind_eq_ok.1 hf
  obtain ⟨objects, hobjects, -, ha₃⟩ := Reading.of_varint_eq_ok ho
  obtain ⟨_, c₁, hc, hf⟩ := bind_eq_ok.1 hf
  obtain ⟨code, hcode, -, ha₄⟩ := Reading.of_varint_eq_ok hc
  obtain ⟨_, c₂, hdebug, hf⟩ := bind_eq_ok.1 hf
  obtain ⟨_, _, -, hf⟩ := bind_eq_ok.1 hf
  obtain ⟨_, _, -, hf⟩ := bind_eq_ok.1 hf
  obtain ⟨_, _, -, hf⟩ := bind_eq_ok.1 hf
  cases hf
  exact ⟨head, numbers, objects, code, c₁, c₂, hh, hnumbers, hobjects, hcode,
    ((ha₁.trans ha₂).trans ha₃).trans ha₄, hdebug⟩

/-- The size of a debug block is that which its record declares, where debug info is allowed. -/
theorem declaresBlock_of_front {f : Front} {header : DebugHeader} (h : c.Within input)
    (hf : front ctx c = .ok f c') (hd : f.debug? = some header) :
    ctx.options.allowDebugInfo = true ∧ DeclaresBlock input c.position header.size := by
  obtain ⟨head, numbers, objects, code, c₁, c₂, hh, hnumbers, hobjects, hcode, ha, hdebug⟩ :=
    announced_of_front hf
  rw [hd] at hdebug
  obtain ⟨hallow, u, rest, hu, hpend, hsize, hz⟩ := of_announced_eq_some hdebug
  have hinput : input.drop c.position = head ++ numbers ++ objects ++ code ++ (u ++ rest) := by
    rw [h.drop_position, ha.pending, hpend]
  have hnumber : input.drop (c.position + (head ++ numbers ++ objects ++ code).length) =
      u ++ rest := by
    rw [← List.drop_drop, hinput, List.drop_left]
  rw [← hsize] at hz ⊢
  refine ⟨hallow, .mk ?_ (.mk hu hnumber)⟩
  rw [hinput]
  exact .mk hh hnumbers hobjects hcode hu hz

/-! ## Mismatches -/

variable {options : Options} {heap : Heap} {source : Source} {name : String}

/-- A record, from an offset of the input of a decode on, that takes another number of bytes than
the number just before it declares. -/
inductive MisdeclaredRecord (options : Options) (heap : Heap) (source : Source) (name : String)
    (i expected actual : Nat) : Prop
  | mk {ctx : Context} {s t : Session} {r : Prototype × Nat}
      (ha : AtRecord options heap source name ctx expected s) (hr : record ctx s = .ok r t)
      (hi : s.cursor.position = i) (ht : t.cursor.position = i + actual)
      (hl : LengthBefore source.delivered i expected) (hn : expected ≠ actual)

/-- A debug block, from an offset of the input of a decode on, that has the size that its record
declares, and has no room for the line offsets of the record or, behind them, too few zero bytes to
close the names. -/
inductive UnsplitBlock (options : Options) (heap : Heap) (source : Source) (name : String)
    (i size : Nat) : Prop
  | mk {ctx : Context} {n depth : Nat} {s t : Session} {f : Front} {c c' : Cursor}
      {pool : List (Constant Prototype)} {header : DebugHeader} {block : Bytes}
      (ha : AtRecord options heap source name ctx n s) (hf : front ctx s.cursor = .ok f c)
      (ho : Objects { s with cursor := c } pool depth t) (hl : pool.length = f.objectCount.toNat)
      (hd : f.debug? = some header)
      (hread : Reading.block header.size.toNat t.cursor = .ok block c')
      (hi : t.cursor.position = i) (hsize : header.size.toNat = size)
      (hallow : options.allowDebugInfo = true)
      (hdeclares : DeclaresBlock source.delivered s.cursor.position header.size)
      (hblock : block.length = size ∧ (source.delivered.drop i).take size = block)
      (hshort : ¬ (f.codeCount.toNat * DebugBlock.lineWidth header.lineCount ≤ block.length ∧
        f.head.upvalueCount.toNat ≤
          (block.drop (f.codeCount.toNat * DebugBlock.lineWidth header.lineCount)).count 0)) :
      UnsplitBlock options heap source name i size

section Places

variable {n : Nat} {s t : Session}

theorem misdeclaredRecord_of_atRecord {r : Prototype × Nat}
    (ha : AtRecord options heap source name ctx n s) (h : s.cursor.Within source.delivered)
    (hr : record ctx s = .ok r t) (hn : t.cursor.position - s.cursor.position ≠ n) :
    MisdeclaredRecord options heap source name s.cursor.position n
      (t.cursor.position - s.cursor.position) := by
  have hl : LengthBefore source.delivered s.cursor.position n := by
    cases ha with
    | mk hp hl => exact lengthBefore_of_nextLength ((sites ..).within_of_point hp) hl
  obtain ⟨u, hadv, -⟩ := record_takes hr
  have hpos := hadv.position
  exact .mk ha hr rfl (by omega) hl hn.symm

theorem AtRecord.options_eq (ha : AtRecord options heap source name ctx n s) :
    ctx.options = options := by
  cases ha with
  | mk hp hl =>
    cases hp with
    | mk hh hs => rfl

theorem unsplitBlock_of_amid {f : Front} {header : DebugHeader} {block : Bytes}
    (ha : Amid options heap source name ctx f 0 t) (h : t.cursor.Within source.delivered)
    (hd : f.debug? = some header) (hb : Reading.block header.size.toNat t.cursor = .ok block c)
    (hp : DebugBlock.parse? ctx.flags.order header f.codeCount.toNat f.head.upvalueCount.toNat
      block = none) :
    UnsplitBlock options heap source name t.cursor.position header.size.toNat := by
  cases ha with
  | mk ha hf ho hl =>
    have hs := (sites options heap source name).within_of_atRecord ha
    obtain ⟨hallow, hdeclares⟩ := declaresBlock_of_front hs hf hd
    rw [ha.options_eq] at hallow
    refine .mk ha hf ho hl hd hb rfl rfl hallow hdeclares (h.block_eq hb) fun hsplit ↦ ?_
    have hsome := (DebugBlock.isSome_parse?_iff ctx.flags.order).2 hsplit
    rw [hp] at hsome
    cases hsome

end Places

/-- A debug block that cannot be split is told of with its length for either length. -/
theorem fails_debugInfo {order : ByteOrder} {f : Front} {header : DebugHeader} {block : Bytes}
    (hd : f.debug? = some header) (hb : Reading.block header.size.toNat c = .ok block c')
    (hshort : ¬ (f.codeCount.toNat * DebugBlock.lineWidth header.lineCount ≤ block.length ∧
      f.head.upvalueCount.toNat ≤
        (block.drop (f.codeCount.toNat * DebugBlock.lineWidth header.lineCount)).count 0)) :
    Fails (debugInfo order f) c
      (c.failure (.lengthMismatch header.size.toNat block.length)) := by
  have hp : DebugBlock.parse? order header f.codeCount.toNat f.head.upvalueCount.toNat block =
      none := by
    rw [← Option.not_isSome_iff_eq_none, DebugBlock.isSome_parse?_iff]
    exact hshort
  have hblock : Fails (debugBlock order header f.codeCount.toNat f.head.upvalueCount.toNat) c
      (c.failure (.lengthMismatch header.size.toNat block.length)) := by
    refine (fails_bind_of_ok (x := Reading.position) rfl).2 ((fails_bind_of_ok hb).2 ?_)
    rw [hp]
    exact fails_failAt_iff.2 rfl
  rw [debugInfo, hd]
  exact fails_bind_iff.2 (.inl hblock)

/-- A failure for a mismatch of lengths tells one; nothing is said of other failures. -/
def mismatchVerdict (options : Options) (heap : Heap) (source : Source) (name : String) :
    Verdict options heap source name where
  within := (sites options heap source name).within
  holds e := ∀ expected actual, e.fault = .lengthMismatch expected actual →
    MisdeclaredRecord options heap source name e.offset expected actual ∨
      UnsplitBlock options heap source name e.offset expected ∧ actual = expected
  start := (sites options heap source name).start
  advance := (sites options heap source name).advance
  short _ n expected actual h := absurd h (Cursor.shortage_ne_lengthMismatch _ n expected actual)
  badMagic := nofun
  badFlags _ _ := nofun
  unexpectedDebugInfo _ _ _ := nofun
  badOpcode _ _ _ _ := nofun
  invalidKey _ _ := nofun
  child _ _ hc he expected actual h := by
    rcases (fails_object_iff_of_child hc).1 he with ⟨-, rfl⟩ | ⟨_, _, -, -, rfl⟩
    all_goals cases h
  lengthMismatch ha h hr hn := by
    rintro _ _ ⟨⟩
    exact .inl (misdeclaredRecord_of_atRecord ha h hr hn)
  unsplit ha h hd hb hp := by
    rintro _ _ ⟨⟩
    exact .inr ⟨unsplitBlock_of_amid ha h hd hb hp, (Reading.of_block_eq_ok hb).1⟩
  trailingData _ _ _ := nofun

/-- Mismatches of lengths are reported exactly where they are.  A decode fails for a mismatch at a
record that takes another number of bytes than is declared just before it, and then tells the
declared number and the taken one; or at a debug block that has its declared size but cannot be
split, and then tells the declared size twice. -/
theorem decode_lengthMismatch_iff (options : Options) (heap : Heap) (source : Source)
    (name : String) (i expected actual : Nat) :
    (decode options heap source name).result =
        .error ⟨chunkDisplayName name, i, .lengthMismatch expected actual⟩ ↔
      MisdeclaredRecord options heap source name i expected actual ∨
        UnsplitBlock options heap source name i expected ∧ actual = expected := by
  constructor
  · intro h
    obtain ⟨⟨chunk, i', fault⟩, hv, heq⟩ := (mismatchVerdict options heap source name).of_decode h
    cases heq
    exact hv expected actual rfl
  · rintro (⟨ha, hr, rfl, ht, -, hn⟩ |
      ⟨⟨ha, hf, ho, hl, hd, hread, rfl, rfl, -, -, ⟨hlen, -⟩, hshort⟩, rfl⟩)
    · obtain rfl : actual = _ := (Nat.sub_eq_of_eq_add' ht).symm
      exact decode_eq_error_iff.2 ⟨_, .mismatch ha hr hn.symm rfl, rfl⟩
    · have ha' : Amid options heap source name _ _ 0 _ := .mk ha hf ho hl
      refine decode_eq_error_iff.2 ⟨_, .debug ha' (fails_debugInfo hd hread hshort), ?_⟩
      rw [hlen]
      rfl

/-- A container with a record of two instructions that has room for one line offset only. -/
def shortBlock : Bytes := [0x1b, 0x4c, 0x4a, 2, 0, 1, 97, 19, 0, 0, 0, 0, 0, 0, 2, 1, 0, 0,
  1, 2, 3, 4, 1, 2, 3, 4, 0, 0]

/-- Lengths that match are reported to mismatch: a block of one byte is declared, one byte is told
to be consumed, and two bytes would be needed. -/
theorem not_mismatch_of_lengths_differ :
    ¬ ∀ (options : Options) (heap : Heap) (source : Source) (name : String) (e : Failure)
      (expected actual : Nat), (decode options heap source name).result = .error e →
        e.fault = .lengthMismatch expected actual → expected ≠ actual := by
  intro hdiffer
  have h : (decode ⟨true, true⟩ .new (.ofBytes shortBlock) "a").failure? =
      some ⟨"a", 26, .lengthMismatch 1 1⟩ := by decide +kernel
  exact hdiffer _ _ _ _ _ 1 1 (Decoded.result_eq_error h) rfl rfl

end Container

end JitDump
