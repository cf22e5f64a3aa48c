import Mathlib.Data.List.Forall2
import JitDump.Container.Encode
import JitDump.Proofs.DebugBlocks

/-!
# Trees that a container can hold

A decode numbers its strings afresh, so a tree is compared with what it was
before it was written up to the identity of its strings: it is `Alike`.  A tree
is `Canonical` when it is written in the one way in which a decode would return
it: every field that follows from others agrees with them, and every key of a
table is the one that its value is as an index.
-/

namespace JitDump

/-! ## Equality but for the identity of strings -/

namespace Template

/-- Values with the same content; strings are compared by their bytes. -/
inductive Value.Alike : Value → Value → Prop
  | nil : Alike .nil .nil
  | false : Alike .false .false
  | true : Alike .true .true
  | int (i : Int32) : Alike (.int i) (.int i)
  | num (d : Double) : Alike (.num d) (.num d)
  | str {s t : Str} (h : s.bytes = t.bytes) : Alike (.str s) (.str t)

theorem Value.Alike.symm {v w : Value} (h : v.Alike w) : w.Alike v := by
  cases h with
  | str h => exact .str h.symm
  | _ => constructor

theorem Value.Alike.trans {u v w : Value} (h : u.Alike v) (h' : v.Alike w) : u.Alike w := by
  cases h with
  | str h =>
    cases h' with
    | str h' => exact .str (h.trans h')
  | _ => exact h'

/-- The same values in the same places, and the same pairs in the same order. -/
structure Alike (t u : Template) : Prop where
  array : List.Forall₂ Value.Alike t.array.toList u.array.toList
  hash : List.Forall₂ (fun a b ↦ a.1.toValue.Alike b.1.toValue ∧ a.2.Alike b.2)
    t.hash.toList u.hash.toList

end Template

/-- Objects with the same content, given when children have. -/
inductive Constant.Alike {α : Type} (R : α → α → Prop) : Constant α → Constant α → Prop
  | str {s t : Str} (h : s.bytes = t.bytes) : Alike R (.str s) (.str t)
  | table {t u : Template} (h : t.Alike u) : Alike R (.table t) (.table u)
  | child {p q : α} (h : R p q) : Alike R (.child p) (.child q)
  | int64 (i : Int64) : Alike R (.int64 i) (.int64 i)
  | uint64 (n : UInt64) : Alike R (.uint64 n) (.uint64 n)
  | complex (re im : Double) : Alike R (.complex re im) (.complex re im)

/-- String objects with the same bytes. -/
def Str.SameBytes (a b : Str) : Prop := a.bytes = b.bytes

/-- Trees that agree in every field at every level, strings by their bytes and chunk names as `N`
says. -/
inductive Prototype.Alike (N : Str → Str → Prop) : Prototype → Prototype → Prop
  | mk {p q : Prototype} (flags : p.flags = q.flags) (paramCount : p.paramCount = q.paramCount)
      (frameSize : p.frameSize = q.frameSize) (upvalueCount : p.upvalueCount = q.upvalueCount)
      (instructions : p.instructions = q.instructions) (upvalues : p.upvalues = q.upvalues)
      (numbers : p.numbers = q.numbers)
      (objects : List.Forall₂ (Constant.Alike (Prototype.Alike N)) p.objects q.objects)
      (debug : p.debug = q.debug) (chunkName : N p.chunkName q.chunkName) : Prototype.Alike N p q

theorem Template.Value.Alike.refl (v : Value) : v.Alike v := by
  cases v <;> constructor
  rfl

theorem Template.Alike.refl (t : Template) : t.Alike t :=
  ⟨List.forall₂_same.2 fun v _ ↦ .refl v, List.forall₂_same.2 fun _ _ ↦ ⟨.refl _, .refl _⟩⟩

theorem Constant.Alike.refl {α : Type} {R : α → α → Prop} {o : Constant α}
    (h : ∀ p, o = .child p → R p p) : o.Alike R o := by
  cases o with
  | str s => exact .str rfl
  | table t => exact .table (.refl t)
  | child p => exact .child (h p rfl)
  | _ => constructor

theorem Prototype.Alike.refl {N : Str → Str → Prop} (hN : ∀ a, N a a) (p : Prototype) :
    p.Alike N p := by
  induction p using Prototype.induction with
  | h p ih =>
    refine ⟨rfl, rfl, rfl, rfl, rfl, rfl, rfl, List.forall₂_same.2 fun o ho ↦ .refl ?_, rfl, hN _⟩
    rintro c rfl
    exact ih c (Prototype.mem_children.2 ho)

/-! ## Canonical form -/

/-- A table as a decode builds it: no key addresses the array part, each is the key of its value,
and no two are of the same content. -/
structure Template.Canonical (t : Template) : Prop where
  key : ∀ item ∈ t.hash.toList, item.1.toValue.key? = some item.1
  slot : ∀ item ∈ t.hash.toList, item.1.arraySlot? t.array.size = none
  distinct : t.hash.toList.Pairwise fun a b ↦ ¬ a.1.toValue.Alike b.1.toValue

namespace Container

/-- Debug info that is the split of its own block, for a function of some size. -/
structure DebugBlock.Canonical (order : ByteOrder) (lineEntries upvalues : Nat) (d : DebugInfo) :
    Prop extends DebugBlock.Fits d where
  size : d.size.toNat = (DebugBlock.encode order d).length
  nonempty : d.size ≠ 0
  lineEntries : d.lines.length = lineEntries
  upvalueNames : d.upvalueNames.length = upvalues

/-- A prototype as a decode builds it from a record of a container with some flags. -/
structure Canonical (f : Flags) (p : Prototype) : Prop where
  entry : ∃ code, p.instructions = .entry p.isVariadic p.frameSize :: code
  opcodes : ∀ i ∈ p.instructions.tail, i.op.toNat < Opcode.count
  upvalueCount : p.upvalueCount.toNat = p.upvalues.length
  upvalues : p.upvalues.length ≤ 255
  tables : ∀ t, .table t ∈ p.objects → t.Canonical
  debug : ∀ d ∈ p.debug, f.isStripped = false ∧
    DebugBlock.Canonical f.order p.instructions.tail.length p.upvalues.length d

/-- A tree that a container with some flags can hold, so that a decoder with some options takes
it. -/
structure CanonicalTree (f : Flags) (options : Options) (p : Prototype) : Prop where
  accepted : f.accepted options
  prototypes : ∀ q ∈ p.postorder, Canonical f q
  debug : ∀ q ∈ p.postorder, q.debug.isSome → options.allowDebugInfo

/-- Whether each record of a tree, and the name that its container embeds, fits in the buffer of a
decoder, as all that is read at once has to. -/
structure FitsBuffer (f : Flags) (p : Prototype) : Prop where
  records : ∀ q ∈ p.postorder, (Encode.record f q).length ≤ Cursor.maxBuffer
  chunkName : f.isStripped = false → p.chunkName.bytes.length ≤ Cursor.maxBuffer

/-- Whether the length of each record of a tree, and that of the name that its container embeds, is
a word of 32 bits, as all that announces a length has to be. -/
structure Announced (f : Flags) (p : Prototype) : Prop where
  records : ∀ q ∈ p.postorder, (Encode.record f q).length < 2 ^ 32
  chunkName : f.isStripped = false → p.chunkName.bytes.length < 2 ^ 32

theorem FitsBuffer.announced {f : Flags} {p : Prototype} (h : FitsBuffer f p) : Announced f p where
  records q hq := Nat.lt_of_le_of_lt (h.records q hq) (by decide)
  chunkName hs := Nat.lt_of_le_of_lt (h.chunkName hs) (by decide)

/-- A prototype whose record a decode in some context can take. -/
structure Readable (ctx : Context) (p : Prototype) : Prop extends Canonical ctx.flags p where
  allowed : p.debug.isSome → ctx.options.allowDebugInfo
  fits : (Encode.record ctx.flags p).length ≤ Cursor.maxBuffer

theorem CanonicalTree.readable {ctx : Context} {p q : Prototype}
    (h : CanonicalTree ctx.flags ctx.options p) (hq : q ∈ p.postorder)
    (hfits : (Encode.record ctx.flags q).length ≤ Cursor.maxBuffer) : Readable ctx q :=
  ⟨h.prototypes q hq, h.debug q hq, hfits⟩

end Container

end JitDump
