import JitDump.Proofs.Doubles
import JitDump.Proofs.Listings
import JitDump.Proofs.Obfuscation
import JitDump.Proofs.Templates
import JitDump.Proofs.Texts
import JitDump.Prototype.Strings

/-!
# Listings lose nothing

Every part of a tree can be told from its document: numbers from their
numerals, strings from their text as long as their bytes are those of a text,
and an object from the tag in front of it.  A document on one line can be read
off its text, so trees listed in the same bytes agree in every field.
-/

namespace JitDump

/-! ## Strings, numbers and flat records -/

theorem Str.sameBytes_of_toJson_eq {a b : Str} (ha : Utf8.Valid a.bytes) (hb : Utf8.Valid b.bytes)
    (h : a.toJson = b.toJson) : a.SameBytes b := Utf8.lossy_inj ha hb (Json.string.inj h)

theorem Bytes.toJson_injective : Function.Injective Bytes.toJson := by
  intro s s' h
  refine List.map_injective_iff.2 ?_ (Json.array.inj h)
  exact fun b b' hb ↦ UInt8.toNat_inj.1 (Json.nat_inj.1 hb)

theorem Instruction.toJson_injective : Function.Injective Instruction.toJson := by
  intro i j h
  simp only [toJson, Json.object.injEq, List.cons.injEq, Prod.mk.injEq, Json.nat_inj,
    UInt8.toNat_inj, true_and] at h
  rw [i.eq_ofABC, j.eq_ofABC, h.1, h.2.1, h.2.2.1, h.2.2.2.1]

theorem Number.toJson_injective : Function.Injective Number.toJson := by
  rintro (i | d) (j | e) h
  all_goals simp only [toJson, Json.tagged_inj] at h
  · rw [Int32.toInt_inj.1 (Json.int_inj.1 h.2)]
  · simp at h
  · simp at h
  · rw [Double.toJson_injective h.2]

theorem DebugInfo.toJson_injective : Function.Injective DebugInfo.toJson := by
  rintro ⟨⟩ ⟨⟩ h
  simp only [toJson, Json.object.injEq, List.cons.injEq, Prod.mk.injEq, Json.nat_inj,
    UInt32.toNat_inj, true_and, Json.array.injEq, and_true] at h
  obtain ⟨hsize, hfirst, hcount, hlines, hnames, hvars⟩ := h
  have hlines' := List.map_injective_iff.2
    (fun l l' hl ↦ UInt32.toNat_inj.1 (Json.nat_inj.1 hl)) hlines
  have hnames' := List.map_injective_iff.2 Bytes.toJson_injective hnames
  rw [hsize, hfirst, hcount, hlines', hnames', Bytes.toJson_injective hvars]

@[simp] theorem Str.plain_toJson (a : Str) : a.toJson.Plain := Json.plain_string _

@[simp] theorem Bytes.plain_toJson (s : Bytes) : (Bytes.toJson s).Plain := by
  simp [Bytes.toJson]

@[simp] theorem Instruction.plain_toJson (i : Instruction) : i.toJson.Plain := by
  simp [toJson]

@[simp] theorem Number.plain_toJson (n : Number) : n.toJson.Plain := by
  cases n <;> simp [toJson]

@[simp] theorem DebugInfo.plain_toJson (d : DebugInfo) : d.toJson.Plain := by
  simp [toJson]

/-! ## Tables -/

namespace Template

variable {t u : Template}

theorem Value.alike_of_toJson_eq {v w : Value} (hv : ∀ a ∈ v.strings, Utf8.Valid a.bytes)
    (hw : ∀ a ∈ w.strings, Utf8.Valid a.bytes) (h : v.toJson = w.toJson) : v.Alike w := by
  cases v <;> cases w <;> simp [toJson, Json.tagged] at h
  case nil.nil => exact .nil
  case false.false => exact .false
  case true.true => exact .true
  case int.int i j => exact Int32.toInt_inj.1 h ▸ .int i
  case num.num d e => exact Double.toJson_injective h ▸ .num d
  case str.str a b =>
    exact .str (Str.sameBytes_of_toJson_eq (hv a List.mem_cons_self) (hw b List.mem_cons_self) h)

theorem alike_of_toJson_eq (ht : ∀ a ∈ t.strings, Utf8.Valid a.bytes)
    (hu : ∀ a ∈ u.strings, Utf8.Valid a.bytes) (h : t.toJson = u.toJson) : t.Alike u := by
  simp only [toJson, Json.object.injEq, List.cons.injEq, Prod.mk.injEq, Json.array.injEq,
    true_and, and_true] at h
  simp only [strings, List.mem_append, List.mem_flatMap] at ht hu
  refine ⟨forall₂_of_map_eq_map h.1 ?_, forall₂_of_map_eq_map h.2 ?_⟩
  · intro v hv w hw
    exact Value.alike_of_toJson_eq (fun a ha ↦ ht a (.inl ⟨v, hv, ha⟩))
      (fun a ha ↦ hu a (.inl ⟨w, hw, ha⟩))
  · intro x hx y hy hxy
    simp only [Json.array.injEq, List.cons.injEq, and_true] at hxy
    rw [← Key.toJson_toValue, ← Key.toJson_toValue] at hxy
    have hx' : ∀ a ∈ pairStrings x, Utf8.Valid a.bytes := fun a ha ↦ ht a (.inr ⟨x, hx, ha⟩)
    have hy' : ∀ a ∈ pairStrings y, Utf8.Valid a.bytes := fun a ha ↦ hu a (.inr ⟨y, hy, ha⟩)
    rw [pairStrings, List.forall_mem_append] at hx' hy'
    exact ⟨Value.alike_of_toJson_eq hx'.1 hy'.1 hxy.1, Value.alike_of_toJson_eq hx'.2 hy'.2 hxy.2⟩

@[simp] theorem Value.plain_toJson (v : Value) : v.toJson.Plain := by
  cases v <;> simp [toJson]

@[simp] theorem plain_toJson (t : Template) : t.toJson.Plain := by
  simp only [toJson, Json.plain_object, List.forall_mem_cons, Json.plain_array, List.forall_mem_map,
    ← Key.toJson_toValue, Value.plain_toJson, List.not_mem_nil]
  simp

end Template

/-! ## Trees -/

theorem Constant.alike_of_toJson_eq {R : Prototype → Prototype → Prop} {o o' : Constant Prototype}
    (ho : ∀ a ∈ o.allStrings, Utf8.Valid a.bytes) (ho' : ∀ a ∈ o'.allStrings, Utf8.Valid a.bytes)
    (hc : ∀ p q, o = .child p → o' = .child q → p.toJson = q.toJson → R p q)
    (h : o.toJson = o'.toJson) : o.Alike R o' := by
  cases o <;> cases o' <;> simp [toJson, Json.tagged] at h
  case str.str a b =>
    exact .str (Str.sameBytes_of_toJson_eq (ho a List.mem_cons_self) (ho' b List.mem_cons_self) h)
  case table.table t u => exact .table (Template.alike_of_toJson_eq ho ho' h)
  case child.child p q => exact .child (hc p q rfl rfl h)
  case int64.int64 i j => exact Int64.toInt_inj.1 h ▸ .int64 i
  case uint64.uint64 n m => exact UInt64.toNat_inj.1 h ▸ .uint64 n
  case complex.complex re im re' im' =>
    exact Double.toJson_injective h.1 ▸ Double.toJson_injective h.2 ▸ .complex re im

namespace Prototype

variable {p q : Prototype}

/-- Debug info is shown as an object, and its absence as none. -/
theorem debug_inj {d e : Option DebugInfo}
    (h : (d.map DebugInfo.toJson).getD .null = (e.map DebugInfo.toJson).getD .null) : d = e := by
  cases d <;> cases e <;>
    simp only [Option.map_none, Option.map_some, Option.getD_none, Option.getD_some] at h
  · rfl
  · cases h
  · cases h
  · rw [DebugInfo.toJson_injective h]

theorem alike_of_toJson_eq (hp : ∀ a ∈ p.allStrings, Utf8.Valid a.bytes)
    (hq : ∀ a ∈ q.allStrings, Utf8.Valid a.bytes) (h : p.toJson = q.toJson) :
    p.Alike Str.SameBytes q := by
  induction p using Prototype.induction generalizing q with
  | h p ih =>
    simp only [mem_allStrings] at hp hq
    have hobjects : p.objects.map Constant.toJson = q.objects.map Constant.toJson →
        List.Forall₂ (Constant.Alike (Alike Str.SameBytes)) p.objects q.objects := by
      refine fun hmap ↦ forall₂_of_map_eq_map hmap fun o ho o' ho' ↦ ?_
      have hvalid : ∀ a ∈ o.allStrings, Utf8.Valid a.bytes := fun a ha ↦ hp a (.inr ⟨o, ho, ha⟩)
      have hvalid' : ∀ a ∈ o'.allStrings, Utf8.Valid a.bytes := fun a ha ↦
        hq a (.inr ⟨o', ho', ha⟩)
      refine Constant.alike_of_toJson_eq hvalid hvalid' ?_
      rintro c c' rfl rfl
      exact ih c (mem_children.2 ho) hvalid hvalid'
    have hname := hp _ (.inl rfl)
    have hname' := hq _ (.inl rfl)
    clear hp hq ih
    obtain ⟨⟩ := p
    obtain ⟨⟩ := q
    simp only [toJson, Json.object.injEq, List.cons.injEq, Prod.mk.injEq, Json.nat_inj,
      UInt8.toNat_inj, UInt16.toNat_inj, Json.array.injEq, objectsToJson_eq, List.reverse_nil,
      List.nil_append, true_and, and_true] at h
    obtain ⟨hflags, hparams, hframe, hcount, hcode, hup, hnum, hobj, hdebug, hchunk⟩ := h
    refine ⟨hflags, hparams, hframe, hcount, ?_, ?_, ?_, hobjects hobj, debug_inj hdebug,
      Str.sameBytes_of_toJson_eq hname hname' hchunk⟩
    · exact List.map_injective_iff.2 Instruction.toJson_injective hcode
    · exact List.map_injective_iff.2 (fun u u' hu ↦ UInt16.toNat_inj.1 (Json.nat_inj.1 hu)) hup
    · exact List.map_injective_iff.2 Number.toJson_injective hnum

theorem plain_toJson (p : Prototype) : p.toJson.Plain := by
  induction p using Prototype.induction with
  | h p ih =>
    have hobjects : ∀ o ∈ p.objects, o.toJson.Plain := by
      intro o ho
      cases o with
      | child q =>
        rw [Constant.toJson, Json.plain_tagged]
        exact ih q (mem_children.2 ho)
      | _ => simp [Constant.toJson]
    obtain ⟨flags, params, frame, count, code, upvalues, numbers, objects, debug, name⟩ := p
    have hdebug : ((debug.map DebugInfo.toJson).getD .null).Plain := by
      cases debug with
      | none => rw [Option.map_none, Option.getD_none, Json.Plain]; trivial
      | some d => exact d.plain_toJson
    simpa [toJson, objectsToJson_eq, hdebug] using hobjects

/-- The listing on one line shows everything: trees whose strings are texts and whose listings are
the same bytes agree in every field at every level. -/
theorem alike_of_listing_eq (hp : ∀ a ∈ p.allStrings, Utf8.Valid a.bytes)
    (hq : ∀ a ∈ q.allStrings, Utf8.Valid a.bytes)
    (h : Utf8.encode (Listing.text false p) = Utf8.encode (Listing.text false q)) :
    p.Alike Str.SameBytes q := by
  rw [Utf8.encode_inj, Listing.text, Listing.text, String.append_left_inj] at h
  exact alike_of_toJson_eq hp hq (Json.render_compact_inj p.plain_toJson q.plain_toJson h)

/-- A table with an array part and one pair, whose key is the object behind the first `n`. -/
def dictionary (n : ℕ) : Template :=
  ⟨#[.nil, .num .canonicalNaN], Pairs.empty.insert (.str ⟨n + 1, 0, Utf8.encode "k\""⟩) .true⟩

theorem toList_dictionary (n : ℕ) :
    (dictionary n).hash.toList = [(.str ⟨n + 1, 0, Utf8.encode "k\""⟩, .true)] :=
  Pairs.sound_empty.toList_insert _ _

/-- A function with a child, a table, doubles that only their bits tell apart, and the text that
one of them is listed as.  Its strings are the objects behind the first `n` of a heap. -/
def sampler (n : ℕ) : Prototype where
  flags := childFlag
  paramCount := 0
  frameSize := 2
  upvalueCount := 0
  instructions := [.zero]
  upvalues := []
  numbers := [.int 0, .float ⟨0⟩, .float ⟨0x8000000000000000⟩, .float ⟨0x7ff0000000000001⟩]
  objects := [.str ⟨n + 2, 0, Utf8.encode "nan:0x7ff0000000000001"⟩, .table (dictionary n),
    .child ⟨0, 0, 1, 0, [.zero], [], [], [.complex ⟨0⟩ ⟨0xfff0000000000000⟩], none, .empty⟩]
  debug := some ⟨3, 1, 0, [], [[0xff]], [0]⟩
  chunkName := ⟨n + 3, 0, Utf8.encode "@main"⟩

theorem valid_sampler (n : ℕ) : ∀ a ∈ (sampler n).allStrings, Utf8.Valid a.bytes := by
  have hempty : Utf8.encode "" = Str.empty.bytes := Utf8.encode_eq ""
  have hdictionary : (dictionary n).strings = [⟨n + 1, 0, Utf8.encode "k\""⟩] := by
    rw [Template.strings, toList_dictionary]
    rfl
  simp [mem_allStrings, sampler, Constant.allStrings, hdictionary, Utf8.Valid, ← hempty]

theorem toJson_sampler (n m : ℕ) : (sampler n).toJson = (sampler m).toJson := by
  have hdictionary : (dictionary n).toJson = (dictionary m).toJson := by
    rw [Template.toJson, Template.toJson, toList_dictionary, toList_dictionary]
    rfl
  simp only [sampler, toJson, objectsToJson, Constant.toJson, hdictionary]
  rfl

/-- Trees of two heaps with one listing. -/
theorem alike_of_listing_eq_renumbered :
    Utf8.encode (Listing.text false (sampler 0)) = Utf8.encode (Listing.text false (sampler 4)) ∧
      (sampler 0).Alike Str.SameBytes (sampler 4) := by
  have h : Utf8.encode (Listing.text false (sampler 0)) =
      Utf8.encode (Listing.text false (sampler 4)) := by
    rw [Listing.text, Listing.text, Listing.document, Listing.document, toJson_sampler 0 4]
  exact ⟨h, alike_of_listing_eq (valid_sampler 0) (valid_sampler 4) h⟩

end Prototype

end JitDump
