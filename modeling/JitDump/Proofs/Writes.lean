import JitDump.Proofs.Stops
import JitDump.Proofs.WellFormed

/-!
# The last write wins

The bytes of a table are a script: the values of an array part, then writes, each
of a value under a key.  A decode carries them out one by one.  One write changes
what is found under its key and nothing else, and brings in its key unless it is
known or addresses the array part; so of the writes under one key the last one
is found and the first one says where the key stands.
-/

namespace JitDump

/-! ## Pairs -/

namespace Pairs

variable {κ υ : Type} [BEq κ] {k l : κ} {v : υ}

/-- After an insertion the value is found under its key, and under other keys what was there. -/
theorem find?_place [EquivBEq κ] (k l : κ) (v : υ) (items : List (κ × υ)) :
    ((place k v items).find? (·.1 == l)).map (·.2) =
      if k == l then some v else (items.find? (·.1 == l)).map (·.2) := by
  induction items with
  | nil => cases hkl : k == l <;> simp [place, hkl]
  | cons item items ih =>
    rw [place]
    by_cases hk : (item.1 == k) = true
    · -- the place of a known key is that of any other key that is the same
      rw [if_pos hk, List.find?_cons, List.find?_cons, BEq.congr_left hk]
      cases k == l <;> rfl
    · rw [if_neg hk, List.find?_cons, List.find?_cons]
      cases hl : item.1 == l with
      | true =>
        have hkl : (k == l) = false := by
          rw [← Bool.not_eq_true]
          exact fun h ↦ hk (BEq.trans hl (BEq.symm h))
        rw [hkl]
        rfl
      | false => exact ih

variable [Hashable κ] {p : Pairs κ υ}

theorem Sound.get?_eq (h : p.Sound) (k : κ) :
    p.get? k = (p.toList.find? (·.1 == k)).map (·.2) := by
  rw [get?, h k, List.find?_eq_bind_findIdx?_getElem?]
  cases p.toList.findIdx? (·.1 == k) with
  | none => rfl
  | some i => rw [Option.bind_some, toList, Array.getElem?_toList]

theorem Sound.get?_insert [EquivBEq κ] [LawfulHashable κ] (h : p.Sound) (k l : κ) (v : υ) :
    (p.insert k v).get? l = if k == l then some v else p.get? l := by
  rw [(h.insert k v).get?_eq, h.toList_insert, find?_place, h.get?_eq]

end Pairs

namespace Template

variable {t : Template} {k l : Key} {v : Value} {i n : Nat}

/-! ## One write -/

namespace Key

/-- What an array part has under a key: the integers from zero on count its values. -/
def valueIn? (array : List Value) : Key → Option Value
  | .int i => if 0 ≤ i.toInt then array[i.toInt.toNat]? else none
  | .false | .true | .num _ | .str _ => none

theorem arraySlot?_eq_some_iff :
    k.arraySlot? n = some i ↔ i < n ∧ ∃ j, k = .int j ∧ j.toInt = i := by
  cases k with
  | int j =>
    simp only [arraySlot?, int.injEq, exists_eq_left']
    cases hj : j.toInt with
    | ofNat m =>
      dsimp only
      split <;> simp <;> omega
    | negSucc m =>
      constructor
      · rintro ⟨⟩
      · rintro ⟨-, ⟨⟩⟩
  | _ => simp [arraySlot?]

/-- Keys that are the same address one slot. -/
theorem arraySlot?_eq_of_beq (h : (k == l) = Bool.true) (n : Nat) :
    k.arraySlot? n = l.arraySlot? n := by
  have ht := beq_iff.1 h
  cases k <;> cases l <;> simp_all [token, arraySlot?]

/-- A slot is addressed by one key. -/
theorem arraySlot?_inj (hk : k.arraySlot? n = some i) (hl : l.arraySlot? n = some i) : k = l := by
  obtain ⟨-, j, rfl, hj⟩ := arraySlot?_eq_some_iff.1 hk
  obtain ⟨-, j', rfl, hj'⟩ := arraySlot?_eq_some_iff.1 hl
  rw [Int32.toInt_inj.1 (hj.trans hj'.symm)]

theorem valueIn?_eq (array : List Value) (k : Key) :
    k.valueIn? array = (k.arraySlot? array.length).bind (array[·]?) := by
  cases k with
  | int j =>
    rw [valueIn?, arraySlot?]
    cases hj : j.toInt with
    | ofNat m =>
      have hm : 0 ≤ Int.ofNat m := Int.natCast_nonneg m
      rw [if_pos hm]
      dsimp only
      split
      case isTrue => rfl
      case isFalse hm => exact List.getElem?_eq_none (Nat.not_lt.1 hm)
    | negSucc m => exact if_neg (Int.not_le.2 (Int.negSucc_lt_zero m))
  | _ => rfl

theorem isNone_valueIn? (array : List Value) (k : Key) :
    (k.valueIn? array).isNone = (k.arraySlot? array.length).isNone := by
  rw [valueIn?_eq]
  cases hk : k.arraySlot? array.length with
  | none => rfl
  | some i =>
    have hlt := (arraySlot?_eq_some_iff.1 hk).1
    rw [Option.bind_some, List.getElem?_eq_getElem hlt]
    rfl

end Key

@[simp] theorem size_array_insert (t : Template) (k : Key) (v : Value) :
    (t.insert k v).array.size = t.array.size := by
  obtain ⟨array, hash⟩ := t
  rw [insert]
  split
  · exact Array.size_setIfInBounds
  · rfl

theorem sound_insert (ht : t.hash.Sound) (k : Key) (v : Value) : (t.insert k v).hash.Sound := by
  obtain ⟨array, hash⟩ := t
  rw [insert]
  split
  · exact ht
  · exact ht.insert k v

/-- A write changes what is found under its key and nothing else. -/
theorem get?_insert (ht : t.hash.Sound) (k l : Key) (v : Value) :
    (t.insert k v).get? l = if k == l then some v else t.get? l := by
  obtain ⟨array, hash⟩ := t
  rw [get?, get?, size_array_insert, insert]
  cases hk : k.arraySlot? array.size with
  | none =>
    dsimp only
    cases hl : l.arraySlot? array.size with
    | none => exact ht.get?_insert k l v
    | some j =>
      have hne : ¬ (k == l) = Bool.true := fun heq ↦ by
        rw [Key.arraySlot?_eq_of_beq heq, hl] at hk
        cases hk
      rw [if_neg hne]
  | some i =>
    dsimp only
    have hlt := (Key.arraySlot?_eq_some_iff.1 hk).1
    by_cases heq : (k == l) = Bool.true
    · rw [if_pos heq, ← Key.arraySlot?_eq_of_beq heq, hk]
      exact Array.getElem?_setIfInBounds_self_of_lt hlt
    · rw [if_neg heq]
      cases hl : l.arraySlot? array.size with
      | none => rfl
      | some j =>
        have hij : i ≠ j := by
          rintro rfl
          exact heq (Key.arraySlot?_inj hk hl ▸ BEq.rfl)
        exact Array.getElem?_setIfInBounds_ne hij

/-- A write brings in its key unless it is known or addresses the array part. -/
theorem keys_insert (ht : t.hash.Sound) (k : Key) (v : Value) :
    (t.insert k v).keys =
      if (k.arraySlot? t.array.size).isNone && !t.keys.any (· == k) then t.keys ++ [k]
      else t.keys := by
  obtain ⟨array, hash⟩ := t
  rw [keys, insert]
  cases hk : k.arraySlot? array.size with
  | some i => rfl
  | none =>
    dsimp only
    rw [ht.toList_insert, Pairs.keys_place, keys, List.any_map]
    cases hany : hash.toList.any (·.1 == k) with
    | true => simp [Function.comp_def, hany]
    | false => simp [Function.comp_def, hany]

theorem get?_array (values : List Value) (k : Key) :
    (⟨values.toArray, .empty⟩ : Template).get? k = k.valueIn? values := by
  rw [get?, Key.valueIn?_eq, List.size_toArray]
  cases k.arraySlot? values.length with
  | some i => exact List.getElem?_toArray
  | none => exact Pairs.sound_empty.get?_eq k

/-! ## One write after another -/

/-- The table after some writes. -/
def write (t : Template) (items : List (Key × Value)) : Template :=
  items.foldl (fun t item ↦ t.insert item.1 item.2) t

variable {items : List (Key × Value)}

@[simp] theorem write_nil (t : Template) : t.write [] = t := rfl

@[simp] theorem write_cons (t : Template) (item : Key × Value) (items : List (Key × Value)) :
    t.write (item :: items) = (t.insert item.1 item.2).write items := rfl

@[simp] theorem size_array_write (t : Template) (items : List (Key × Value)) :
    (t.write items).array.size = t.array.size := by
  induction items generalizing t with
  | nil => rfl
  | cons item items ih => rw [write_cons, ih, size_array_insert]

/-- Under a key there is what the last write under it put there, and if there is none, what was
there before. -/
theorem get?_write (ht : t.hash.Sound) (k : Key) (items : List (Key × Value)) :
    (t.write items).get? k =
      ((items.reverse.find? (·.1 == k)).map (·.2)).or (t.get? k) := by
  induction items generalizing t with
  | nil => rfl
  | cons item items ih =>
    rw [write_cons, ih (sound_insert ht _ _), get?_insert ht, List.reverse_cons,
      List.find?_append, List.find?_singleton]
    cases items.reverse.find? (·.1 == k) with
    | some found => rfl
    | none => cases item.1 == k <;> rfl

/-- The keys that some writes bring in, in the order of the first write under each. -/
theorem keys_write (ht : t.hash.Sound) (items : List (Key × Value)) :
    (t.write items).keys = t.keys ++ ((items.map Prod.fst).filter fun k ↦
      (k.arraySlot? t.array.size).isNone && !t.keys.any (· == k)).eraseDups := by
  induction items generalizing t with
  | nil => simp
  | cons item items ih =>
    rw [write_cons, ih (sound_insert ht _ _), size_array_insert, keys_insert ht, List.map_cons,
      List.filter_cons]
    split
    · -- a key that is new now is known to the writes behind
      rw [List.eraseDups_cons, List.filter_filter, List.append_assoc, List.singleton_append]
      congr 3
      refine List.filter_congr fun l _ ↦ ?_
      rw [List.any_append, List.any_cons, List.any_nil, BEq.comm]
      cases l.arraySlot? t.array.size <;> cases t.keys.any (· == l) <;> cases l == item.1 <;> rfl
    · rfl

end Template

/-! ## Scripts -/

/-- What the bytes of a table say. -/
structure Template.Script where
  array : List Template.Value
  writes : List (Template.Value × Template.Value)

namespace Template.Script

/-- The writes that have a key, under their keys. -/
def keyed (writes : List (Value × Value)) : List (Key × Value) :=
  writes.filterMap fun w ↦ w.1.key?.map fun k ↦ (k, w.2)

variable {writes : List (Value × Value)}

theorem map_fst_keyed (writes : List (Value × Value)) :
    (keyed writes).map Prod.fst = writes.filterMap (·.1.key?) := by
  rw [keyed, List.map_filterMap]
  congr 1
  funext w
  cases w.1.key? <;> rfl

/-- The last write under a key, among those that have a key and among all. -/
theorem find?_reverse_keyed (writes : List (Value × Value)) (k : Key) :
    ((keyed writes).reverse.find? (·.1 == k)).map (·.2) =
      (writes.reverse.find? fun w ↦ w.1.key? == some k).map (·.2) := by
  rw [keyed, ← List.filterMap_reverse]
  induction writes.reverse with
  | nil => rfl
  | cons w ws ih =>
    rw [List.filterMap_cons, List.find?_cons]
    cases hk : w.1.key? with
    | none => exact ih
    | some l =>
      rw [Option.map_some, List.find?_cons, Option.some_beq_some]
      cases l == k with
      | true => rfl
      | false => exact ih

end Template.Script

namespace Container

open Fallible Decoding
open Template (Script)

/-- A key and its value. -/
def scriptWrite : Decoding (Template.Value × Template.Value) := do
  let key ← templateValue
  return (key, ← templateValue)

/-- Reads a table without building it. -/
def script : Decoding Script := do
  let writes ← Reading.varint
  let values ← Reading.varint
  let array ← Fallible.times values.toNat templateValue
  return ⟨array, ← Fallible.times writes.toNat scriptWrite⟩

/-- An operation fails for want of a key. -/
def LacksKey {α : Type} (x : Decoding α) (s : Session) : Prop :=
  ∃ e, Fails x s e ∧ e.fault = .invalidKey

variable {s t : Session} {u : Template} {w : Template.Value × Template.Value}

/-! ### Carrying out a script -/

theorem templatePair_of_some (h : scriptWrite s = .ok w t) {k : Template.Key}
    (hk : w.1.key? = some k) : templatePair u s = .ok (u.insert k w.2) t := by
  obtain ⟨key, r, hkey, h⟩ := bind_eq_ok.1 h
  obtain ⟨value, r', hvalue, h⟩ := bind_eq_ok.1 h
  cases h
  refine bind_eq_ok.2 ⟨s.cursor.position, s, rfl, bind_eq_ok.2 ⟨key, r, hkey, ?_⟩⟩
  simp only [hk]
  exact bind_eq_ok.2 ⟨value, t, hvalue, rfl⟩

theorem templatePair_of_none (h : scriptWrite s = .ok w t) (hk : w.1.key? = none) :
    LacksKey (templatePair u) s := by
  obtain ⟨key, r, hkey, h⟩ := bind_eq_ok.1 h
  obtain ⟨value, r', hvalue, h⟩ := bind_eq_ok.1 h
  cases h
  refine ⟨⟨"", s.cursor.position, .invalidKey⟩, fails_bind_iff.2 (.inr ⟨s.cursor.position, s, rfl,
    fails_bind_iff.2 (.inr ⟨key, r, hkey, ?_⟩)⟩), rfl⟩
  simp only [hk]
  exact fails_failAt_iff.2 rfl

/-- The pairs of a table are its writes, of which one without a key stops the decode. -/
theorem templatePairs_of_timesFrom {done ws : List (Template.Value × Template.Value)} {n : Nat}
    (h : timesFrom scriptWrite done n s = .ok ws t) (u : Template) :
    ∃ writes, ws = done.reverse ++ writes ∧
      ((∀ w ∈ writes, w.1.key? ≠ none) →
        templatePairs u n s = .ok (u.write (Script.keyed writes)) t) ∧
      ((∃ w ∈ writes, w.1.key? = none) → LacksKey (templatePairs u n) s) := by
  induction n generalizing done u s with
  | zero =>
    cases h
    exact ⟨[], (List.append_nil _).symm, fun _ ↦ rfl, by simp⟩
  | succ n ih =>
    rw [timesFrom_succ] at h
    obtain ⟨w, r, hw, h⟩ := bind_eq_ok.1 h
    cases hk : w.1.key? with
    | none =>
      obtain ⟨writes, rfl, -, -⟩ := ih h u
      refine ⟨w :: writes, by simp, fun hall ↦ ?_, fun _ ↦ ?_⟩
      · exact absurd hk (hall w List.mem_cons_self)
      · obtain ⟨e, hfails, he⟩ := templatePair_of_none (u := u) hw hk
        exact ⟨e, fails_bind_iff.2 (.inl hfails), he⟩
    | some k =>
      obtain ⟨writes, rfl, hok, herror⟩ := ih h (u.insert k w.2)
      have hpair := templatePair_of_some (u := u) hw hk
      refine ⟨w :: writes, by simp, fun hall ↦ ?_, fun hnone ↦ ?_⟩
      · have hkeyed : Script.keyed (w :: writes) = (k, w.2) :: Script.keyed writes := by
          simp [Script.keyed, hk]
        rw [hkeyed, Template.write_cons]
        exact (bind_of_ok hpair).trans (hok (List.forall_mem_cons.1 hall).2)
      · rw [List.exists_mem_cons_iff, hk] at hnone
        obtain ⟨e, hfails, he⟩ := herror (hnone.resolve_left nofun)
        exact ⟨e, (fails_bind_of_ok hpair).2 hfails, he⟩

/-- A table is what its script makes of its array part, unless a write has no key. -/
theorem template_of_script {script : Script} (h : Container.script s = .ok script t) :
    ((∀ w ∈ script.writes, w.1.key? ≠ none) → template s =
      .ok (Template.write ⟨script.array.toArray, .empty⟩ (Script.keyed script.writes)) t) ∧
    ((∃ w ∈ script.writes, w.1.key? = none) → LacksKey template s) := by
  obtain ⟨writes, s₁, hwrites, h⟩ := bind_eq_ok.1 h
  obtain ⟨values, s₂, hvalues, h⟩ := bind_eq_ok.1 h
  obtain ⟨array, s₃, harray, h⟩ := bind_eq_ok.1 h
  obtain ⟨ws, s₄, hws, h⟩ := bind_eq_ok.1 h
  cases h
  obtain ⟨writes', rfl, hok, herror⟩ := templatePairs_of_timesFrom hws ⟨array.toArray, .empty⟩
  constructor
  · intro hall
    refine bind_eq_ok.2 ⟨writes, s₁, hwrites, bind_eq_ok.2 ⟨values, s₂, hvalues, ?_⟩⟩
    exact bind_eq_ok.2 ⟨array, s₃, harray, hok hall⟩
  · intro hnone
    obtain ⟨e, hfails, he⟩ := herror hnone
    refine ⟨e, (fails_bind_of_ok hwrites).2 ((fails_bind_of_ok hvalues).2 ?_), he⟩
    exact (fails_bind_of_ok harray).2 hfails

/-! ### Strings of a script -/

theorem together_scriptWrite :
    Together (fun g h a b ↦ a.1.Twin g h b.1 ∧ a.2.Twin g h b.2) scriptWrite scriptWrite s t :=
  together_templateValue.bind fun _ _ _ _ _ _ hk ↦
    together_templateValue.bind fun _ _ _ _ hg hh hv ↦ together_pure ⟨hk.mono hg hh, hv⟩

theorem together_script :
    Together (fun g h a b ↦ List.Forall₂ (fun w w' ↦ w.1.Twin g h w'.1 ∧ w.2.Twin g h w'.2)
      a.writes b.writes) script script s t := by
  refine together_read fun writes _ ↦ together_read fun values _ ↦ ?_
  refine (together_timesFrom (fun _ _ ↦ together_templateValue)
    (fun _ _ _ _ _ _ hg hh hv ↦ hv.mono hg hh) .nil _).bind fun as bs s' t' _ _ _ ↦ ?_
  refine (together_timesFrom (fun _ _ ↦ together_scriptWrite)
    (fun _ _ _ _ _ _ hg hh hw ↦ ⟨hw.1.mono hg hh, hw.2.mono hg hh⟩) .nil _).bind ?_
  exact fun ws ws' s'' t'' _ _ hw ↦ together_pure hw

/-- The heap holds the keys of a script that was read on it. -/
theorem held_of_script {script : Script} (hs : s.heap.Sound)
    (h : Container.script s = .ok script t) :
    t.heap.Sound ∧ ∀ w ∈ script.writes, w.1.HeldBy t.heap := by
  have hagree := together_script (Session.twin_self hs)
  rw [h] at hagree
  obtain ⟨hst, -, -, hwrites⟩ | _ := hagree
  exact ⟨hst.left, fun w hw ↦ (List.forall₂_same.1 hwrites w hw).1.left⟩

/-- A heap takes two of its strings for one key exactly if their bytes are equal. -/
theorem beq_str_iff {h : Heap} (hs : h.Sound) {a b : Str} (ha : h.Holds a) (hb : h.Holds b) :
    (Template.Key.str a == Template.Key.str b) = true ↔ a.bytes = b.bytes := by
  constructor
  · intro heq
    cases Template.Key.alike_of_beq (k := .str a) (l := .str b) hs ha hb heq with
    | str hbytes => exact hbytes
  · intro hbytes
    rw [hs.eq_of_bytes_eq ha hb hbytes]
    exact BEq.rfl

/-! ### What is decoded -/

/-- A table whose bytes are read to the end, on a heap that was reached by interning strings and
starting cycles. It fails for want of a key exactly if a key of its script is nil. Otherwise it is
decoded, with an array part of the length written. Under every key there is the value of the last
write under it; where there is none, an integer from zero on finds the value written for its place
in the array part, and nothing else is found. The keys of the hash part are the different keys
written that the array part has no place for, in the order in which they were written first.
Strings are one key exactly if their bytes are equal. -/
theorem last_write_wins {script : Script} (hr : s.heap.Reachable)
    (h : Container.script s = .ok script t) :
    ((∃ e, Fails template s e ∧ e.fault = .invalidKey) ↔ ∃ w ∈ script.writes, w.1 = .nil) ∧
    ((∀ w ∈ script.writes, w.1 ≠ .nil) → ∃ u, template s = .ok u t ∧
      u.array.size = script.array.length ∧
      (∀ k, u.get? k =
        ((script.writes.reverse.find? fun w ↦ w.1.key? == some k).map (·.2)).or
          (k.valueIn? script.array)) ∧
      u.hash.toList.map (·.1) = ((script.writes.filterMap (·.1.key?)).filter fun k ↦
        (k.valueIn? script.array).isNone).eraseDups) ∧
    (∀ w ∈ script.writes, w.1.HeldBy t.heap) ∧
    ∀ a b, t.heap.Holds a → t.heap.Holds b →
      ((Template.Key.str a == Template.Key.str b) = true ↔ a.bytes = b.bytes) := by
  have hnil (v : Template.Value) : v.key? = none ↔ v = .nil := by
    cases v <;> simp [Template.Value.key?]
  obtain ⟨hok, herror⟩ := template_of_script h
  obtain ⟨hsound, hheld⟩ := held_of_script hr.sound h
  have hempty : (⟨script.array.toArray, .empty⟩ : Template).hash.Sound := Pairs.sound_empty
  refine ⟨⟨?_, ?_⟩, fun hall ↦ ?_, hheld, fun a b ha hb ↦ beq_str_iff hsound ha hb⟩
  · rintro ⟨e, hfails, -⟩
    by_contra hnone
    refine not_fails_of_ok (hok fun w hw hk ↦ ?_) hfails
    exact hnone ⟨w, hw, (hnil w.1).1 hk⟩
  · rintro ⟨w, hw, hkey⟩
    exact herror ⟨w, hw, (hnil w.1).2 hkey⟩
  · refine ⟨_, hok fun w hw hk ↦ hall w hw ((hnil w.1).1 hk), ?_, fun k ↦ ?_, ?_⟩
    · rw [Template.size_array_write, List.size_toArray]
    · rw [Template.get?_write hempty, Script.find?_reverse_keyed, Template.get?_array]
    · have hkeys := Template.keys_write hempty (Script.keyed script.writes)
      rw [Script.map_fst_keyed] at hkeys
      simp only [Template.Key.isNone_valueIn?]
      simpa [Template.keys] using hkeys

/-- A table of two values, ten and twenty, and three writes: one in place of the twenty, and two
under one string. -/
def overwriting : Bytes := [3, 2, 3, 10, 3, 20, 3, 1, 2, 6, 0x94, 2, 6, 0x94, 1]

theorem last_write_wins_overwriting : ∃ u t,
    template (.start .new (.ofBytes overwriting)) = .ok u t ∧ u.array.size = 2 ∧
      (u.get? (.int 1)).any (·.same .true) = true ∧ (u.hash.toList.map (·.1)).length = 1 := by
  have hread : (match script (.start .new (.ofBytes overwriting)) with
      | .ok script _ => some (script.array.length, script.writes.all (·.1.key?.isSome),
          (((script.writes.reverse.find? fun w ↦ w.1.key? == some (.int 1)).map (·.2)).or
            (Template.Key.valueIn? script.array (.int 1))).any (·.same .true),
          ((script.writes.filterMap (·.1.key?)).filter fun k ↦
            (k.valueIn? script.array).isNone).eraseDups.length)
      | .error _ _ => none) = some (2, true, true, 1) := by
    decide +kernel
  cases hscript : script (.start .new (.ofBytes overwriting)) with
  | error e t =>
    rw [hscript] at hread
    cases hread
  | ok script t =>
    simp only [hscript, Option.some_inj, Prod.mk.injEq] at hread
    obtain ⟨hsize, hall, hfound, hkeys⟩ := hread
    have hkeyed : ∀ w ∈ script.writes, w.1 ≠ .nil := by
      intro w hw hnil
      have hk := List.all_eq_true.1 hall w hw
      rw [hnil] at hk
      cases hk
    obtain ⟨-, hok, -⟩ := last_write_wins (.ofMask _) hscript
    obtain ⟨u, hu, harray, hget, hhash⟩ := hok hkeyed
    exact ⟨u, t, hu, harray.trans hsize, hget (.int 1) ▸ hfound, hhash ▸ hkeys⟩

end Container

end JitDump
