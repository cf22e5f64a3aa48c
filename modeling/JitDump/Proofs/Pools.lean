import JitDump.Proofs.Fronts
import JitDump.Proofs.Interning
import JitDump.Proofs.Templates
import JitDump.Proofs.WireOrder

/-!
# Reading back the pools of a record

Objects and the values of tables hold strings, and a string that is read back is
another object with the same bytes.  So from here on a value that is written is
read back as one that is alike, in a heap that holds its strings.  That suffices
to build tables again: the number of a held string decides its bytes, hence keys
that were distinct before they were written are distinct in the heap.
-/

namespace JitDump

open Cursor

/-! ## What a decode yields -/

namespace Decoding

open Container

variable {α β γ : Type} {x : Decoding α} {f : α → Decoding β} {a : α} {u v : Bytes}
variable {s : Session} {P P' : α → Session → Prop} {Q : β → Session → Prop}

/-- From `s`, if its heap is sound, `x` consumes the bytes `u`, which have to come next, and comes
to a value and a session with a larger heap, as `P` says. -/
def Yields (x : Decoding α) (s : Session) (u : Bytes) (P : α → Session → Prop) : Prop :=
  s.heap.Sound → u.length ≤ maxBuffer → ∀ rest, s.cursor.pending = u ++ rest →
    ∃ a t, x s = .ok a t ∧ s.cursor.Advances u t.cursor ∧ s.heap.Extends t.heap ∧ P a t

theorem Yields.of_fits (h : u.length ≤ maxBuffer → Yields x s u P) : Yields x s u P :=
  fun hs hl ↦ h hl hs hl

theorem Yields.mono (h : Yields x s u P) (hP : ∀ a t, x s = .ok a t → P a t → P' a t) :
    Yields x s u P' := by
  intro hs hl rest hp
  obtain ⟨a, t, hx, ha, he, hPa⟩ := h hs hl rest hp
  exact ⟨a, t, hx, ha, he, hP a t hx hPa⟩

theorem yields_pure (h : P a s) : Yields (pure a) s [] P :=
  fun hs _ _ _ ↦ ⟨a, s, rfl, .refl _, .refl hs, h⟩

theorem Yields.bind (h : Yields x s u P)
    (h' : ∀ a t, s.heap.Extends t.heap → P a t → Yields (f a) t v Q) :
    Yields (x >>= f) s (u ++ v) Q := by
  intro hs hl rest hp
  rw [List.length_append] at hl
  rw [List.append_assoc] at hp
  obtain ⟨a, t, hx, ha, he, hPa⟩ := h hs (by omega) (v ++ rest) hp
  obtain ⟨b, r, hf, ha', he', hQ⟩ := h' a t he hPa he.sound (by omega) rest
    (ha.pending_of_append hp)
  exact ⟨b, r, Fallible.bind_eq_ok.2 ⟨a, t, hx, hf⟩, ha.trans ha', he.trans he', hQ⟩

/-- A value is handed on without another byte. -/
theorem Yields.map (h : Yields x s u P) {g : α → β}
    (hQ : ∀ a t, s.heap.Extends t.heap → P a t → Q (g a) t) :
    Yields (x >>= fun a ↦ pure (g a)) s u Q := by
  rw [← List.append_nil u]
  exact h.bind fun a t he hPa ↦ yields_pure (hQ a t he hPa)

/-- What a reading takes, it takes in a decode too, and nothing but the cursor moves. -/
theorem yields_ofReading {y : Reading γ} {c : γ} (hy : y.Takes u c) :
    Yields (ofReading y) s u fun a t ↦ a = c ∧ ∃ cursor, t = { s with cursor } := by
  intro hs hl rest hp
  obtain ⟨cursor, hy', ha⟩ := hy s.cursor rest hp hl
  exact ⟨c, _, ofReading_eq_ok hy', ha, .refl hs, rfl, cursor, rfl⟩

theorem Yields.read {y : Reading γ} {g : γ → Decoding β} {c : γ} (hy : y.Takes u c)
    (h : ∀ cursor, Yields (g c) { s with cursor } v Q) :
    Yields (ofReading y >>= g) s (u ++ v) Q := by
  refine (yields_ofReading hy).bind ?_
  rintro _ _ - ⟨rfl, cursor, rfl⟩
  exact h cursor

theorem Yields.read_pure {y : Reading γ} {g : γ → β} {c : γ} (hy : y.Takes u c)
    (h : ∀ cursor, Q (g c) { s with cursor }) :
    Yields (ofReading y >>= fun c ↦ pure (g c)) s u Q := by
  rw [← List.append_nil u]
  exact Yields.read hy fun cursor ↦ yields_pure (h cursor)

theorem yields_position {g : Nat → Decoding β} (h : ∀ i, Yields (g i) s u Q) :
    Yields (ofReading Reading.position >>= g) s u Q := h s.cursor.position

theorem yields_note {e : Event} {g : Unit → Decoding β}
    (h : Yields (g ()) { s with events := e :: s.events } u Q) : Yields (note e >>= g) s u Q := h

theorem yields_intern (text : Bytes) :
    Yields (intern text) s [] fun a t ↦ a.bytes = text ∧ t.heap.Holds a := by
  intro hs _ _ _
  obtain ⟨hb, hh, he⟩ := hs.intern text
  exact ⟨_, { s with heap := (s.heap.intern text).2 }, rfl, .refl _, he, hb, hh⟩

theorem yields_pop? {top : Prototype × Nat} {stack : List (Prototype × Nat)}
    (h : s.stack = top :: stack) :
    Yields pop? s [] fun a t ↦ a = some top ∧ t.stack = stack := by
  intro hs _ _ _
  refine ⟨some top, { s with stack }, ?_, .refl _, .refl hs, rfl, rfl⟩
  rw [pop?_eq, h, List.head?_cons, List.tail_cons]

/-- Repeating an operation yields something like each value that is written. -/
theorem yields_timesFrom {enc : β → Bytes} {R : β → α → Prop} {bs : List β}
    (h : ∀ b ∈ bs, ∀ s, Yields x s (enc b) fun a _ ↦ R b a) (done : List α) (s : Session) :
    Yields (Fallible.timesFrom x done bs.length) s (bs.flatMap enc) fun as _ ↦
      ∃ as', as = done.reverse ++ as' ∧ List.Forall₂ R bs as' := by
  induction bs generalizing done s with
  | nil => exact yields_pure ⟨[], (List.append_nil _).symm, .nil⟩
  | cons b bs ih =>
    rw [List.length_cons, Fallible.timesFrom_succ, List.flatMap_cons]
    apply (h b (List.mem_cons_self ..) s).bind
    intro a t _ hR
    refine (ih (fun b' hb' ↦ h b' (List.mem_cons_of_mem _ hb')) (a :: done) t).mono ?_
    rintro as r - ⟨as', rfl, hall⟩
    exact ⟨a :: as', by simp, .cons hR hall⟩

theorem yields_times {enc : β → Bytes} {R : β → α → Prop} {bs : List β}
    (h : ∀ b ∈ bs, ∀ s, Yields x s (enc b) fun a _ ↦ R b a) (s : Session) :
    Yields (Fallible.times bs.length x) s (bs.flatMap enc) fun as _ ↦ List.Forall₂ R bs as := by
  refine (yields_timesFrom h [] s).mono ?_
  rintro as r - ⟨as', rfl, hall⟩
  exact hall

end Decoding

/-! ## Keys and values of tables -/

namespace Template

variable {h h' : Heap} {k l : Key} {v w : Value}

/-- The heap holds the string that a value is, if it is one. -/
def Value.HeldBy (h : Heap) : Value → Prop
  | .str s => h.Holds s
  | .nil | .false | .true | .int _ | .num _ => True

theorem Value.HeldBy.mono (hv : v.HeldBy h) (he : h.Extends h') : v.HeldBy h' := by
  cases v with
  | str s => exact he.holds s hv
  | _ => trivial

/-- What is read back of a key is the key of its value again. -/
theorem Value.Alike.exists_key (ha : k.toValue.Alike w) (hk : k.toValue.key? = some k) :
    ∃ l, w.key? = some l ∧ l.toValue = w := by
  cases k with
  | str s =>
    cases ha with
    | str h => exact ⟨.str _, rfl, rfl⟩
  | _ => cases ha; exact ⟨_, hk, rfl⟩

/-- Slots do not depend on strings. -/
theorem Key.arraySlot?_eq (ha : k.toValue.Alike l.toValue) (n : Nat) :
    l.arraySlot? n = k.arraySlot? n := by
  cases k <;> cases l <;> cases ha <;> rfl

/-- Keys that a heap takes for the same are alike. -/
theorem Key.alike_of_beq (hs : h.Sound) (hk : k.toValue.HeldBy h) (hl : l.toValue.HeldBy h)
    (he : (k == l) = Bool.true) : k.toValue.Alike l.toValue := by
  have ht := beq_iff.1 he
  cases k <;> cases l <;> simp only [token, reduceCtorEq, int.injEq, num.injEq, str.injEq,
    Str.mk.injEq] at ht
  case false.false => exact .false
  case true.true => exact .true
  case int.int i j => exact ht ▸ .int i
  case num.num d e => exact ht ▸ .num d
  case str.str s t =>
    obtain rfl := hs.eq_of_id_eq hk hl ht.1
    exact .str rfl

/-- A table that has been built from an array part and some pairs, in a heap that holds its keys. -/
structure Built (h : Heap) (array : List Value) (items : List (Key × Value)) (t : Template) :
    Prop where
  array : List.Forall₂ Value.Alike array t.array.toList
  hash : List.Forall₂ (fun a b ↦ a.1.toValue.Alike b.1.toValue ∧ a.2.Alike b.2) items t.hash.toList
  sound : t.hash.Sound
  held : ∀ item ∈ t.hash.toList, item.1.toValue.HeldBy h

namespace Built

variable {array : List Value} {items : List (Key × Value)} {t : Template} {x y : Value}

theorem size_eq (ht : Built h array items t) : t.array.size = array.length := by
  rw [← Array.length_toList, ht.array.length_eq]

theorem mono (ht : Built h array items t) (he : h.Extends h') : Built h' array items t where
  array := ht.array
  hash := ht.hash
  sound := ht.sound
  held item hi := (ht.held item hi).mono he

theorem of_array {values : List Value} (ha : List.Forall₂ Value.Alike array values) :
    Built h array [] ⟨values.toArray, .empty⟩ where
  array := ha
  hash := .nil
  sound := Pairs.sound_empty
  held := by simp

/-- A pair that is new in the original table is new in the table that is built. -/
theorem insert (hs : h.Sound) (ht : Built h array items t) (hl : l.toValue.HeldBy h)
    (hk : k.toValue.Alike l.toValue) (hx : x.Alike y) (hslot : k.arraySlot? array.length = none)
    (hnew : ∀ item ∈ items, ¬ item.1.toValue.Alike k.toValue) :
    Built h array (items ++ [(k, x)]) (t.insert l y) := by
  have hfresh : ∀ item ∈ t.hash.toList, (item.1 == l) = Bool.false := by
    intro item hi
    rw [← Bool.not_eq_true]
    intro heq
    obtain ⟨i, hi', rfl⟩ := List.getElem_of_mem hi
    have hlt : i < items.length := by rwa [ht.hash.length_eq]
    have ha := (ht.hash.get hlt hi').1
    have hal := Key.alike_of_beq hs (ht.held _ hi) hl heq
    exact hnew _ (List.getElem_mem hlt) ((ha.trans hal).trans hk.symm)
  have hins : t.insert l y = ⟨t.array, t.hash.insert l y⟩ := by
    obtain ⟨values, pairs⟩ := t
    have hnone : l.arraySlot? values.size = none := by
      rw [Key.arraySlot?_eq hk, ht.size_eq, hslot]
    simp only [Template.insert, hnone]
  have hlist := (ht.sound.toList_insert l y).trans (Pairs.place_of_new hfresh)
  rw [hins]
  refine ⟨ht.array, ?_, ht.sound.insert l y, ?_⟩
  · rw [hlist]
    exact List.rel_append ht.hash (.cons ⟨hk, hx⟩ .nil)
  · intro item hi
    rw [hlist] at hi
    rcases List.mem_append.1 hi with hi | hi
    · exact ht.held item hi
    · obtain rfl := List.mem_singleton.1 hi
      exact hl

end Built

end Template

namespace Container

open Decoding

/-! ## Strings -/

section Strings

variable {α : Type} {s : Session} {P : α → Session → Prop}

theorem yields_maskedString (str : Str) (s : Session) :
    Yields (maskedString str.bytes.length) s str.bytes.unmask fun a t ↦
      a.bytes = str.bytes ∧ t.heap.Holds a := by
  have hb := Reading.takes_block str.bytes.unmask
  have hi := fun t ↦ yields_intern (s := t) str.bytes.unmask.unmask
  rw [Bytes.length_unmask] at hb
  rw [Bytes.unmask_unmask] at hi
  rw [← List.append_nil (Bytes.unmask _)]
  apply Yields.read hb
  intro cursor
  rw [Bytes.unmask_unmask]
  exact hi _

theorem takes_kind {b : UInt8} (hb : Varint.continues b = false) :
    Reading.varint.Takes [b] (Varint.value [b]) := Reading.takes_varint (.last hb)

/-- A string behind its length, where no other kind has a number from five on. -/
theorem yields_string {f : UInt32 → Decoding α} {g : Str → α} (str : Str)
    (hf : ∀ kind : UInt32, 5 ≤ kind.toNat → f kind = maskedString (kind.toNat - 5) >>= fun a ↦
      pure (g a))
    (hP : ∀ a t, a.bytes = str.bytes → t.heap.Holds a → P (g a) t) :
    Yields (ofReading Reading.varint >>= f) s (Encode.string str) P := by
  apply Yields.of_fits
  intro hl
  rw [Encode.string, List.length_append, Bytes.length_unmask, maxBuffer] at hl
  have hlt : 5 + str.bytes.length < 2 ^ 32 := by omega
  have hkind := UInt32.toNat_ofNat_of_lt' hlt
  apply Yields.read (Reading.takes_encodeNat hlt)
  intro cursor
  rw [hf _ (by rw [hkind]; omega), hkind, Nat.add_sub_cancel_left]
  exact (yields_maskedString str _).map fun a t _ ha ↦ hP a t ha.1 ha.2

end Strings

/-! ## Tables -/

section Tables

variable {s : Session} {v : Template.Value} {t : Template}

theorem yields_templateValue (v : Template.Value) (s : Session) :
    Yields templateValue s (Encode.templateValue v) fun w t ↦ v.Alike w ∧ w.HeldBy t.heap := by
  cases v with
  | nil =>
    exact Yields.read (v := []) (takes_kind (b := 0) rfl) fun cursor ↦
      yields_pure (a := Template.Value.nil) ⟨.nil, trivial⟩
  | «false» =>
    exact Yields.read (v := []) (takes_kind (b := 1) rfl) fun cursor ↦
      yields_pure (a := Template.Value.false) ⟨.false, trivial⟩
  | «true» =>
    exact Yields.read (v := []) (takes_kind (b := 2) rfl) fun cursor ↦
      yields_pure (a := Template.Value.true) ⟨.true, trivial⟩
  | int i =>
    apply Yields.read (u := [3]) (takes_kind (b := 3) rfl)
    intro cursor
    apply Yields.read_pure (Reading.takes_encode i.toUInt32)
    intro cursor
    rw [Int32.toInt32_toUInt32]
    exact ⟨.int i, trivial⟩
  | num d =>
    apply Yields.read (u := [4]) (takes_kind (b := 4) rfl)
    intro cursor
    exact Yields.read_pure (takes_wide d.bits) fun cursor ↦ ⟨.num d, trivial⟩
  | str str =>
    refine yields_string str (fun kind hk ↦ ?_) fun a t hb hh ↦ ⟨.str hb.symm, hh⟩
    split
    all_goals first
      | rfl
      | exact absurd hk (by decide)

variable {array : List Template.Value} {items : List (Template.Key × Template.Value)}

/-- A pair whose key is new is added to a table. -/
theorem yields_templatePair {item : Template.Key × Template.Value}
    (ht : t.Built s.heap array items) (hk : item.1.toValue.key? = some item.1)
    (hslot : item.1.arraySlot? array.length = none)
    (hnew : ∀ item' ∈ items, ¬ item'.1.toValue.Alike item.1.toValue) :
    Yields (templatePair t) s (Encode.templatePair item) fun t' r ↦
      t'.Built r.heap array (items ++ [item]) := by
  apply yields_position
  intro start
  refine (yields_templateValue item.1.toValue s).bind ?_
  rintro w r he ⟨hw, hheld⟩
  obtain ⟨l, hl, rfl⟩ := hw.exists_key hk
  simp only [hl]
  refine (yields_templateValue item.2 r).map ?_
  rintro y r' he' ⟨hy, -⟩
  exact (ht.mono (he.trans he')).insert he'.sound (hheld.mono he') hw hy hslot hnew

/-- The pairs of a canonical table are added to what has been built of it, one by one. -/
theorem yields_templatePairs {rest : List (Template.Key × Template.Value)}
    (hk : ∀ item ∈ rest, item.1.toValue.key? = some item.1)
    (hslot : ∀ item ∈ rest, item.1.arraySlot? array.length = none)
    (hd : (items ++ rest).Pairwise fun a b ↦ ¬ a.1.toValue.Alike b.1.toValue)
    (ht : t.Built s.heap array items) :
    Yields (templatePairs t rest.length) s (rest.flatMap Encode.templatePair) fun t' r ↦
      t'.Built r.heap array (items ++ rest) := by
  induction rest generalizing items t s with
  | nil =>
    rw [List.append_nil]
    exact yields_pure ht
  | cons item rest ih =>
    have happ : items ++ item :: rest = (items ++ [item]) ++ rest := by simp
    have hnew : ∀ item' ∈ items, ¬ item'.1.toValue.Alike item.1.toValue := fun item' hi ↦
      (List.pairwise_append.1 hd).2.2 item' hi item (List.mem_cons_self ..)
    rw [happ] at hd
    rw [List.flatMap_cons, happ]
    refine (yields_templatePair ht (hk item (List.mem_cons_self ..))
      (hslot item (List.mem_cons_self ..)) hnew).bind fun t' r _ ht' ↦ ?_
    exact ih (fun i hi ↦ hk i (List.mem_cons_of_mem _ hi))
      (fun i hi ↦ hslot i (List.mem_cons_of_mem _ hi)) hd ht'

theorem templateValue_ne_nil (v : Template.Value) : Encode.templateValue v ≠ [] := by
  cases v with
  | str str => exact string_ne_nil str
  | _ => simp [Encode.templateValue]

theorem templatePair_ne_nil (item : Template.Key × Template.Value) :
    Encode.templatePair item ≠ [] :=
  List.append_ne_nil_of_left_ne_nil (templateValue_ne_nil _) _

/-- A canonical table is read back. -/
theorem yields_template (ht : t.Canonical) (s : Session) :
    Yields template s (Encode.template t) fun t' _ ↦ t.Alike t' := by
  apply Yields.of_fits
  intro hl
  have ha := length_le_flatMap templateValue_ne_nil t.array.toList
  have hh := length_le_flatMap templatePair_ne_nil t.hash.toList
  simp only [Encode.template, List.length_append, maxBuffer] at hl
  have hpairs : t.hash.size < 2 ^ 32 := by
    change t.hash.toList.length < _
    omega
  have hvalues : t.array.size < 2 ^ 32 := by
    rw [← Array.length_toList]
    omega
  simp only [Encode.template, List.append_assoc]
  apply Yields.read (Reading.takes_encodeNat hpairs)
  intro _
  apply Yields.read (Reading.takes_encodeNat hvalues)
  intro _
  rw [UInt32.toNat_ofNat_of_lt' hpairs, UInt32.toNat_ofNat_of_lt' hvalues]
  refine (yields_times (fun v _ s ↦ (yields_templateValue v s).mono fun _ _ _ h ↦ h.1) _).bind
    fun values r _ hv ↦ ?_
  refine (yields_templatePairs ht.key ?_ ht.distinct (.of_array hv)).mono fun t' r' _ hb ↦
    ⟨hb.array, hb.hash⟩
  rw [Array.length_toList]
  exact ht.slot

end Tables

/-! ## Objects -/

section Objects

variable {R : Prototype → Prototype → Prop} {N : Str → Str → Prop} {s t : Session}
variable {o : Constant Prototype} {p : Prototype}

/-- An object that is no child is read back, and the stack is not looked at. -/
theorem yields_other (R : Prototype → Prototype → Prop) (ho : o.child? = none)
    (ht : ∀ t, o = .table t → t.Canonical) (s : Session) :
    Yields object s (Encode.object o) fun r _ ↦ Constant.Alike R o r.1 := by
  apply yields_position
  intro start
  cases o with
  | child p => cases ho
  | table t =>
    apply Yields.read (u := [1]) (takes_kind (b := 1) rfl)
    intro cursor
    exact (yields_template (ht t rfl) _).map fun t' _ _ ha ↦ .table ha
  | int64 i =>
    apply Yields.read (u := [2]) (takes_kind (b := 2) rfl)
    intro cursor
    apply Yields.read_pure (takes_wide i.toUInt64)
    intro cursor
    rw [Int64.toInt64_toUInt64]
    exact .int64 i
  | uint64 n =>
    apply Yields.read (u := [3]) (takes_kind (b := 3) rfl)
    intro cursor
    exact Yields.read_pure (takes_wide n) fun cursor ↦ .uint64 n
  | complex re im =>
    apply Yields.read (u := [4]) (takes_kind (b := 4) rfl)
    intro cursor
    apply Yields.read (takes_wide re.bits)
    intro cursor
    exact Yields.read_pure (takes_wide im.bits) fun cursor ↦ .complex re im
  | str str =>
    refine yields_string (g := fun a ↦ (.str a, 0)) str (fun kind hk ↦ ?_) fun a t hb _ ↦
      .str hb.symm
    split
    all_goals first
      | rfl
      | exact absurd hk (by decide)

/-- A child is the top of the stack. -/
theorem yields_child {top : Prototype × Nat} {stack : List (Prototype × Nat)}
    (hs : s.stack = top :: stack) (hd : top.2 + 1 ≤ maxNesting) :
    Yields object s (Encode.object (.child p)) fun r t ↦
      r = (.child top.1, top.2 + 1) ∧ t.stack = stack := by
  apply yields_position
  intro start
  apply Yields.read (u := [0]) (v := []) (takes_kind (b := 0) rfl)
  intro cursor
  refine Yields.bind (u := []) (yields_pop? hs) ?_
  rintro _ t _ ⟨rfl, ht⟩
  simp only [Nat.not_lt.2 hd, if_false]
  exact yields_pure ⟨rfl, ht⟩

/-- What is left on the stack of a tree: a tree like it, with its height. -/
def Finished (N : Str → Str → Prop) (p : Prototype) (top : Prototype × Nat) : Prop :=
  p.Alike N top.1 ∧ top.2 = p.height

/-- An object is read back, and its child is what the stack has of it. -/
theorem yields_object {tops stack : List (Prototype × Nat)} (hs : s.stack = tops ++ stack)
    (htops : List.Forall₂ (Finished N) o.child?.toList tops) (ht : ∀ t, o = .table t → t.Canonical)
    (hd : o.depth ≤ maxNesting) :
    Yields object s (Encode.object o) fun r t ↦
      Constant.Alike (Prototype.Alike N) o r.1 ∧ r.2 = o.depth ∧ t.stack = stack := by
  cases ho : o.child? with
  | none =>
    rw [ho] at htops
    cases htops
    refine (yields_other (Prototype.Alike N) ho ht s).mono ?_
    rintro ⟨o', d⟩ t hr ha
    have hd0 : o.depth = 0 := by
      cases o with
      | child p => cases ho
      | _ => rfl
    cases claim_of_object hr with
    | other _ hstack => exact ⟨ha, hd0.symm, hstack.trans hs⟩
    | child => cases ha; cases ho
  | some p =>
    obtain rfl : o = .child p := by
      cases o with
      | child q => cases ho; rfl
      | _ => cases ho
    rw [ho] at htops
    cases htops with
    | @cons _ top _ _ htop hnil =>
      cases hnil
      rw [Constant.depth, ← htop.2] at hd
      refine (yields_child hs hd).mono ?_
      rintro _ t - ⟨rfl, hstack⟩
      refine ⟨.child htop.1, ?_, hstack⟩
      rw [Constant.depth, ← htop.2]

/-- The first object has the first child, if it is one. -/
theorem exists_tops_of_cons {os : List (Constant Prototype)} {tops : List (Prototype × Nat)}
    (h : List.Forall₂ (Finished N) ((o :: os).filterMap Constant.child?) tops) :
    ∃ tops₁ tops₂, tops = tops₁ ++ tops₂ ∧ List.Forall₂ (Finished N) o.child?.toList tops₁ ∧
      List.Forall₂ (Finished N) (os.filterMap Constant.child?) tops₂ := by
  cases ho : o.child? with
  | none =>
    rw [List.filterMap_cons_none ho] at h
    exact ⟨[], tops, rfl, .nil, h⟩
  | some p =>
    rw [List.filterMap_cons_some ho] at h
    cases h with
    | cons htop h => exact ⟨[_], _, rfl, .cons htop .nil, h⟩

/-- The objects of a pool are read back in the order of the wire, and their children are what the
stack has on top. -/
theorem yields_objectsFrom {os : List (Constant Prototype)} {tops stack : List (Prototype × Nat)}
    (pool : List (Constant Prototype)) (depth : Nat) (hs : s.stack = tops ++ stack)
    (htops : List.Forall₂ (Finished N) (os.filterMap Constant.child?) tops)
    (ht : ∀ t, .table t ∈ os → t.Canonical) (hd : Constant.nesting os ≤ maxNesting) :
    Yields (objectsFrom pool depth os.length) s (os.flatMap Encode.object) fun r t ↦
      (∃ os', r.1 = os'.reverse ++ pool ∧
        List.Forall₂ (Constant.Alike (Prototype.Alike N)) os os') ∧
        r.2 = max depth (Constant.nesting os) ∧ t.stack = stack := by
  induction os generalizing pool depth s tops with
  | nil =>
    cases htops
    rw [Constant.nesting, Nat.max_zero]
    exact yields_pure ⟨⟨[], rfl, .nil⟩, rfl, hs⟩
  | cons o os ih =>
    rw [Constant.nesting] at hd
    obtain ⟨tops₁, tops₂, rfl, htop, hrest⟩ := exists_tops_of_cons htops
    rw [List.append_assoc] at hs
    rw [List.flatMap_cons]
    refine (yields_object hs htop (fun t h ↦ ht t (h ▸ List.mem_cons_self ..)) (by omega)).bind ?_
    rintro ⟨o', d⟩ r - ⟨ha, rfl, hr⟩
    refine (ih (o' :: pool) (max depth o.depth) hr hrest
      (fun t h ↦ ht t (List.mem_cons_of_mem _ h)) (by omega)).mono ?_
    rintro ⟨_, _⟩ t - ⟨⟨os', rfl, hall⟩, rfl, hstack⟩
    refine ⟨⟨o' :: os', by simp, .cons ha hall⟩, ?_, hstack⟩
    rw [Constant.nesting, Nat.max_assoc]

end Objects

/-! ## The whole record -/

section Record

variable {N : Str → Str → Prop} {f : Flags} {ctx : Context} {p : Prototype} {s : Session}

/-- What is made of the parts of a canonical prototype is like it. -/
theorem Canonical.alike (h : Canonical f p) {objects : List (Constant Prototype)} {name : Str}
    (hobj : List.Forall₂ (Constant.Alike (Prototype.Alike N)) p.objects objects)
    (hN : N p.chunkName name) : p.Alike N ((Front.of p).prototype objects p.debug name) := by
  refine ⟨rfl, rfl, rfl, ?_, ?_, rfl, rfl, hobj, rfl, hN⟩
  · change p.upvalueCount = p.upvalueCount.toUInt8.toUInt16
    rw [← UInt16.toNat_inj, UInt8.toNat_toUInt16, h.toNat_upvalueCount, h.upvalueCount]
  · obtain ⟨code, hcode⟩ := h.entry
    change p.instructions = .entry p.isVariadic p.frameSize :: p.instructions.tail
    rw [hcode, List.tail_cons]

/-- A record is read back, where the stack has its children on top. -/
theorem yields_record {tops stack : List (Prototype × Nat)} (h : Readable ctx p)
    (hN : N p.chunkName ctx.chunkName) (hd : p.height ≤ maxNesting) (hs : s.stack = tops ++ stack)
    (htops : List.Forall₂ (Finished N) p.children.reverse tops) :
    Yields (record ctx) s (Encode.record ctx.flags p) fun r t ↦
      Finished N p r ∧ t.stack = stack := by
  have ht : ∀ t, .table t ∈ p.objects.reverse → t.Canonical := fun t hm ↦
    h.tables t (List.mem_reverse.1 hm)
  rw [p.reverse_children] at htops
  rw [← p.nesting_reverse_objects] at hd
  simp only [Encode.record, List.append_assoc]
  apply Yields.read (takes_front h)
  intro cursor
  rw [h.objectCount]
  refine (yields_objectsFrom [] 0 (s := { s with cursor }) hs htops ht hd).bind ?_
  rintro ⟨_, _⟩ t - ⟨⟨os', rfl, hall⟩, rfl, hstack⟩
  refine yields_note ?_
  apply Yields.read_pure (takes_debugInfo h)
  intro cursor
  refine ⟨⟨?_, ?_⟩, hstack⟩
  · have hobj := List.rel_reverse hall
    rw [List.reverse_reverse] at hobj
    rw [List.append_nil]
    exact h.alike hobj hN
  · change max 0 (Constant.nesting p.objects.reverse) = p.height
    rw [Nat.zero_max, p.nesting_reverse_objects]

end Record

end Container

end JitDump
