import Mathlib.Algebra.BigOperators.Group.List.Basic
import JitDump.Proofs.Gating
import JitDump.Proofs.Residents
import JitDump.Proofs.Returns

/-!
# What a tree takes of its input

The counts of a record stand before what they count and may be as large as they
like, but nothing is made of a count alone: every instruction, descriptor, number,
object and value of a table is made of bytes that were consumed for it.  An
operation `Affords` what it returns if its worth is at most the credit that it
starts with and what it consumes; what one operation returns is the credit of the
next.  Pairs that overwrite others only waste credit, so the worth of a whole tree
is at most the length of its input.
-/

namespace JitDump

open Fallible

/-! ## Volumes -/

/-- How many bytes the texts of some strings have. -/
def textLength (strings : List Str) : Nat := (strings.map (·.bytes.length)).sum

@[simp] theorem textLength_nil : textLength [] = 0 := rfl

@[simp] theorem textLength_cons (s : Str) (strings : List Str) :
    textLength (s :: strings) = s.bytes.length + textLength strings := List.sum_cons

@[simp] theorem textLength_append (as bs : List Str) :
    textLength (as ++ bs) = textLength as + textLength bs := by simp [textLength]

theorem textLength_flatMap {α : Type} (f : α → List Str) (as : List α) :
    textLength (as.flatMap f) = (as.map fun a ↦ textLength (f a)).sum := by
  induction as with
  | nil => rfl
  | cons a as ih => rw [List.flatMap_cons, textLength_append, ih, List.map_cons, List.sum_cons]

/-- The size of a table: one for each value of its array part, two for each pair, and its texts. -/
def Template.volume (t : Template) : Nat :=
  t.array.size + 2 * t.hash.size + textLength t.strings

/-- The size of an object beyond its place in a pool. -/
def Constant.volume {child : Type} : Constant child → Nat
  | .str s => s.bytes.length
  | .table t => t.volume
  | .child _ | .int64 _ | .uint64 _ | .complex _ _ => 0

/-- The size of a prototype without its children: four for each instruction but the entry, two for
each upvalue, one for each number and each object, its debug block, its string constants and its
tables. -/
def Prototype.volume (p : Prototype) : Nat :=
  4 * (p.instructions.length - 1) + 2 * p.upvalues.length + p.numbers.length + p.objects.length +
    (p.debug.map (·.size.toNat)).getD 0 + (p.objects.map Constant.volume).sum

/-- Changing one item of a list adds no more than it may add to that item. -/
theorem sum_map_modify_le {α : Type} {g : α → Nat} {f : α → α} {k : Nat}
    (h : ∀ a, g (f a) ≤ g a + k) (as : List α) (i : Nat) :
    ((as.modify i f).map g).sum ≤ (as.map g).sum + k := by
  induction as generalizing i with
  | nil => simp
  | cons a as ih =>
    cases i with
    | zero =>
      have ha := h a
      simp only [List.modify_zero_cons, List.map_cons, List.sum_cons]
      omega
    | succ i =>
      have hi := ih i
      simp only [List.modify_succ_cons, List.map_cons, List.sum_cons]
      omega

namespace Template

/-- A pair adds no more to a table than itself, whether it is new, overwrites the value of its key,
or goes into a slot of the array part. -/
theorem volume_insert_le (t : Template) (k : Key) (v : Value) : (t.insert k v).volume ≤
    t.volume + (1 + textLength k.toValue.strings) + (1 + textLength v.strings) := by
  obtain ⟨array, items, index⟩ := t
  simp only [insert]
  split
  · rename_i i _
    have hset := sum_map_modify_le (g := fun w : Value ↦ textLength w.strings) (f := fun _ ↦ v)
      (fun w ↦ Nat.le_add_left _ _) array.toList i
    rw [List.modify_eq_set] at hset
    simp only [volume, strings, textLength_append, textLength_flatMap, Array.size_setIfInBounds,
      Array.toList_setIfInBounds]
    omega
  · simp only [Pairs.insert]
    split
    · rename_i i _
      have hmodify := sum_map_modify_le
        (g := fun item : Key × Value ↦ textLength (pairStrings item))
        (f := fun item ↦ (item.1, v)) (k := textLength v.strings)
        (fun item ↦ by simp only [pairStrings, textLength_append]; omega) items.toList i
      simp only [volume, strings, textLength_append, textLength_flatMap, Pairs.toList, Pairs.size,
        Array.size_modify, Array.toList_modify]
      omega
    · simp only [volume, strings, textLength_append, textLength_flatMap, Pairs.toList, Pairs.size,
        Array.size_push, Array.toList_push, List.map_append, List.sum_append, List.map_cons,
        List.map_nil, List.sum_cons, List.sum_nil, pairStrings]
      omega

end Template

/-! ## Credit -/

variable {σ α β : Type}

/-- What `x` returns is worth no more than a credit and what `x` uses up of what is left. -/
def Fallible.Affords (left : σ → Nat) (credit : Nat) (x : Fallible σ α) (worth : α → Nat) : Prop :=
  ∀ s a t, x s = .ok a t → worth a + left t ≤ credit + left s

namespace Fallible

variable {left : σ → Nat} {credit : Nat} {x : Fallible σ α} {f : α → Fallible σ β}
variable {worth : α → Nat} {worth' : β → Nat}

theorem affords_pure {a : α} (h : worth a ≤ credit) :
    Affords left credit (pure a : Fallible σ α) worth := by
  rintro s _ _ ⟨⟩
  exact Nat.add_le_add_right h _

theorem affords_failAt (i : Nat) (fault : Fault) :
    Affords left credit (failAt i fault : Fallible σ α) worth := by rintro _ _ _ ⟨⟩

/-- The worth of what an operation returns is the credit of the next one. -/
theorem Affords.bind (hx : Affords left credit x worth)
    (hf : ∀ a, Affords left (worth a) (f a) worth') : Affords left credit (x >>= f) worth' := by
  intro s b t h
  obtain ⟨a, r, ha, hb⟩ := bind_eq_ok.1 h
  exact (hf a r b t hb).trans (hx s a r ha)

/-- An operation that needs no credit leaves what there is. -/
theorem Affords.keep (hx : Affords left 0 x worth) (k : Nat) :
    Affords left k x fun a ↦ k + worth a := by
  intro s a t h
  have hle := hx s a t h
  rw [Nat.zero_add] at hle
  rw [Nat.add_assoc]
  exact Nat.add_le_add_left hle k

theorem Affords.mono (hx : Affords left credit x worth) {worth₁ : α → Nat}
    (h : ∀ a, worth₁ a ≤ worth a) : Affords left credit x worth₁ :=
  fun s a t ha ↦ (Nat.add_le_add_right (h a) _).trans (hx s a t ha)

theorem affords_timesFrom (hx : Affords left 0 x worth) (done : List α) (n : Nat) :
    Affords left (done.map worth).sum (timesFrom x done n) fun as ↦ (as.map worth).sum := by
  induction n generalizing done with
  | zero =>
    refine affords_pure ?_
    rw [List.map_reverse, List.sum_reverse]
  | succ n ih =>
    rw [timesFrom_succ]
    refine (hx.keep (done.map worth).sum).bind fun a ↦ ?_
    have ha := ih (a :: done)
    rwa [List.map_cons, List.sum_cons, Nat.add_comm] at ha

theorem affords_times (hx : Affords left 0 x worth) (n : Nat) :
    Affords left 0 (times n x) fun as ↦ (as.map worth).sum := affords_timesFrom hx [] n

theorem affords_times_const {k : Nat} (hx : Affords left 0 x fun _ ↦ k) (n : Nat) :
    Affords left 0 (times n x) fun as ↦ k * as.length := by
  refine (affords_times hx n).mono fun as ↦ ?_
  rw [List.map_const', List.sum_replicate_nat, Nat.mul_comm]

end Fallible

/-! ## Readings -/

namespace Reading

/-- Bytes that are pending are left. -/
abbrev Affords (credit : Nat) (x : Reading α) (worth : α → Nat) : Prop :=
  Fallible.Affords (fun c ↦ c.pending.length) credit x worth

theorem affords_of_advances {x : Reading α} {worth : α → Nat}
    (h : ∀ c a c', x c = .ok a c' → ∃ u, c.Advances u c' ∧ worth a ≤ u.length) :
    Affords 0 x worth := by
  intro c a c' hx
  obtain ⟨u, ha, hle⟩ := h c a c' hx
  have hlength := congrArg List.length ha.pending
  rw [List.length_append] at hlength
  dsimp only
  omega

/-- Whatever an operation consumes, it leaves no more than there was. -/
theorem Local.affords {x : Reading α} (h : Local x x) : Affords 0 x fun _ ↦ 0 := by
  refine affords_of_advances fun c a c' hx ↦ ?_
  obtain ⟨u, ha, -⟩ := h c a c' hx
  exact ⟨u, ha, Nat.zero_le _⟩

theorem affords_position {credit : Nat} {f : Nat → Reading β} {worth : β → Nat}
    (hf : ∀ i, Affords credit (f i) worth) : Affords credit (position >>= f) worth :=
  fun c ↦ hf c.position c

theorem affords_block (n : Nat) : Affords 0 (block n) List.length :=
  affords_of_advances fun _ u _ hx ↦ ⟨u, (of_block_eq_ok hx).2, Nat.le_refl _⟩

theorem affords_groups : Affords 0 groups fun _ ↦ 1 := by
  refine affords_of_advances fun c w c' hx ↦ ?_
  obtain ⟨u, hu, -, ha⟩ := of_groupsFrom_eq_ok hx
  exact ⟨u, ha, List.length_pos_iff.2 hu.ne_nil⟩

theorem affords_varint : Affords 0 varint fun _ ↦ 1 :=
  affords_groups.bind fun _ ↦ affords_pure (Nat.le_refl 1)

theorem affords_taggedVarint : Affords 0 taggedVarint fun _ ↦ 1 :=
  affords_groups.bind fun _ ↦ affords_pure (Nat.le_refl 1)

theorem affords_word16 (order : ByteOrder) : Affords 0 (word16 order) fun _ ↦ 2 := by
  rw [word16_eq]
  intro c w c' hx
  obtain ⟨u, c₁, hb, hw⟩ := bind_eq_ok.1 hx
  cases hw
  have hle := affords_block 2 c u c' hb
  rwa [(of_block_eq_ok hb).1] at hle

end Reading

namespace Container

open Reading

theorem affords_number : Reading.Affords 0 number fun _ ↦ 1 := by
  refine affords_taggedVarint.bind fun low ↦ ?_
  obtain ⟨low, isFloat⟩ := low
  cases isFloat with
  | true => exact (affords_varint.keep 1).bind fun _ ↦ affords_pure (by decide)
  | false => exact affords_pure (Nat.le_refl 1)

theorem affords_instructions (order : ByteOrder) (count : Nat) :
    Reading.Affords 0 (instructions order count) fun code ↦ 4 * code.length := by
  refine affords_position fun start ↦ (affords_block _).bind fun block ↦ ?_
  split
  · rename_i code hcode
    obtain ⟨added, hadded, hl, -⟩ := of_restoreFrom_eq_ok hcode
    have hcount : code.length = block.length / 4 := by
      rw [hadded, List.reverse_nil, List.nil_append, hl, order.length_words32]
    exact affords_pure (by omega)
  · exact affords_failAt _ _

/-- The size of what the front of a record holds. -/
def Front.volume (f : Front) : Nat := 4 * f.code.length + 2 * f.upvalues.length + f.numbers.length

theorem affords_front (ctx : Context) : Reading.Affords 0 (front ctx) Front.volume := by
  refine (Local.affords Reading.locality.headBytes).bind fun head ↦ ?_
  refine (Local.affords Reading.locality.varint).bind fun numberCount ↦ ?_
  refine (Local.affords Reading.locality.varint).bind fun objectCount ↦ ?_
  refine (Local.affords Reading.locality.varint).bind fun codeCount ↦ ?_
  refine (Local.affords (Reading.locality.announced ctx)).bind fun debug? ↦ ?_
  refine (affords_instructions _ _).bind fun code ↦ ?_
  refine ((affords_times_const (affords_word16 _) _).keep _).bind fun upvalues ↦ ?_
  refine ((affords_times_const affords_number _).keep _).bind fun numbers ↦ affords_pure ?_
  rw [Front.volume, Nat.one_mul]

/-- A debug block is as long as its debug info says. -/
theorem affords_debugInfo (order : ByteOrder) (f : Front) :
    Reading.Affords 0 (debugInfo order f) fun d? ↦ (d?.map (·.size.toNat)).getD 0 := by
  rw [debugInfo]
  cases f.debug? with
  | none => exact affords_pure (Nat.le_refl 0)
  | some header =>
    refine Affords.bind (affords_position fun start ↦ ?_) fun d ↦ affords_pure (Nat.le_refl _)
    intro c d c' h
    obtain ⟨block, c₁, hb, hd⟩ := bind_eq_ok.1 h
    have hle := affords_block _ c block c₁ hb
    rw [(of_block_eq_ok hb).1] at hle
    cases hinfo : DebugBlock.parse? order header f.codeCount.toNat f.head.upvalueCount.toNat
      block with
    | none =>
      rw [hinfo] at hd
      cases hd
    | some info =>
      rw [hinfo] at hd
      cases hd
      obtain ⟨rfl, -⟩ := DebugBlock.of_parse?_eq_some order hinfo
      exact hle

end Container

/-! ## Operations of a decode -/

namespace Heap.StringTable

/-- Whatever a table holds, what it gives for a text has the bytes of the text. -/
theorem bytes_intern (t : StringTable) (s : Bytes) : (t.intern s).1.bytes = s := by
  by_cases hs : s = []
  · subst hs
    rfl
  · rcases t.intern_cases hs with ⟨str, hf, heq⟩ | ⟨str, hf, heq⟩ | ⟨-, heq⟩
    · rw [heq]
      exact (of_find?_eq_some hf).2
    · rw [heq]
      exact (of_find?_eq_some hf).2
    · rw [heq]

end Heap.StringTable

namespace Decoding

open Container

abbrev Affords (credit : Nat) (x : Decoding α) (worth : α → Nat) : Prop :=
  Fallible.Affords (fun s : Session ↦ s.cursor.pending.length) credit x worth

variable {credit : Nat} {worth : α → Nat}

theorem affords_ofReading {x : Reading α} (h : x.Affords credit worth) :
    Affords credit (ofReading x) worth := by
  intro s a t hx
  obtain ⟨c, hc, rfl⟩ := ofReading_eq_ok_iff.1 hx
  exact h s.cursor a c hc

theorem affords_position {f : Nat → Decoding β} {worth : β → Nat}
    (hf : ∀ i, Affords credit (f i) worth) :
    Affords credit (ofReading Reading.position >>= f) worth := fun s ↦ hf s.cursor.position s

theorem affords_intern (text : Bytes) :
    Affords text.length (intern text) fun s ↦ s.bytes.length := by
  intro s a t h
  have hrun : (s.heap.intern text).1 = a ∧ s.cursor = t.cursor := by
    cases h
    exact ⟨rfl, rfl⟩
  obtain ⟨rfl, hcursor⟩ := hrun
  have hbytes : (s.heap.intern text).1.bytes = text := Heap.StringTable.bytes_intern _ text
  dsimp only
  rw [hbytes, hcursor]

theorem affords_pop? : Affords 0 pop? fun _ ↦ 0 := by
  intro s a t h
  rw [pop?_eq] at h
  cases h
  exact Nat.le_refl _

theorem affords_note (e : Event) : Affords 0 (note e) fun _ ↦ 0 := by
  rintro s _ _ ⟨⟩
  exact Nat.le_refl _

end Decoding

namespace Container

open Decoding

theorem affords_maskedString (n : Nat) :
    Decoding.Affords 0 (maskedString n) fun s ↦ s.bytes.length := by
  refine (affords_ofReading (Reading.affords_block n)).bind fun masked ↦ ?_
  have h := affords_intern masked.unmask
  rwa [Bytes.length_unmask] at h

/-- A value is worth the byte that tells its kind, and its text. -/
theorem affords_templateValue :
    Decoding.Affords 0 templateValue fun v ↦ 1 + textLength v.strings := by
  refine (affords_ofReading Reading.affords_varint).bind fun kind ↦ ?_
  split
  · exact affords_pure (Nat.le_refl 1)
  · exact affords_pure (Nat.le_refl 1)
  · exact affords_pure (Nat.le_refl 1)
  · refine ((affords_ofReading Reading.affords_varint).keep 1).bind fun i ↦ affords_pure ?_
    exact Nat.le_add_right 1 1
  · have hwide := affords_ofReading (Reading.Local.affords Reading.locality.wide)
    exact (hwide.keep 1).bind fun w ↦ affords_pure (Nat.le_refl 1)
  · refine ((affords_maskedString _).keep 1).bind fun s ↦ affords_pure ?_
    rw [Template.Value.strings, textLength_cons, textLength_nil, Nat.add_zero]

/-- A pair is worth no more than its key and its value. -/
theorem affords_templatePair (t : Template) :
    Decoding.Affords t.volume (templatePair t) Template.volume := by
  refine affords_position fun start ↦ (affords_templateValue.keep t.volume).bind fun v ↦ ?_
  cases hk : v.key? with
  | none => exact affords_failAt _ _
  | some key =>
    refine (affords_templateValue.keep _).bind fun w ↦ affords_pure ?_
    rw [← Template.Value.strings_of_key? hk]
    exact t.volume_insert_le key w

theorem affords_templatePairs (t : Template) (n : Nat) :
    Decoding.Affords t.volume (templatePairs t n) Template.volume := by
  induction n generalizing t with
  | zero => exact affords_pure (Nat.le_refl _)
  | succ n ih => exact (affords_templatePair t).bind fun t ↦ ih t

theorem affords_template : Decoding.Affords 0 template Template.volume := by
  refine (affords_ofReading (Reading.Local.affords Reading.locality.varint)).bind fun pairs ↦ ?_
  refine (affords_ofReading (Reading.Local.affords Reading.locality.varint)).bind fun values ↦ ?_
  refine (affords_times affords_templateValue _).bind fun array ↦ ?_
  have h := affords_templatePairs ⟨array.toArray, .empty⟩ pairs.toNat
  have hvolume : Template.volume ⟨array.toArray, .empty⟩ =
      (array.map fun v ↦ 1 + textLength v.strings).sum := by
    simp [Template.volume, Template.strings, textLength_flatMap, List.sum_map_add]
  rwa [hvolume] at h

/-- An object is worth the byte that tells its kind, and its size. -/
theorem affords_object : Decoding.Affords 0 object fun o ↦ 1 + o.1.volume := by
  refine affords_position fun start ↦ (affords_ofReading Reading.affords_varint).bind fun kind ↦ ?_
  have hwide : Decoding.Affords 1 wide fun _ ↦ 1 :=
    (affords_ofReading (Reading.Local.affords Reading.locality.wide)).keep 1
  split
  · refine (affords_pop?.keep 1).bind fun top? ↦ ?_
    split
    · exact affords_failAt _ _
    · split
      · exact affords_failAt _ _
      · exact affords_pure (Nat.le_refl 1)
  · exact (affords_template.keep 1).bind fun t ↦ affords_pure (Nat.le_refl _)
  · exact hwide.bind fun _ ↦ affords_pure (Nat.le_refl 1)
  · exact hwide.bind fun _ ↦ affords_pure (Nat.le_refl 1)
  · exact hwide.bind fun _ ↦ hwide.bind fun _ ↦ affords_pure (Nat.le_refl 1)
  · exact ((affords_maskedString _).keep 1).bind fun s ↦ affords_pure (Nat.le_refl _)

theorem affords_objectsFrom (pool : List (Constant Prototype)) (depth n : Nat) :
    Decoding.Affords (pool.map fun o ↦ 1 + o.volume).sum (objectsFrom pool depth n)
      fun r ↦ (r.1.map fun o ↦ 1 + o.volume).sum := by
  induction n generalizing pool depth with
  | zero => exact affords_pure (Nat.le_refl _)
  | succ n ih =>
    refine (affords_object.keep _).bind fun o ↦ ?_
    have h := ih (o.1 :: pool) (max depth o.2)
    rwa [List.map_cons, List.sum_cons, Nat.add_comm] at h

/-- A record is worth the size of its prototype. -/
theorem affords_record (ctx : Context) :
    Decoding.Affords 0 (record ctx) fun r ↦ r.1.volume := by
  refine (affords_ofReading (affords_front ctx)).bind fun f ↦ ?_
  refine ((affords_objectsFrom [] 0 _).keep _).bind fun r ↦ ?_
  refine ((affords_note _).keep _).bind fun _ ↦ ?_
  refine ((affords_ofReading (affords_debugInfo _ f)).keep _).bind fun debug ↦ affords_pure ?_
  have hsum : (r.1.map fun o ↦ 1 + o.volume).sum =
      r.1.length + (r.1.map Constant.volume).sum := by
    simp [List.sum_map_add]
  simp only [Prototype.volume, Front.prototype, Front.volume, List.length_cons, hsum]
  omega

/-! ## Whole decodes -/

variable {ctx : Context} {s t : Session} {ps : List Prototype}

/-- What was consumed for a record is worth its prototype, and its length comes on top. -/
theorem Round.volume_le {p : Prototype} {d : Nat} (h : Round ctx s (some (p, d)) t) :
    p.volume + t.cursor.pending.length ≤ s.cursor.pending.length := by
  cases h with
  | record hl hr hn =>
    obtain ⟨u, -, ha, -⟩ := of_nextLength_eq_ok hl
    have hlength := congrArg List.length ha.pending
    have hrecord := affords_record ctx _ _ _ hr
    rw [List.length_append] at hlength
    dsimp only at hrecord ⊢
    omega

theorem Steps.volume_le (h : Steps (nextRecord ctx) s ps t) :
    (ps.map Prototype.volume).sum + t.cursor.pending.length ≤ s.cursor.pending.length := by
  induction h with
  | refl => simp
  | snoc _ hn ih =>
    have hround := (nextRecord_eq_ok_iff.1 hn).volume_le
    simp only [List.map_append, List.sum_append, List.map_cons, List.map_nil, List.sum_cons,
      List.sum_nil, Session.push]
    omega

variable {options : Options} {heap : Heap} {source : Source} {name : String}

/-- The head of a container consumes some bytes of the input. -/
theorem exists_advances_of_header {h : Header} {bytes : Bytes}
    (hh : header options bytes (.start heap source) = .ok h s) :
    ∃ u, Cursor.Advances (.ofSource source) u s.cursor := by
  obtain ⟨name?, ho⟩ := opening_of_header hh
  obtain ⟨_, c₁, hp, hbehind⟩ := bind_eq_ok.1 ho
  obtain ⟨u, ha, -⟩ := Reading.locality.behindPrologue options _ _ _ hbehind
  exact ⟨_, (of_prologue_eq_ok hp).trans ha⟩

/-- The records so far are worth no more than what was consumed for them. -/
theorem Point.volume_le (hp : Point options heap source name ctx ps t) :
    (ps.map Prototype.volume).sum ≤ source.delivered.length := by
  cases hp with
  | mk hh hs =>
    obtain ⟨u, ha⟩ := exists_advances_of_header hh
    have hlength := congrArg List.length ha.pending
    have hsteps := hs.volume_le
    rw [Cursor.pending_ofSource, List.length_append] at hlength
    simp only [Session.opened] at hsteps
    omega

/-- No input inflates: all that an accepted tree holds, in all its prototypes together, is at most
as large as the input. -/
theorem decode_volume_le {p : Prototype}
    (h : (decode options heap source name).result = .ok p) :
    (p.postorder.map Prototype.volume).sum ≤ source.delivered.length := by
  obtain ⟨ctx, ps, t, hp, -, hu⟩ := exists_point h
  have hforest := hp.forest_eq
  have hps : p.postorder = ps := by simpa [Session.forest, hu] using hforest
  rw [hps]
  exact hp.volume_le

/-- A stripped container of one record with an instruction, a number, a string of two bytes and a
table, whose one pair overwrites the one value of its array part with a string of one byte. -/
def tabled : Bytes :=
  [0x1b, 0x4c, 0x4a, 2, 2, 23, 0, 0, 0, 0, 1, 2, 1, 0, 0, 0, 0, 2, 7, 0x96, 0x96,
    1, 1, 1, 2, 3, 0, 6, 0x9e, 0]

theorem decode_volume_le_of_tabled :
    ∃ p, (decode .default .new (.ofBytes tabled) "a").result = .ok p ∧
      (p.postorder.map Prototype.volume).sum = 11 ∧
      (p.postorder.map Prototype.volume).sum ≤ (Source.ofBytes tabled).delivered.length := by
  have h : (decode .default .new (.ofBytes tabled) "a").result.toOption.map
      (fun p ↦ (p.postorder.map Prototype.volume).sum) = some 11 := by decide +kernel
  obtain ⟨p, hp, hsum⟩ := Option.map_eq_some_iff.1 h
  have hresult := Decoded.result_eq_ok hp
  exact ⟨p, hresult, hsum, decode_volume_le hresult⟩

end Container

end JitDump
