import JitDump.Proofs.Service
import JitDump.Proofs.Twins
import JitDump.Proofs.Worths

/-!
# Keys are the same exactly if values are raw equal

Tables are indexed up to raw equality, by which a number is what it is worth and
a string its bytes.  A value is raw equal to what its key stands for, and numbers
of one worth have one key, because the worths that two numbers of different kinds
have in common are the integers of 32 bits, which are always kept as integers.
NaNs are worth nothing; as keys they are known by their bits.
-/

namespace JitDump.Template

variable {h : Heap} {k l : Key} {u v w : Value} {d : Double} {i : Int32} {x : Worth}

/-! ## Raw equality -/

namespace Value

/-- What a number is worth, as an integer or as a double. -/
def worth? : Value → Option Worth
  | .int i => some (.finite i.toInt)
  | .num d => d.worth?
  | .nil | .false | .true | .str _ => none

/-- Equality of values as table indices: the same boolean, strings with equal bytes, numbers of
equal worth, or one and the same NaN. -/
inductive RawEqual : Value → Value → Prop
  | false : RawEqual .false .false
  | true : RawEqual .true .true
  | str {s t : Str} (hb : s.bytes = t.bytes) : RawEqual (.str s) (.str t)
  | number {v w : Value} {x : Worth} (hv : v.worth? = some x) (hw : w.worth? = some x) :
      RawEqual v w
  | nan {d : Double} (hd : d.isNaN = Bool.true) : RawEqual (.num d) (.num d)

theorem rawEqual_self (hv : v ≠ .nil) : v.RawEqual v := by
  cases v with
  | nil => exact absurd rfl hv
  | «false» => exact .false
  | «true» => exact .true
  | int i => exact .number rfl rfl
  | num d =>
    cases hd : d.worth? with
    | none => exact .nan (Double.worth?_eq_none_iff.1 hd)
    | some x => exact .number hd hd
  | str s => exact .str rfl

namespace RawEqual

theorem symm (h : v.RawEqual w) : w.RawEqual v := by
  cases h with
  | «false» => exact .false
  | «true» => exact .true
  | str hb => exact .str hb.symm
  | number hv hw => exact .number hw hv
  | nan hd => exact .nan hd

/-- What is raw equal to a number is a number of the same worth. -/
theorem worth?_eq (h : v.RawEqual w) : v.worth? = w.worth? := by
  cases h with
  | number hv hw => exact hv.trans hw.symm
  | _ => rfl

theorem trans (h : u.RawEqual v) (h' : v.RawEqual w) : u.RawEqual w := by
  cases h with
  | number hu hv => exact .number hu (h'.worth?_eq ▸ hv)
  | str hb =>
    cases h' with
    | str hb' => exact .str (hb.trans hb')
    | number hv => cases hv
  | _ => exact h'

end RawEqual

theorem Alike.rawEqual (h : v.Alike w) (hv : v ≠ .nil) : v.RawEqual w := by
  cases h with
  | str hb => exact .str hb
  | _ => exact rawEqual_self hv

/-! ## Keys of values -/

/-- Every value but nil has a key. -/
theorem exists_key? (hv : v ≠ .nil) : ∃ k, v.key? = some k := by
  cases v with
  | nil => exact absurd rfl hv
  | _ => exact ⟨_, rfl⟩

/-- A number that is worth an integer of 32 bits has that integer for its key. -/
theorem key?_of_worth? (h : v.worth? = some (.finite i.toInt)) : v.key? = some (.int i) := by
  cases v with
  | int j =>
    rw [worth?, Option.some_inj, Worth.finite.injEq, Int.cast_inj, Int32.toInt_inj] at h
    rw [key?_int, h]
  | num d => rw [key?, Double.toInt32?_eq_some_iff.2 h]
  | _ => cases h

/-- A double has an integer for its key exactly if it is worth that integer. -/
theorem key?_num_eq_int_iff :
    (num d).key? = some (.int i) ↔ d.worth? = some (.finite i.toInt) := by
  refine ⟨fun h ↦ ?_, key?_of_worth? (v := num d)⟩
  rw [key?, Option.some_inj] at h
  split at h
  case h_1 j hj =>
    cases h
    exact Double.toInt32?_eq_some_iff.1 hj
  case h_2 => cases h

/-- A double that is no integer of 32 bits is its own key. -/
theorem key?_num (h : ∀ i : Int32, d.worth? ≠ some (.finite i.toInt)) :
    (num d).key? = some (.num d) := by
  have hnone : d.toInt32? = none :=
    Option.eq_none_iff_forall_ne_some.2 fun i hi ↦ h i (Double.toInt32?_eq_some_iff.1 hi)
  rw [key?, hnone]

/-- Numbers of one worth have one key. -/
theorem key?_eq_of_worth? (hv : v.worth? = some x) (hw : w.worth? = some x) : v.key? = w.key? := by
  by_cases hint : ∃ i : Int32, x = .finite i.toInt
  · obtain ⟨i, rfl⟩ := hint
    rw [key?_of_worth? hv, key?_of_worth? hw]
  · -- both are doubles then, and none of them a zero
    rw [not_exists] at hint
    cases v with
    | num d =>
      cases w with
      | num e =>
        rcases Double.eq_or_isZero_of_worth? hv hw with rfl | ⟨hd, -⟩
        · rfl
        · have hzero := Double.worth?_eq_finite_iff.2 (Double.isZero_iff.1 hd)
          rw [show d.worth? = some x from hv, Option.some_inj] at hzero
          exact absurd hzero (hint 0)
      | int j => exact absurd (Option.some_inj.1 hw).symm (hint j)
      | _ => cases hw
    | int j => exact absurd (Option.some_inj.1 hv).symm (hint j)
    | _ => cases hv

/-- A value is raw equal to what its key stands for. -/
theorem rawEqual_toValue (h : v.key? = some k) : v.RawEqual k.toValue := by
  cases v with
  | nil => cases h
  | num d =>
    cases k with
    | int i => exact .number (key?_num_eq_int_iff.1 h) rfl
    | num e =>
      rw [key?, Option.some_inj] at h
      split at h
      · cases h
      · cases h
        exact rawEqual_self nofun
    | _ =>
      rw [key?, Option.some_inj] at h
      split at h <;> cases h
  | _ =>
    cases h
    exact rawEqual_self nofun

theorem HeldBy.key (hv : v.HeldBy h) (hk : v.key? = some k) : k.toValue.HeldBy h := by
  cases v with
  | nil => cases hk
  | str s =>
    cases hk
    exact hv
  | num d =>
    rw [key?, Option.some_inj] at hk
    split at hk <;> cases hk <;> trivial
  | _ =>
    cases hk
    trivial

/-- A heap takes the keys of two values for the same exactly if the values are raw equal. -/
theorem beq_key_iff (hs : h.Sound) (hv : v.HeldBy h) (hw : w.HeldBy h) (hk : v.key? = some k)
    (hl : w.key? = some l) : (k == l) = Bool.true ↔ v.RawEqual w := by
  have hvk := rawEqual_toValue hk
  have hwl := rawEqual_toValue hl
  constructor
  · intro heq
    have ha := Key.alike_of_beq hs (hv.key hk) (hw.key hl) heq
    have hkl := ha.rawEqual (by cases k <;> exact nofun)
    exact (hvk.trans hkl).trans hwl.symm
  · intro heq
    have hkeys : k = l := by
      cases heq with
      | number hv' hw' =>
        have hkey := key?_eq_of_worth? hv' hw'
        exact Option.some_inj.1 (hk.symm.trans (hkey.trans hl))
      | str hb =>
        cases hk
        cases hl
        rw [hs.eq_of_bytes_eq hv hw hb]
      | _ => exact Option.some_inj.1 (hk.symm.trans hl)
    rw [hkeys]
    exact BEq.rfl

/-- The key of a double is what the cast to 32 bits makes of it if the cast back has its value. -/
theorem key?_num_eq_cast (d : Double) :
    (num d).key? = some (if (Double.ofInt32 d.castInt32).sameValue d then .int d.castInt32
      else .num d) := by
  rw [key?, Double.toInt32?_eq]
  split_ifs <;> rfl

/-- A double has an integer for its key exactly if it is worth a whole number of the range. -/
theorem exists_key?_eq_int_iff : (∃ i, (num d).key? = some (.int i)) ↔
    ∃ z : ℤ, d.worth? = some (.finite z) ∧ -2 ^ 31 ≤ z ∧ z < 2 ^ 31 := by
  constructor
  · rintro ⟨i, hi⟩
    exact ⟨i.toInt, key?_num_eq_int_iff.1 hi, i.le_toInt, i.toInt_lt⟩
  · rintro ⟨z, hz, hlo, hhi⟩
    refine ⟨.ofInt z, key?_num_eq_int_iff.2 ?_⟩
    rw [Int32.toInt_ofInt_of_le hlo hhi, hz]

end Value

/-- Two values of a heap that served any decodes before, neither of them nil, have the same key
exactly if they are raw equal. A double has an integer for its key exactly if what it is worth is
a whole number of 32 bits, and then that integer; the others, infinities and NaNs among them, are
keys themselves. This is what a cast to 32 bits and back decides. -/
theorem keys_follow_raw_equality (hs : h.Serving) :
    (∀ v w : Value, v ≠ .nil → w ≠ .nil → v.HeldBy h → w.HeldBy h →
      ∃ k l, v.key? = some k ∧ w.key? = some l ∧ ((k == l) = Bool.true ↔ v.RawEqual w)) ∧
    ∀ d : Double,
      (∀ i, (Value.num d).key? = some (.int i) ↔ d.worth? = some (.finite i.toInt)) ∧
      ((∃ i, (Value.num d).key? = some (.int i)) ↔
        ∃ z : ℤ, d.worth? = some (.finite z) ∧ -2 ^ 31 ≤ z ∧ z < 2 ^ 31) ∧
      ((¬ ∃ i, (Value.num d).key? = some (.int i)) → (Value.num d).key? = some (.num d)) ∧
      (Value.num d).key? = some (if (Double.ofInt32 d.castInt32).sameValue d
        then .int d.castInt32 else .num d) := by
  refine ⟨fun v w hv hw hheld hheld' ↦ ?_, fun d ↦ ⟨fun i ↦ Value.key?_num_eq_int_iff,
    Value.exists_key?_eq_int_iff, fun hnot ↦ ?_, Value.key?_num_eq_cast d⟩⟩
  · obtain ⟨k, hk⟩ := Value.exists_key? hv
    obtain ⟨l, hl⟩ := Value.exists_key? hw
    exact ⟨k, l, hk, hl, Value.beq_key_iff hs.reachable.sound hheld hheld' hk hl⟩
  · exact Value.key?_num fun i hi ↦ hnot ⟨i, Value.key?_num_eq_int_iff.2 hi⟩

/-- In a fresh heap, negative zero as a double has the key of the integer zero. -/
theorem keys_follow_raw_equality_zero :
    ∃ k l, (Value.num ⟨0x8000000000000000⟩).key? = some k ∧ (Value.int 0).key? = some l ∧
      (k == l) = Bool.true := by
  obtain ⟨k, l, hk, hl, heq⟩ := (keys_follow_raw_equality (.ofMask Heap.defaultMask)).1
    (.num ⟨0x8000000000000000⟩) (.int 0) nofun nofun trivial trivial
  exact ⟨k, l, hk, hl, heq.2 (.number (Double.worth?_eq_finite_iff.2
    (Double.isZero_iff.1 (by decide))) rfl)⟩

end JitDump.Template
