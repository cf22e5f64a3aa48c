import Mathlib.Algebra.BigOperators.Intervals
import Mathlib.Algebra.BigOperators.Ring.Finset
import JitDump.Proofs.Locality

/-!
# Numbers at any length

The bytes of a number are read one by one until one of them announces no other,
so there is no length at which reading stops: what comes beyond the bits of a
word is read and dropped.  Here the two readings of a number are told from the
bytes that come next alone, as sums over these bytes: where the bytes of a number
come next, where the input is over before one ends, and where the writer wrote
them.
-/

namespace JitDump

open Cursor

/-! ## Sums over the bytes of a number -/

namespace Varint

variable {more : Bytes} {first last : UInt8}

/-- Bytes that announce another, and one that does not, are those of one number. -/
theorem whole_append (hm : ∀ b ∈ more, 0x80 ≤ b) (hl : last < 0x80) : Whole (more ++ [last]) := by
  induction more with
  | nil =>
    refine .last ?_
    rwa [continues, decide_eq_false_iff_not, UInt8.not_le]
  | cons b more ih =>
    rw [List.forall_mem_cons] at hm
    exact .more (decide_eq_true hm.1) (ih hm.2)

/-- What groups spell, as a sum. -/
theorem number_eq_sum (u : Bytes) :
    number u = ∑ i ∈ Finset.range u.length, (u.getD i 0).toNat % 128 * 2 ^ (7 * i) := by
  induction u with
  | nil => rfl
  | cons b rest ih =>
    rw [number, ih, List.length_cons, Finset.sum_range_succ', Finset.mul_sum, Nat.add_comm]
    congr 1
    · refine Finset.sum_congr rfl fun i _ ↦ ?_
      rw [List.getD_cons_succ, Nat.mul_add, Nat.pow_add]
      ring
    · simp

/-- The groups behind the first one of a tagged number, each a bit below its place. -/
theorem number_eq_sum_Ico (first : UInt8) (rest : Bytes) :
    64 * number rest = ∑ i ∈ Finset.Ico 1 (first :: rest).length,
      ((first :: rest).getD i 0).toNat % 128 * 2 ^ (7 * i - 1) := by
  rw [number_eq_sum, Finset.mul_sum, Finset.sum_Ico_eq_sum_range, List.length_cons,
    Nat.add_sub_cancel]
  refine Finset.sum_congr rfl fun i _ ↦ ?_
  have hexp : 7 * (1 + i) - 1 = 6 + 7 * i := by omega
  rw [hexp, Nat.add_comm 1 i, List.getD_cons_succ, Nat.pow_add]
  ring

end Varint

/-! ## Readings -/

namespace Reading

open Varint

variable {c : Cursor} {u rest : Bytes}

theorem varint_eq_ok (hu : Whole u) (hp : c.pending = u ++ rest) :
    ∃ c', varint c = .ok (value u) c' ∧ c.Advances u c' := by
  obtain ⟨c', hg, ha⟩ := groupsFrom_eq_ok hu [] hp
  exact ⟨c', Fallible.bind_of_ok hg, ha⟩

theorem taggedVarint_eq_ok (hu : Whole u) (hp : c.pending = u ++ rest) :
    ∃ c', taggedVarint c = .ok (taggedValue u) c' ∧ c.Advances u c' := by
  obtain ⟨c', hg, ha⟩ := groupsFrom_eq_ok hu [] hp
  exact ⟨c', Fallible.bind_of_ok hg, ha⟩

/-- Where no pending byte ends a number, all of them are read, and then there is want of a byte. -/
theorem groupsFrom_eq_error (done : Bytes) (h : ∀ b ∈ c.pending, continues b = true) :
    ∃ c', groupsFrom done c =
      .error ⟨"", c.position + c.pending.length, c.shortage 1⟩ c' := by
  induction hp : c.pending generalizing c done with
  | nil =>
    obtain ⟨c', he⟩ := byte_eq_error hp
    exact ⟨c', by rw [groupsFrom_eq, he]; rfl⟩
  | cons b rest ih =>
    rw [hp, List.forall_mem_cons] at h
    obtain ⟨c₁, hb, ha⟩ := byte_eq_ok hp
    have hp₁ : c₁.pending = rest := ha.pending_of_append hp
    obtain ⟨c', he⟩ := ih (b :: done) (hp₁ ▸ h.2) hp₁
    refine ⟨c', ?_⟩
    have hshort : c₁.shortage 1 = c.shortage 1 := by rw [shortage, shortage, ha.closing]
    rw [groupsFrom_eq, hb]
    simp only [h.1, if_true]
    rw [he, hshort, ha.position, List.length_singleton, List.length_cons, Nat.add_assoc,
      Nat.add_comm 1]

/-- Both readings of a number find the bytes `u` of one in front of others. -/
structure FindsNumber (c : Cursor) (u rest : Bytes) : Prop where
  plain : ∃ v c', varint c = .ok v c' ∧ c'.pending = rest ∧
    c'.position = c.position + u.length ∧
    v.toNat = (∑ i ∈ Finset.range u.length, (u.getD i 0).toNat % 128 * 2 ^ (7 * i)) % 2 ^ 32
  tagged : ∃ v c', taggedVarint c = .ok (v, decide ((u.getD 0 0).toNat % 2 = 1)) c' ∧
    c'.pending = rest ∧ c'.position = c.position + u.length ∧
    v.toNat = ((u.getD 0 0).toNat / 2 % 64 +
      ∑ i ∈ Finset.Ico 1 u.length, (u.getD i 0).toNat % 128 * 2 ^ (7 * i - 1)) % 2 ^ 32

theorem findsNumber (hu : Whole u) (hp : c.pending = u ++ rest) : FindsNumber c u rest := by
  constructor
  case plain =>
    obtain ⟨c', hv, ha⟩ := varint_eq_ok hu hp
    refine ⟨_, c', hv, ha.pending_of_append hp, ha.position, ?_⟩
    rw [toNat_value, number_eq_sum]
  case tagged =>
    obtain ⟨c', hv, ha⟩ := taggedVarint_eq_ok hu hp
    obtain ⟨b, later, rfl⟩ := List.exists_cons_of_ne_nil hu.ne_nil
    refine ⟨(taggedValue (b :: later)).1, c', hv.trans ?_, ha.pending_of_append hp, ha.position, ?_⟩
    · rw [List.getD_cons_zero, ← taggedValue_snd b later]
    · rw [toNat_taggedValue, number_eq_sum_Ico b later, List.getD_cons_zero]

/-- Numbers are read at every length, whatever source the cursor reads: where their bytes come next,
exactly these are consumed, and their value keeps the lowest 32 bits of what they spell; where all
bytes up to the end of the input announce another, there is want of input behind the last; and what
the writer wrote in front of other bytes is read back. -/
theorem numbers_at_every_length (c : Cursor) :
    (∀ (more : Bytes) (last : UInt8) (rest : Bytes), (∀ b ∈ more, 0x80 ≤ b) → last < 0x80 →
      c.pending = more ++ [last] ++ rest → FindsNumber c (more ++ [last]) rest) ∧
    ((∀ b ∈ c.pending, 0x80 ≤ b) → c.closing = .finished →
      (∃ c', varint c = .error ⟨"", c.position + c.pending.length, .truncatedInput⟩ c') ∧
      ∃ c', taggedVarint c = .error ⟨"", c.position + c.pending.length, .truncatedInput⟩ c') ∧
    ∀ (v : UInt32) (tag : Bool) (rest : Bytes),
      (c.pending = encode v ++ rest → ∃ c', varint c = .ok v c' ∧ c'.pending = rest) ∧
      (c.pending = encodeTagged v tag ++ rest →
        ∃ c', taggedVarint c = .ok (v, tag) c' ∧ c'.pending = rest) := by
  refine ⟨fun more last rest hm hl hp ↦ findsNumber (whole_append hm hl) hp, ?_, ?_⟩
  · intro hm hc
    obtain ⟨c', he⟩ := groupsFrom_eq_error [] (c := c) fun b hb ↦ decide_eq_true (hm b hb)
    rw [shortage, if_neg (by decide), hc] at he
    exact ⟨⟨c', Fallible.bind_of_error he⟩, c', Fallible.bind_of_error he⟩
  · intro v tag rest
    constructor
    · intro hp
      obtain ⟨c', hv, ha⟩ := varint_eq_ok (whole_encodeNat v.toNat) hp
      exact ⟨c', hv.trans (by rw [← encode, value_encode]), ha.pending_of_append hp⟩
    · intro hp
      obtain ⟨c', hv, ha⟩ := taggedVarint_eq_ok (whole_encodeTagged v tag) hp
      exact ⟨c', hv.trans (by rw [taggedValue_encodeTagged]), ha.pending_of_append hp⟩

/-- A one in eight bytes, which come in two pieces with an interruption between them, in front of
another byte. -/
theorem numbers_at_every_length_padded :
    FindsNumber (.ofSource ⟨[.bytes [0x81, 0x80, 0x80], .interrupted,
      .bytes [0x80, 0x80, 0x80, 0x80, 0, 7]], .finished⟩)
      ([0x81, 0x80, 0x80, 0x80, 0x80, 0x80, 0x80] ++ [0]) [7] :=
  (numbers_at_every_length _).1 _ 0 [7] (by simp) (by decide) (by rfl)

end Reading

end JitDump
