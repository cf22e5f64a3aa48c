import Mathlib.Tactic.Common
import JitDump.Template

/-!
# Pairs keep the order of first insertion

The pairs of a table are a list that an index speeds up.  While the index says of
every key where the list has it, a new key goes to the end and nothing else
moves.  Keys are compared by the number of their string, which an equivalence
that hashing respects.
-/

namespace JitDump

/-! ## Keys as an index sees them -/

namespace Template.Key

/-- A key without what its comparison ignores. -/
def token : Key → Key
  | .str s => .str ⟨s.id, 0, []⟩
  | k => k

theorem beq_iff {k l : Key} : (k == l) = Bool.true ↔ k.token = l.token := by
  cases k <;> cases l
  case int.int i j =>
    change (i == j) = Bool.true ↔ _
    simp [token]
  case num.num d e =>
    change (d == e) = Bool.true ↔ _
    simp [token]
  case str.str s t =>
    change (s.id == t.id) = Bool.true ↔ _
    simp [token]
  all_goals first
    | exact iff_of_true rfl rfl
    | exact iff_of_false Bool.false_ne_true (by simp [token])

theorem hash_token (k : Key) : Hashable.hash k.token = Hashable.hash k := by cases k <;> rfl

instance : EquivBEq Key where
  rfl := beq_iff.2 rfl
  symm h := beq_iff.2 (beq_iff.1 h).symm
  trans h h' := beq_iff.2 ((beq_iff.1 h).trans (beq_iff.1 h'))

instance : LawfulHashable Key where
  hash_eq k l h := by rw [← hash_token k, beq_iff.1 h, hash_token]

end Template.Key

/-! ## Pairs and their index -/

namespace Pairs

section Place

variable {κ υ : Type} [BEq κ] {k : κ} {v : υ}

/-- The pairs of a list after an insertion: a known key keeps its place and takes the value, a new
one goes to the end. -/
def place (k : κ) (v : υ) : List (κ × υ) → List (κ × υ)
  | [] => [(k, v)]
  | item :: items => if item.1 == k then (item.1, v) :: items else item :: place k v items

theorem place_of_new {items : List (κ × υ)} (h : ∀ item ∈ items, (item.1 == k) = false) :
    place k v items = items ++ [(k, v)] := by
  induction items with
  | nil => rfl
  | cons item items ih =>
    rw [List.forall_mem_cons] at h
    rw [place, h.1, if_neg Bool.false_ne_true, ih h.2, List.cons_append]

theorem place_of_known {items : List (κ × υ)} {i : Nat}
    (h : items.findIdx? (·.1 == k) = some i) :
    place k v items = items.modify i fun item ↦ (item.1, v) := by
  induction items generalizing i with
  | nil => cases h
  | cons item items ih =>
    rw [List.findIdx?_cons] at h
    rw [place]
    split at h
    · rename_i hk
      cases h
      rw [if_pos hk, List.modify_zero_cons]
    · rename_i hk
      obtain ⟨j, hj, rfl⟩ := Option.map_eq_some_iff.1 h
      rw [if_neg hk, ih hj, List.modify_succ_cons]

/-- Placing a pair adds its key at the end unless the key is known. -/
theorem keys_place (k : κ) (v : υ) (items : List (κ × υ)) :
    (place k v items).map Prod.fst =
      if items.any (·.1 == k) then items.map Prod.fst else items.map Prod.fst ++ [k] := by
  induction items with
  | nil => rfl
  | cons item items ih =>
    rw [place, List.any_cons]
    by_cases hk : (item.1 == k) = true
    · simp [hk]
    · rw [if_neg hk, List.map_cons, ih]
      simp only [hk, Bool.false_or, List.map_cons]
      split <;> rfl

end Place

variable {κ υ : Type} [BEq κ] [Hashable κ] {p : Pairs κ υ}

/-- The index says of every key where the list has it. -/
def Sound (p : Pairs κ υ) : Prop :=
  ∀ k, p.index[k]? = p.toList.findIdx? (·.1 == k)

theorem sound_empty [EquivBEq κ] [LawfulHashable κ] : (empty : Pairs κ υ).Sound := by
  intro k
  simp [empty, toList]

theorem Sound.toList_insert (h : p.Sound) (k : κ) (v : υ) :
    (p.insert k v).toList = place k v p.toList := by
  have hk := h k
  obtain ⟨items, index⟩ := p
  cases hi : index[k]? with
  | none =>
    have hnew := List.findIdx?_eq_none_iff.1 (hk.symm.trans hi)
    simp only [insert, hi, toList, Array.toList_push]
    exact (place_of_new hnew).symm
  | some i =>
    simp only [insert, hi, toList, Array.toList_modify]
    exact (place_of_known (hk.symm.trans hi)).symm

theorem Sound.insert [EquivBEq κ] [LawfulHashable κ] (h : p.Sound) (k : κ) (v : υ) :
    (p.insert k v).Sound := by
  intro l
  have hcomp : (fun item : κ × υ ↦ item.1 == l) = (· == l) ∘ Prod.fst := rfl
  have hk := h k
  have hl := h l
  rw [h.toList_insert, hcomp, ← List.findIdx?_map, keys_place, ← List.findIdx?_isSome, ← hk]
  rw [hcomp, ← List.findIdx?_map] at hl
  obtain ⟨items, index⟩ := p
  cases hi : index[k]? with
  | some i =>
    simp only [Pairs.insert, hi, Option.isSome_some, if_true]
    exact hl
  | none =>
    simp only [Pairs.insert, hi, Std.HashMap.getElem?_insert, Option.isSome_none,
      Bool.false_eq_true, if_false, List.findIdx?_append, ← hl]
    by_cases hkl : (k == l) = true
    · -- keys that are the same are both new
      have hnew : index[l]? = none := by
        rw [← Std.HashMap.getElem?_congr hkl]
        exact hi
      simp [hkl, hnew, toList, List.findIdx?_cons]
    · simp [hkl, List.findIdx?_cons]

/-- Insertion brings in no key and no value but those given. -/
theorem of_mem_insert {k : κ} {v : υ} {item : κ × υ} (h : item ∈ (p.insert k v).toList) :
    (item.1 = k ∨ ∃ old ∈ p.toList, item.1 = old.1) ∧
      (item.2 = v ∨ ∃ old ∈ p.toList, item.2 = old.2) := by
  obtain ⟨items, index⟩ := p
  simp only [Pairs.insert] at h
  split at h
  · rename_i i hi
    simp only [toList, Array.toList_modify] at h
    obtain ⟨j, hj⟩ := List.mem_iff_getElem?.1 h
    rw [List.getElem?_modify] at hj
    obtain ⟨old, ho, rfl⟩ := Option.map_eq_some_iff.1 hj
    have hmem := List.mem_of_getElem? ho
    refine ⟨.inr ⟨old, hmem, ?_⟩, ?_⟩
    · split <;> rfl
    · split
      · exact .inl rfl
      · exact .inr ⟨old, hmem, rfl⟩
  · simp only [toList, Array.toList_push, List.mem_append, List.mem_singleton] at h
    rcases h with h | rfl
    · exact ⟨.inr ⟨item, h, rfl⟩, .inr ⟨item, h, rfl⟩⟩
    · exact ⟨.inl rfl, .inl rfl⟩

end Pairs

end JitDump
