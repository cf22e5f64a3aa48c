import JitDump.Proofs.Growth

/-!
# What growth does to the chains

Rehashing takes the entries one by one, old buckets in order and each chain from
its head, and links each at the head of its new chain.  So a new chain holds what
routes to it in the order opposite to that in which it was met.  In a table whose
size is a power of two, doubled, all of a new chain was met in one old chain, and
the order of a visit after growth is told by the order of a visit before it.
-/

namespace JitDump.Heap.StringTable

variable {t : StringTable} {mask : UInt32} {buckets : Array (List Entry)} {e : Entry}

/-! ## Linking -/

/-- The entries that a mask routes to a bucket, the last of them first. -/
def movedTo (mask : UInt32) (j : ℕ) (entries : List Entry) : List Entry :=
  (entries.filter fun e ↦ slot mask e.str.hash = j).reverse

theorem movedTo_cons (j : ℕ) (entries : List Entry) :
    movedTo mask j (e :: entries) =
      movedTo mask j entries ++ if slot mask e.str.hash = j then [e] else [] := by
  rw [movedTo, List.filter_cons]
  by_cases h : slot mask e.str.hash = j
  · rw [if_pos (decide_eq_true h), if_pos h, List.reverse_cons, movedTo]
  · rw [if_neg (by simpa using h), if_neg h, List.append_nil, movedTo]

/-- Linking an entry changes the chain of its bucket and no other. -/
theorem getElem?_link (mask : UInt32) (buckets : Array (List Entry)) (e : Entry) (j : ℕ) :
    (link mask buckets e)[j]? =
      buckets[j]?.map fun chain ↦ if slot mask e.str.hash = j then e :: chain else chain := by
  rw [link, Array.getElem?_modify]
  split
  · rfl
  · exact (Option.map_id' (x := _)).symm

/-- Linking entries one by one puts those of a bucket in front of its chain. -/
theorem getElem?_foldl_link (entries : List Entry) (buckets : Array (List Entry)) (j : ℕ) :
    (entries.foldl (link mask) buckets)[j]? =
      buckets[j]?.map fun chain ↦ movedTo mask j entries ++ chain := by
  induction entries generalizing buckets with
  | nil => exact (Option.map_id' (x := _)).symm
  | cons e entries ih =>
    rw [List.foldl_cons, ih, getElem?_link, Option.map_map]
    refine Option.map_congr fun chain _ ↦ ?_
    rw [movedTo_cons, List.append_assoc, Function.comp_apply]
    split <;> rfl

/-- A new chain holds all that routes to it, of all old chains. -/
theorem getElem?_rehash (mask : UInt32) (buckets : Array (List Entry)) (j : ℕ) :
    (rehash mask buckets)[j]? =
      if j < mask.toNat + 1 then some (movedTo mask j buckets.toList.flatten) else none := by
  rw [rehash, ← Array.foldl_toList, ← List.foldl_flatten, getElem?_foldl_link,
    Array.getElem?_replicate]
  split
  · exact congrArg some (List.append_nil _)
  · rfl

/-! ## Doubling -/

/-- A table as every call leaves it. -/
structure WellFormed (t : StringTable) : Prop where
  sound : t.Sound
  isPow : ∃ k, t.mask.toNat + 1 = 2 ^ k

theorem wellFormed_after (mask : UInt32) (calls : List Call) :
    (after calls (ofMask mask)).WellFormed where
  sound := ((accounts_ofMask mask).after calls).sound
  isPow := by
    obtain ⟨k, hk⟩ := exists_size_ofMask mask
    obtain ⟨j, hj, -⟩ := ((sized_ofMask mask).after calls).grown
    exact ⟨k + j, hj.trans (by rw [hk, Nat.pow_add])⟩

/-- The chain of a bucket. -/
def bucket (t : StringTable) (i : ℕ) : List Entry := t.buckets.getD i []

/-- What the doubled mask routes to a bucket the mask itself routes to the bucket that is left when
the new bit is taken off. -/
theorem slot_eq_and {hash : UInt32} {old : UInt32} (hpow : ∃ k, old.toNat + 1 = 2 ^ k)
    (hmask : mask.toNat = 2 * old.toNat + 1) : slot old hash = slot mask hash &&& old.toNat := by
  obtain ⟨k, hk⟩ := hpow
  have hold : old.toNat = 2 ^ k - 1 := by omega
  have hnew : mask.toNat = 2 ^ (k + 1) - 1 := by
    rw [hmask, Nat.pow_succ]
    omega
  rw [slot, slot, UInt32.toNat_and, UInt32.toNat_and, hnew, hold, Nat.and_two_pow_sub_one_eq_mod,
    Nat.and_two_pow_sub_one_eq_mod, Nat.and_two_pow_sub_one_eq_mod]
  exact (Nat.mod_mod_of_dvd _ (Nat.pow_dvd_pow 2 k.le_succ)).symm

/-- Where all but one part of a list of lists is empty, that part is the whole. -/
theorem flatten_eq_getD {α : Type} {parts : List (List α)} {i : ℕ}
    (h : ∀ j part, parts[j]? = some part → j ≠ i → part = []) :
    parts.flatten = parts.getD i [] := by
  induction parts generalizing i with
  | nil => rfl
  | cons part parts ih =>
    cases i with
    | zero =>
      have hrest : parts.flatten = [] := by
        rw [List.flatten_eq_nil_iff]
        intro p hp
        obtain ⟨j, hj⟩ := List.mem_iff_getElem?.1 hp
        exact h (j + 1) p hj (Nat.succ_ne_zero j)
      rw [List.flatten_cons, hrest, List.append_nil]
      rfl
    | succ i =>
      rw [List.flatten_cons, h 0 part rfl (Nat.succ_ne_zero i).symm, List.nil_append]
      exact ih fun j p hj hne ↦ h (j + 1) p hj fun heq ↦ hne (Nat.succ.inj heq)

/-- All that a doubled mask routes to a bucket comes from one chain. -/
theorem WellFormed.movedTo_entries (h : t.WellFormed) (hmask : mask.toNat = 2 * t.mask.toNat + 1)
    (j : ℕ) : movedTo mask j t.entries = movedTo mask j (t.bucket (j &&& t.mask.toNat)) := by
  have hone : ∀ i part, (t.buckets.toList.map (List.filter fun e ↦ slot mask e.str.hash = j))[i]? =
      some part → i ≠ j &&& t.mask.toNat → part = [] := by
    intro i part hpart hne
    rw [List.getElem?_map] at hpart
    obtain ⟨chain, hchain, rfl⟩ := Option.map_eq_some_iff.1 hpart
    rw [Array.getElem?_toList] at hchain
    refine List.filter_eq_nil_iff.2 fun e he hj ↦ hne ?_
    rw [decide_eq_true_eq] at hj
    rw [← h.sound.routed i chain hchain e he, slot_eq_and h.isPow hmask, hj]
  rw [movedTo, movedTo, entries, List.filter_flatten, flatten_eq_getD hone, bucket,
    List.getD_eq_getElem?_getD, List.getElem?_map, Array.getElem?_toList,
    Array.getD_eq_getD_getElem?]
  cases t.buckets[j &&& t.mask.toNat]? <;> rfl

/-! ## Growth -/

/-- The entries of a rehashed table, bucket by bucket. -/
theorem flatten_rehash (mask : UInt32) (buckets : Array (List Entry)) :
    (rehash mask buckets).toList.flatten =
      (List.range (mask.toNat + 1)).flatMap fun j ↦ movedTo mask j buckets.toList.flatten := by
  rw [List.flatMap_def]
  refine congrArg List.flatten (List.ext_getElem? fun j ↦ ?_)
  rw [Array.getElem?_toList, getElem?_rehash, List.getElem?_map]
  split
  case isTrue h => rw [List.getElem?_range h, Option.map_some]
  case isFalse h => rw [List.getElem?_eq_none (by simpa using h), Option.map_none]

/-- The objects that a mask routes to a bucket, the last of them first. -/
theorem map_movedTo (j : ℕ) (entries : List Entry) :
    (movedTo mask j entries).map Entry.str =
      ((entries.map Entry.str).filter fun a ↦ slot mask a.hash = j).reverse := by
  rw [movedTo, List.map_reverse, List.filter_map]
  rfl

theorem WellFormed.resize (h : t.WellFormed) (hmask : mask.toNat = 2 * t.mask.toNat + 1) :
    (t.resize mask).WellFormed where
  sound := (h.sound.resize mask).sound
  isPow := by
    rw [StringTable.resize]
    split
    · exact h.isPow
    · obtain ⟨k, hk⟩ := h.isPow
      exact ⟨k + 1, by rw [Nat.pow_succ, ← hk, hmask]; omega⟩

/-- Growth rehashes every chain exactly. In a well-formed table that is doubled within the limit,
each new chain holds the entries of one old chain, in the order opposite to that of the old chain:
objects and flags are as they were, and nothing is lost or comes in. A visit of the table comes to
the same objects as before, in an order that the order before tells. -/
theorem resize_rehashes_exactly (h : t.WellFormed) (hmask : mask.toNat = 2 * t.mask.toNat + 1)
    (hcap : mask.toNat < maxBuckets - 1) :
    let t' := t.resize mask
    t'.WellFormed ∧ t'.mask = mask ∧ t'.count = t.count ∧ t'.empty = t.empty ∧
    (∀ j, t'.buckets[j]? =
      if j < mask.toNat + 1 then
        some ((t.bucket (j &&& t.mask.toNat)).filter fun e ↦ slot mask e.str.hash = j).reverse
      else none) ∧
    t'.iter.visited = ((List.range (mask.toNat + 1)).flatMap fun j ↦
      (t.iter.visited.filter fun a ↦ slot mask a.hash = j).reverse) ∧
    t'.iter.visited.Perm t.iter.visited := by
  have hresize : t.resize mask = { t with buckets := rehash mask t.buckets, mask := mask } := by
    rw [StringTable.resize, if_neg (Nat.not_le.2 hcap)]
  refine ⟨h.resize hmask, congrArg (·.mask) hresize, congrArg (·.count) hresize,
    congrArg (·.empty) hresize, fun j ↦ ?_, ?_, ?_⟩
  · rw [congrArg StringTable.buckets hresize, getElem?_rehash]
    exact if_congr Iff.rfl (congrArg some (h.movedTo_entries hmask j)) rfl
  · rw [visited_iter, visited_iter, objects, objects, entries, congrArg StringTable.buckets hresize,
      flatten_rehash, List.map_flatMap]
    exact List.flatMap_congr fun j _ ↦ map_movedTo j t.entries
  · rw [visited_iter, visited_iter]
    exact (h.sound.resize mask).objects

/-- Three texts in one chain, one of which the new bit sends to another bucket than the others. -/
theorem resize_rehashes_split_chain :
    let t := after [.intern [98], .intern [100], .intern [105]] (ofMask 3)
    t.WellFormed ∧ (7 : UInt32).toNat = 2 * t.mask.toNat + 1 ∧
    (t.bucket 0).map (·.str.bytes) = [[105], [100], [98]] ∧
    (t.resize 7).buckets[0]?.map (List.map (·.str.bytes)) = some [[98], [105]] ∧
    (t.resize 7).buckets[4]?.map (List.map (·.str.bytes)) = some [[100]] := by
  intro t
  have hmask : (7 : UInt32).toNat = 2 * t.mask.toNat + 1 := by decide +kernel
  obtain ⟨-, -, -, -, hbuckets, -, -⟩ :=
    resize_rehashes_exactly (wellFormed_after 3 _) hmask (by decide)
  refine ⟨wellFormed_after 3 _, hmask, by decide +kernel, ?_, ?_⟩
  · rw [hbuckets]
    decide +kernel
  · rw [hbuckets]
    decide +kernel

end JitDump.Heap.StringTable
