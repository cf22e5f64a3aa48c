import Mathlib.Order.Bounds.Basic
import Mathlib.Tactic.Ring
import JitDump.Proofs.Handles

/-!
# The size of a table follows the number of its texts

A table doubles as soon as it holds more objects than its mask, and one doubling
is always enough, because objects come one by one.  So its size is told by the
size that it began with and by the number of its objects: `Grown` is preserved by
every call, and no two sizes are grown from the same size for the same number.
Which texts stand in a bucket is then told by the texts alone.
-/

namespace JitDump.Heap

/-! ## Doubling -/

/-- `size` is what `first` buckets grow to for `count` objects: doubled as often as some doubling
before was too small, as long as it could be doubled. -/
def Grown (first count size : ℕ) : Prop :=
  ∃ j, size = first * 2 ^ j ∧ (count < size ∨ 2 ^ 25 ≤ size) ∧
    ∀ i < j, first * 2 ^ i ≤ count ∧ first * 2 ^ i < 2 ^ 25

namespace Grown

variable {first count size size' : ℕ}

theorem start (h : 0 < first) : Grown first 0 first := ⟨0, by simp, .inl h, by simp⟩

/-- One object more where there is room for it, or where the table no longer grows. -/
theorem keep (h : Grown first count size) (hs : count + 1 < size ∨ 2 ^ 25 ≤ size) :
    Grown first (count + 1) size := by
  obtain ⟨j, hsize, -, hless⟩ := h
  exact ⟨j, hsize, hs, fun i hi ↦ ⟨Nat.le_succ_of_le (hless i hi).1, (hless i hi).2⟩⟩

/-- One object more than there is room for: a single doubling makes enough of it. -/
theorem double (h : Grown first count size) (hs : size ≤ count + 1) (hmax : size < 2 ^ 25) :
    Grown first (count + 1) (2 * size) := by
  obtain ⟨j, hsize, hroom, hless⟩ := h
  have hcount : count < size := hroom.resolve_right (Nat.not_le.2 hmax)
  refine ⟨j + 1, by rw [hsize, Nat.pow_succ]; ring, .inl (by omega), fun i hi ↦ ?_⟩
  rcases Nat.lt_succ_iff_lt_or_eq.1 hi with hi | rfl
  · exact ⟨Nat.le_succ_of_le (hless i hi).1, (hless i hi).2⟩
  · rw [← hsize]
    exact ⟨hs, hmax⟩

theorem le (h : Grown first count size) (h' : Grown first count size') : size ≤ size' := by
  obtain ⟨j, rfl, -, hless⟩ := h
  obtain ⟨j', rfl, hroom', -⟩ := h'
  -- a size that has room for all is reached by the last doubling at most
  have hj : j ≤ j' := by
    by_contra hlt
    obtain ⟨hcount, hmax⟩ := hless j' (Nat.not_le.1 hlt)
    rcases hroom' with hroom' | hroom' <;> omega
  exact Nat.mul_le_mul_left _ (Nat.pow_le_pow_right (by decide) hj)

theorem unique (h : Grown first count size) (h' : Grown first count size') : size = size' :=
  Nat.le_antisymm (h.le h') (h'.le h)

/-- As long as a table may grow, its mask is the least of its kind that is no less than the number
of objects. -/
theorem isLeast (h : Grown first count size) (hfirst : 0 < first) (hcount : count < 2 ^ 25) :
    IsLeast {m | (∃ j, m = first * 2 ^ j - 1) ∧ count ≤ m} (size - 1) := by
  obtain ⟨j, rfl, hroom, hless⟩ := h
  refine ⟨⟨⟨j, rfl⟩, by omega⟩, ?_⟩
  rintro m ⟨⟨i, rfl⟩, hm⟩
  have hi : j ≤ i := by
    by_contra hlt
    have hpos : 0 < first * 2 ^ i := Nat.mul_pos hfirst (Nat.pow_pos (by decide))
    have hle := (hless i (Nat.not_le.1 hlt)).1
    omega
  exact Nat.sub_le_sub_right (Nat.mul_le_mul_left _ (Nat.pow_le_pow_right (by decide) hi)) 1

end Grown

namespace StringTable

variable {t : StringTable} {s : Bytes} {texts : List Bytes} {given : List Str} {first : ℕ}

/-! ## The size of a table -/

/-- How many buckets the mask of a table spans. -/
def size (t : StringTable) : ℕ := t.mask.toNat + 1

theorem count_grow (t : StringTable) : t.grow.count = t.count := by
  rw [grow, resize]
  split
  · split <;> rfl
  · rfl

/-- Growth doubles a table that has no room, unless there would be too many buckets. -/
theorem size_grow_cases (h : t.size ≤ maxBuckets) :
    (t.size ≤ t.count ∧ t.size < 2 ^ 25 ∧ t.grow.size = 2 * t.size) ∨
      ((t.count < t.size ∨ 2 ^ 25 ≤ t.size) ∧ t.grow.size = t.size) := by
  have hmax : maxBuckets = 2 ^ 26 := rfl
  rw [size] at h ⊢
  have hmask : (t.mask <<< 1 + 1).toNat = 2 * t.mask.toNat + 1 := by
    rw [UInt32.toNat_add, UInt32.toNat_shiftLeft]
    simp only [UInt32.reduceToNat, Nat.reduceMod, Nat.shiftLeft_eq]
    omega
  rw [size, grow, resize, hmask]
  split
  case isTrue hfull =>
    split
    case isTrue hlarge => exact .inr ⟨.inr (by omega), rfl⟩
    case isFalse hsmall =>
      refine .inl ⟨by omega, by omega, ?_⟩
      dsimp only
      rw [hmask]
      omega
  case isFalse hroom => exact .inr ⟨.inl (by omega), rfl⟩

theorem mark_eq (t : StringTable) (str : Str) (l : Liveness) :
    (t.mark str l).count = t.count ∧ (t.mark str l).size = t.size := by
  rw [mark]
  split <;> exact ⟨rfl, rfl⟩

/-- A table has grown from a first size. -/
structure Sized (first : ℕ) (t : StringTable) : Prop where
  grown : Grown first t.count t.size
  le : t.size ≤ maxBuckets

/-- A first size is rounded up to a power of two, within a maximum that is one. -/
theorem size_ofMask (mask : UInt32) :
    (ofMask mask).size = min (mask.toNat + 1).nextPowerOfTwo maxBuckets :=
  (sound_ofMask mask).size.symm.trans (by simp [ofMask])

theorem exists_size_ofMask (mask : UInt32) : ∃ k, (ofMask mask).size = 2 ^ k := by
  rw [size_ofMask]
  rcases Nat.le_total (mask.toNat + 1).nextPowerOfTwo maxBuckets with hle | hle
  · rw [Nat.min_eq_left hle]
    exact Nat.isPowerOfTwo_nextPowerOfTwo _
  · rw [Nat.min_eq_right hle]
    exact ⟨26, rfl⟩

theorem sized_ofMask (mask : UInt32) : Sized (ofMask mask).size (ofMask mask) where
  grown := .start (Nat.succ_pos _)
  le := (size_ofMask mask).trans_le (Nat.min_le_right _ _)

theorem Sized.of_eq {t' : StringTable} (h : Sized first t) (hc : t'.count = t.count)
    (hs : t'.size = t.size) : Sized first t' :=
  ⟨hc ▸ hs ▸ h.grown, hs ▸ h.le⟩

/-- A new object makes a table double at most once. -/
theorem Sized.insert (h : Sized first t) (str : Str) : Sized first (t.insert str).grow := by
  have hmax : maxBuckets = 2 ^ 26 := rfl
  have hcount : (t.insert str).grow.count = t.count + 1 := count_grow _
  rcases size_grow_cases (t := t.insert str) h.le with ⟨hfull, hsmall, hsize⟩ | ⟨hroom, hsize⟩
  · constructor
    · rw [hsize, hcount]
      exact h.grown.double hfull hsmall
    · omega
  · constructor
    · rw [hsize, hcount]
      exact h.grown.keep hroom
    · exact hsize.trans_le h.le

theorem Sized.intern (h : Sized first t) (s : Bytes) : Sized first (t.intern s).2 := by
  by_cases hs : s = []
  · subst hs
    exact h
  · rcases t.intern_cases hs with ⟨str, -, heq⟩ | ⟨str, -, heq⟩ | ⟨-, heq⟩ <;> rw [heq]
    · exact h
    · exact h.of_eq (t.mark_eq str .live).1 (t.mark_eq str .live).2
    · exact h.insert _

theorem Sized.apply (h : Sized first t) (call : Call) : Sized first (call.apply t) := by
  cases call with
  | intern s => exact h.intern s
  | condemnAll => exact h.of_eq rfl rfl
  | lookup | contains | iterate => exact h

theorem Sized.after (h : Sized first t) (calls : List Call) : Sized first (after calls t) := by
  induction calls generalizing t with
  | nil => exact h
  | cons call calls ih => exact ih (h.apply call)

/-! ## What stands in a bucket -/

/-- The texts in a bucket. -/
def bucketTexts (t : StringTable) (i : ℕ) : List Bytes :=
  (t.buckets.getD i []).map fun e ↦ e.str.bytes

theorem Sound.nodup_bucketTexts (h : t.Sound) (i : ℕ) : (t.bucketTexts i).Nodup := by
  rw [bucketTexts, Array.getD_eq_getD_getElem?]
  cases hc : t.buckets[i]? with
  | none => exact List.nodup_nil
  | some chain =>
    have hmem : chain ∈ t.buckets.toList := by
      rw [← Array.getElem?_toList] at hc
      exact List.mem_of_getElem? hc
    have hsub := ((List.sublist_flatten_of_mem hmem).map Entry.str).map Str.bytes
    have hnodup := h.bytes.sublist hsub
    rwa [List.map_map] at hnodup

/-- A bucket holds the texts whose hash routes to it. -/
theorem Accounts.mem_bucketTexts_iff (h : Accounts t texts given) {i : ℕ} :
    s ∈ t.bucketTexts i ↔ (s ≠ [] ∧ s ∈ texts) ∧ slot t.mask (hashBytes s) = i := by
  rw [← h.texts, bucketTexts, List.mem_map]
  constructor
  · rintro ⟨e, he, rfl⟩
    rw [Array.getD_eq_getD_getElem?] at he
    cases hc : t.buckets[i]? with
    | none => simp [hc] at he
    | some chain =>
      rw [hc] at he
      have hobject : e.str ∈ t.objects := List.mem_map_of_mem (mem_flatten_iff.2 ⟨i, chain, hc, he⟩)
      refine ⟨List.mem_map_of_mem hobject, ?_⟩
      rw [← h.sound.hash _ hobject]
      exact h.sound.routed i chain hc e he
  · rintro ⟨hs, rfl⟩
    obtain ⟨str, hstr, rfl⟩ := List.mem_map.1 hs
    obtain ⟨e, he, rfl⟩ := List.mem_map.1 hstr
    refine ⟨e, ?_, rfl⟩
    rw [← h.sound.hash _ hstr]
    exact h.sound.routed.mem_chain he

/-! ## What the size follows -/

/-- How many texts there are, the empty one apart and each counted once. -/
def distinct (texts : List Bytes) : ℕ := (texts.filter (· ≠ [])).dedup.length

theorem Accounts.count_eq (h : Accounts t texts given) : t.count = distinct texts := by
  rw [distinct, ← h.texts_perm.length_eq, List.length_map, h.sound.length_objects]

theorem distinct_congr {texts' : List Bytes}
    (h : ∀ s, s ≠ [] → (s ∈ texts ↔ s ∈ texts')) : distinct texts = distinct texts' := by
  refine ((List.perm_ext_iff_of_nodup (List.nodup_dedup _) (List.nodup_dedup _)).2 ?_).length_eq
  intro s
  simp only [List.mem_dedup, List.mem_filter, decide_eq_true_iff]
  exact and_congr_left (h s)

/-- The size of a table follows the number of its texts, whatever its first size and whatever
calls were made. It is a power of two and that of the buckets; it leaves room for all texts unless
the table no longer grows; and while it may grow, the mask is the least that doublings of the first
size give with room for all. So the same texts, in any order, give the same size, and each bucket
the same texts. -/
theorem size_follows_texts (mask : UInt32) (calls : List Call) :
    let t := after calls (ofMask mask)
    (∃ k, t.mask.toNat + 1 = 2 ^ k) ∧ t.buckets.size = t.mask.toNat + 1 ∧
    (t.count ≤ t.mask.toNat ∨ 2 ^ 25 ≤ t.mask.toNat + 1) ∧
    (distinct (interned calls) < 2 ^ 25 → IsLeast
      {m | (∃ j, m = ((ofMask mask).mask.toNat + 1) * 2 ^ j - 1) ∧ distinct (interned calls) ≤ m}
      t.mask.toNat) ∧
    ∀ calls', (∀ s, s ≠ [] → (s ∈ interned calls ↔ s ∈ interned calls')) →
      let t' := after calls' (ofMask mask)
      t'.mask = t.mask ∧ ∀ i, (t'.bucketTexts i).Perm (t.bucketTexts i) := by
  have haccounts := (accounts_ofMask mask).after calls
  have hsized := (sized_ofMask mask).after calls
  rw [List.nil_append, List.nil_append] at haccounts
  intro t
  refine ⟨?_, haccounts.sound.size, ?_, fun hn ↦ ?_, fun calls' hsame ↦ ?_⟩
  · obtain ⟨k, hk⟩ := exists_size_ofMask mask
    obtain ⟨j, hj, -⟩ := hsized.grown
    exact ⟨k + j, hj.trans (by rw [hk, Nat.pow_add])⟩
  · obtain ⟨-, -, hroom, -⟩ := hsized.grown
    exact hroom.imp_left Nat.le_of_lt_succ
  · rw [← haccounts.count_eq] at hn ⊢
    exact hsized.grown.isLeast (Nat.succ_pos _) hn
  · have haccounts' := (accounts_ofMask mask).after calls'
    have hsized' := (sized_ofMask mask).after calls'
    rw [List.nil_append, List.nil_append] at haccounts'
    have hgrown := hsized.grown
    rw [haccounts.count_eq, distinct_congr hsame, ← haccounts'.count_eq] at hgrown
    have hmask : (after calls' (ofMask mask)).mask = t.mask :=
      UInt32.toNat_inj.1 (Nat.succ.inj (hsized'.grown.unique hgrown))
    refine ⟨hmask, fun i ↦ (List.perm_ext_iff_of_nodup (haccounts'.sound.nodup_bucketTexts i)
      (haccounts.sound.nodup_bucketTexts i)).2 fun s ↦ ?_⟩
    rw [haccounts'.mem_bucketTexts_iff, haccounts.mem_bucketTexts_iff, hmask]
    exact and_congr_left fun _ ↦ and_congr_right fun hne ↦ (hsame s hne).symm

/-- Two texts in a table of one bucket, with one of them interned twice and another looked up, and
the same two texts in the other order. -/
theorem size_follows_texts_reordered :
    let calls : List Call := [.intern [97], .lookup [99], .intern [98], .intern [97], .intern []]
    let t := after calls (ofMask 0)
    let t' := after [.intern [98], .intern [97]] (ofMask 0)
    IsLeast {m | (∃ j, m = ((ofMask 0).mask.toNat + 1) * 2 ^ j - 1) ∧ 2 ≤ m} t.mask.toNat ∧
      t'.mask = t.mask ∧ ∀ i, (t'.bucketTexts i).Perm (t.bucketTexts i) := by
  intro calls t t'
  obtain ⟨-, -, -, hleast, hsame⟩ := size_follows_texts 0 calls
  refine ⟨hleast (by decide), hsame _ fun s hs ↦ ?_⟩
  grind [interned, Call.texts]

end StringTable

end JitDump.Heap
