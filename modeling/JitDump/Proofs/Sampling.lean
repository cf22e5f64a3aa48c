import Mathlib.Data.Nat.PSub
import JitDump.Heap.Hash

/-!
# What the hash of a string reads

The hash cuts windows out of a string, and cutting never fails: a window beyond
the end would be short, and an offset below zero would be zero.  `hashBy?` is the
hash over a string that is known only by its reads.  A read may miss there, and an
offset may fail to exist.  That it always succeeds, and with the same hash, is what
being in bounds comes to; and what it reads is all that the hash depends on.
-/

namespace JitDump.Heap

variable {read read' : ℕ → Option UInt8} {n i width : ℕ} {s t : Bytes}

/-! ## Reads that may miss -/

/-- So many bytes from an offset on, one read after another. -/
def readBytes? (read : ℕ → Option UInt8) (i : ℕ) : ℕ → Option Bytes
  | 0 => some []
  | width + 1 => do
    let b ← read i
    let rest ← readBytes? read (i + 1) width
    return b :: rest

/-- A sample of some width, from an offset on. -/
def sampleAt? (read : ℕ → Option UInt8) (width i : ℕ) : Option UInt32 :=
  (readBytes? read i width).map spelled

/-- The hash of a string of `n` bytes by its reads. -/
def hashBy? (read : ℕ → Option UInt8) (n : ℕ) : Option UInt32 :=
  if 4 ≤ n then do
    let first ← sampleAt? read 4 0
    let last ← sampleAt? read 4 (← n.psub 4)
    let middle ← sampleAt? read 4 (← (n / 2).psub 2)
    let quarter ← sampleAt? read 4 (← (n / 4).psub 1)
    return hashSamples n first last middle quarter
  else do
    let first ← sampleAt? read 1 0
    let last ← sampleAt? read 1 (← n.psub 1)
    let middle ← sampleAt? read 1 (n / 2)
    return hashSamples n first last middle 0

/-- The bytes of a string that are there come as they are. -/
theorem readBytes?_getElem? (h : i + width ≤ s.length) :
    readBytes? (s[·]?) i width = some ((s.drop i).take width) := by
  induction width generalizing i with
  | zero => rfl
  | succ width ih =>
    have hi : i < s.length := by omega
    rw [readBytes?, ih (by omega), List.getElem?_eq_getElem hi, List.drop_eq_getElem_cons hi,
      List.take_succ_cons]
    rfl

theorem sampleAt?_getElem? (h : i + width ≤ s.length) :
    sampleAt? (s[·]?) width i = some (spelled ((s.drop i).take width)) :=
  congrArg (Option.map spelled) (readBytes?_getElem? h)

/-- Four bytes are enough for four windows of four: none begins before the string or ends behind
it. -/
theorem hashBy?_of_le (h : 4 ≤ s.length) : hashBy? (s[·]?) s.length = some (hashBytes s) := by
  rw [hashBy?, if_pos h, Nat.psub_eq_sub h, Nat.psub_eq_sub (by omega), Nat.psub_eq_sub (by omega)]
  simp only [Option.bind_eq_bind, Option.bind_some]
  rw [sampleAt?_getElem? (by omega), sampleAt?_getElem? (by omega), sampleAt?_getElem? (by omega),
    sampleAt?_getElem? (by omega), hashBytes, samples, sampleOffsets, if_pos h, sampleWidth,
    if_pos h]
  rfl

/-- One byte is enough for three samples of one. -/
theorem hashBy?_of_lt (hs : s ≠ []) (h : s.length < 4) :
    hashBy? (s[·]?) s.length = some (hashBytes s) := by
  have hpos : 1 ≤ s.length := List.length_pos_iff.2 hs
  have hn := Nat.not_le.2 h
  rw [hashBy?, if_neg hn, Nat.psub_eq_sub hpos]
  simp only [Option.bind_eq_bind, Option.bind_some]
  rw [sampleAt?_getElem? (by omega), sampleAt?_getElem? (by omega), sampleAt?_getElem? (by omega),
    hashBytes, samples, sampleOffsets, if_neg hn, if_neg (by omega), sampleWidth, if_neg hn]
  rfl

/-! ## What is sampled -/

/-- The byte at `i` is in a sample of a string of `n` bytes. -/
def Sampled (n i : ℕ) : Prop :=
  if 4 ≤ n then ∃ offset ∈ [0, n - 4, n / 2 - 2, n / 4 - 1], offset ≤ i ∧ i < offset + 4
  else i = 0 ∨ i = n / 2 ∨ i = n - 1

instance : Decidable (Sampled n i) := inferInstanceAs (Decidable (if 4 ≤ n then _ else _))

theorem Sampled.lt (h : Sampled n i) (hn : n ≠ 0) : i < n := by
  rw [Sampled] at h
  split at h
  · simp only [List.mem_cons, List.not_mem_nil, or_false] at h
    obtain ⟨offset, rfl | rfl | rfl | rfl, -, hi⟩ := h <;> omega
  · omega

theorem readBytes?_congr (h : ∀ j, i ≤ j → j < i + width → read j = read' j) :
    readBytes? read i width = readBytes? read' i width := by
  induction width generalizing i with
  | zero => rfl
  | succ width ih =>
    rw [readBytes?, readBytes?, h i (Nat.le_refl i) (by omega),
      ih fun j hij hj ↦ h j (by omega) (by omega)]

/-- Reads that agree on the samples give one hash. -/
theorem hashBy?_congr (h : ∀ i, Sampled n i → read i = read' i) :
    hashBy? read n = hashBy? read' n := by
  have hsample : ∀ width offset, (∀ j, offset ≤ j → j < offset + width → Sampled n j) →
      sampleAt? read width offset = sampleAt? read' width offset := fun width offset hj ↦
    congrArg (Option.map spelled) (readBytes?_congr fun j hle hlt ↦ h j (hj j hle hlt))
  rw [hashBy?, hashBy?]
  by_cases hn : 4 ≤ n
  · have hwindow : ∀ offset ∈ [0, n - 4, n / 2 - 2, n / 4 - 1],
        sampleAt? read 4 offset = sampleAt? read' 4 offset := fun offset ho ↦
      hsample 4 offset fun j hle hlt ↦ by
        rw [Sampled, if_pos hn]
        exact ⟨offset, ho, hle, hlt⟩
    rw [if_pos hn, if_pos hn, Nat.psub_eq_sub hn, Nat.psub_eq_sub (by omega),
      Nat.psub_eq_sub (by omega)]
    simp only [Option.bind_eq_bind, Option.bind_some]
    rw [hwindow 0 (by simp), hwindow (n - 4) (by simp), hwindow (n / 2 - 2) (by simp),
      hwindow (n / 4 - 1) (by simp)]
  · have hbyte : ∀ offset, (offset = 0 ∨ offset = n / 2 ∨ offset = n - 1) →
        sampleAt? read 1 offset = sampleAt? read' 1 offset := fun offset ho ↦
      hsample 1 offset fun j hle hlt ↦ by
        rw [Sampled, if_neg hn]
        omega
    rw [if_neg hn, if_neg hn, hbyte 0 (.inl rfl), hbyte (n / 2) (.inr (.inl rfl))]
    cases hlast : n.psub 1 with
    | none => rfl
    | some offset =>
      have heq := Nat.psub_eq_some.1 hlast
      simp only [Option.bind_eq_bind, Option.bind_some]
      rw [hbyte offset (.inr (.inr (by omega)))]

theorem hashBy?_eq (hs : s ≠ []) : hashBy? (s[·]?) s.length = some (hashBytes s) := by
  rcases Nat.lt_or_ge s.length 4 with h | h
  · exact hashBy?_of_lt hs h
  · exact hashBy?_of_le h

/-- The hash of a string reads in bounds and depends on its samples alone. A string that is not
empty is hashed without a read beyond its end and without an offset below zero, and strings of one
length that agree on their samples have one hash, whatever their other bytes are. -/
theorem hash_reads_only_samples :
    (∀ s : Bytes, s ≠ [] → hashBy? (s[·]?) s.length = some (hashBytes s) ∧
      ∀ i, Sampled s.length i → i < s.length) ∧
    ∀ s t : Bytes, s.length = t.length → (∀ i, Sampled s.length i → s[i]? = t[i]?) →
      hashBytes s = hashBytes t := by
  refine ⟨fun s hs ↦ ⟨hashBy?_eq hs, fun i hi ↦ hi.lt (mt List.length_eq_zero_iff.1 hs)⟩, ?_⟩
  intro s t hlength hagree
  by_cases hs : s = []
  · subst hs
    rw [List.eq_nil_of_length_eq_zero hlength.symm]
  · have ht : t ≠ [] := fun ht ↦ hs (List.eq_nil_of_length_eq_zero (by rw [hlength, ht]; rfl))
    have heq := (hashBy?_eq hs).symm.trans ((hashBy?_congr hagree).trans (hlength ▸ hashBy?_eq ht))
    exact Option.some.inj heq

/-- Two strings that differ in the three bytes that no sample of seventeen bytes has. -/
theorem hash_reads_only_samples_collided :
    let s : Bytes := List.replicate 17 97
    let t : Bytes := s.take 10 ++ [98, 99, 100] ++ s.drop 13
    s ≠ [] ∧ hashBy? (s[·]?) 17 = some (hashBytes s) ∧
      s.length = t.length ∧ s ≠ t ∧ hashBytes s = hashBytes t := by
  intro s t
  have hagree : ∀ i < 17, Sampled 17 i → s[i]? = t[i]? := by decide
  obtain ⟨hbounds, hsame⟩ := hash_reads_only_samples
  obtain ⟨hhash, hlt⟩ := hbounds s (by decide)
  exact ⟨by decide, hhash, rfl, by decide, hsame s t rfl fun i hi ↦ hagree i (hlt i hi) hi⟩

end JitDump.Heap
