import Mathlib.Tactic.Common
import JitDump.Text.Utf8

/-!
# Reading back what is encoded

The bytes of a text are cut into its characters again, with no part broken, so
lossy text loses nothing of a text.
-/

namespace JitDump.Utf8

/-! ## The bytes of a text -/

theorem toList_loop (b : ByteArray) (i : Nat) (r : List UInt8) :
    ByteArray.toList.loop b i r = r.reverse ++ b.data.toList.drop i := by
  induction i, r using ByteArray.toList.loop.induct b with
  | case1 i r h ih =>
    have hi : i < b.data.toList.length := by rwa [Array.length_toList]
    have hget : b.get! i = b.data.toList[i] := getElem!_pos b.data i h
    rw [ByteArray.toList.loop, if_pos h, ih, List.drop_eq_getElem_cons hi, List.reverse_cons,
      List.append_assoc, hget]
    rfl
  | case2 i r h =>
    have hi : b.data.toList.length ≤ i := by
      rw [Array.length_toList]
      exact Nat.not_lt.1 h
    rw [ByteArray.toList.loop, if_neg h, List.drop_eq_nil_of_le hi, List.append_nil]

/-- The bytes of a text are those of its characters. -/
theorem encode_eq (t : String) : encode t = t.toList.flatMap String.utf8EncodeChar := by
  rw [encode, String.toUTF8, ByteArray.toList, toList_loop, ← String.utf8Encode_toList,
    List.utf8Encode, List.toList_data_toByteArray]
  rfl

/-! ## Cutting them into characters -/

section Bytes

variable {n value owed : Nat} {low high : UInt8} {ps : List (Option Char)}

theorem lead_one (h : n < 0x80) : Progress.lead ps (.ofNat n) = ⟨some (.ofNat n) :: ps, none⟩ := by
  have hn : (UInt8.ofNat n).toNat = n := UInt8.toNat_ofNat_of_lt' (by rw [UInt8.size]; omega)
  rw [Progress.lead, if_pos (by rw [UInt8.lt_iff_toNat_lt, hn]; exact h), hn]

theorem lead_two (hl : 0xc2 ≤ n) (hu : n < 0xe0) :
    Progress.lead ps (.ofNat n) = ⟨ps, some ⟨n % 32, 1, 0x80, 0xbf⟩⟩ := by
  have hn : (UInt8.ofNat n).toNat = n := UInt8.toNat_ofNat_of_lt' (by rw [UInt8.size]; omega)
  simp only [Progress.lead, UInt8.lt_iff_toNat_lt, hn, UInt8.reduceToNat]
  rw [if_neg (by omega), if_neg (by omega), if_pos hu]

theorem lead_three (hl : 0xe0 ≤ n) (hu : n < 0xf0) :
    Progress.lead ps (.ofNat n) = ⟨ps, some ⟨n % 16, 2, if n = 0xe0 then 0xa0 else 0x80,
      if n = 0xed then 0x9f else 0xbf⟩⟩ := by
  have hn : (UInt8.ofNat n).toNat = n := UInt8.toNat_ofNat_of_lt' (by rw [UInt8.size]; omega)
  simp only [Progress.lead, UInt8.lt_iff_toNat_lt, ← UInt8.toNat_inj, hn, UInt8.reduceToNat]
  rw [if_neg (by omega), if_neg (by omega), if_neg (by omega), if_pos hu]

theorem lead_four (hl : 0xf0 ≤ n) (hu : n < 0xf5) :
    Progress.lead ps (.ofNat n) = ⟨ps, some ⟨n % 8, 3, if n = 0xf0 then 0x90 else 0x80,
      if n = 0xf4 then 0x8f else 0xbf⟩⟩ := by
  have hn : (UInt8.ofNat n).toNat = n := UInt8.toNat_ofNat_of_lt' (by rw [UInt8.size]; omega)
  simp only [Progress.lead, UInt8.lt_iff_toNat_lt, ← UInt8.toNat_inj, hn, UInt8.reduceToNat]
  rw [if_neg (by omega), if_neg (by omega), if_neg (by omega), if_neg (by omega), if_pos hu]

theorem step_none (b : UInt8) : Progress.step ⟨ps, none⟩ b = Progress.lead ps b := rfl

/-- A byte that continues a character adds six bits to it. -/
theorem step_begun (hl : low.toNat ≤ n % 64 + 128) (hu : n % 64 + 128 ≤ high.toNat) :
    Progress.step ⟨ps, some ⟨value, owed, low, high⟩⟩ (.ofNat (n % 64 + 128)) =
      if owed = 1 then ⟨some (.ofNat (value * 64 + n % 64)) :: ps, none⟩
      else ⟨ps, some ⟨value * 64 + n % 64, owed - 1, 0x80, 0xbf⟩⟩ := by
  have hn : (UInt8.ofNat (n % 64 + 128)).toNat = n % 64 + 128 :=
    UInt8.toNat_ofNat_of_lt' (by rw [UInt8.size]; omega)
  have hmod : (n % 64 + 128) % 64 = n % 64 := by omega
  simp only [Progress.step, UInt8.le_iff_toNat_le, hn, hl, hu, and_self, if_true, hmod]

end Bytes

/-- The bytes of a character are its part. -/
theorem foldl_utf8EncodeChar (c : Char) (ps : List (Option Char)) :
    (String.utf8EncodeChar c).foldl Progress.step ⟨ps, none⟩ = ⟨some c :: ps, none⟩ := by
  have hvalid : c.val.toNat < 0xd800 ∨ 0xdfff < c.val.toNat ∧ c.val.toNat < 0x110000 := c.valid
  have hc : Char.ofNat c.val.toNat = c := c.ofNat_toNat
  rw [String.utf8EncodeChar]
  generalize c.val.toNat = v at hvalid hc
  subst hc
  split_ifs with h₁ h₂ h₃
  · exact lead_one (by omega)
  · have hv : (v / 64 % 32 + 192) % 32 * 64 + v % 64 = v := by omega
    rw [List.foldl_cons, List.foldl_cons, List.foldl_nil, step_none,
      lead_two (by omega) (by omega), step_begun (by simp) (by simp; omega), if_pos rfl, hv]
  · have hv : ((v / 4096 % 16 + 224) % 16 * 64 + v / 64 % 64) * 64 + v % 64 = v := by omega
    rw [List.foldl_cons, List.foldl_cons, List.foldl_cons, List.foldl_nil, step_none,
      lead_three (by omega) (by omega), step_begun, if_neg (by decide),
      step_begun (by simp) (by simp; omega), if_pos rfl, hv]
    · split <;> simp
      omega
    · split <;> simp <;> omega
  · have hv : (((v / 262144 % 8 + 240) % 8 * 64 + v / 4096 % 64) * 64 + v / 64 % 64) * 64 +
        v % 64 = v := by omega
    rw [List.foldl_cons, List.foldl_cons, List.foldl_cons, List.foldl_cons, List.foldl_nil,
      step_none, lead_four (by omega) (by omega), step_begun, if_neg (by decide),
      step_begun (by simp) (by simp; omega), if_neg (by decide),
      step_begun (by simp) (by simp; omega), if_pos rfl, hv]
    · split <;> simp
      omega
    · split <;> simp <;> omega

theorem foldl_encode (cs : List Char) (ps : List (Option Char)) :
    (cs.flatMap String.utf8EncodeChar).foldl Progress.step ⟨ps, none⟩ =
      ⟨(cs.map some).reverse ++ ps, none⟩ := by
  induction cs generalizing ps with
  | nil => rfl
  | cons c cs ih =>
    rw [List.flatMap_cons, List.foldl_append, foldl_utf8EncodeChar, ih, List.map_cons,
      List.reverse_cons, List.append_assoc, List.singleton_append]

/-- The parts of a text are its characters. -/
theorem parts_encode (t : String) : parts (encode t) = t.toList.map some := by
  rw [parts, encode_eq, Progress.start, foldl_encode, Progress.finish, List.append_nil,
    List.reverse_reverse]

theorem lossy_encode (t : String) : lossy (encode t) = t := by
  rw [lossy, parts_encode, List.map_map]
  have hid : (fun c : Char ↦ (some c).getD '\uFFFD') = id := rfl
  rw [Function.comp_def, hid, List.map_id, String.ofList_toList]

/-- The bytes of some text. -/
def Valid (s : Bytes) : Prop := ∃ t : String, encode t = s

/-- Texts are told apart by their bytes. -/
theorem encode_inj {t t' : String} : encode t = encode t' ↔ t = t' :=
  ⟨fun h ↦ by rw [← lossy_encode t, h, lossy_encode], congrArg encode⟩

/-- Bytes of texts are told apart by what is shown of them. -/
theorem lossy_inj {s s' : Bytes} (hs : Valid s) (hs' : Valid s') (h : lossy s = lossy s') :
    s = s' := by
  obtain ⟨t, rfl⟩ := hs
  obtain ⟨t', rfl⟩ := hs'
  rw [lossy_encode, lossy_encode] at h
  rw [h]

end JitDump.Utf8
