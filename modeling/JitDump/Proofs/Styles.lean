import JitDump.Proofs.Lossless

/-!
# Two styles, one document

A document in lines and the same document on one line differ in blanks that
stand outside of strings, and in nothing else.  What is a string is told by a
reader that knows of quotes and backslashes only.  The two texts are taken
together, token by token: a relation that holds of tokens and blanks and is
closed under joining holds of the two texts of any document.
-/

namespace JitDump.Json

/-! ## Blanks outside of strings -/

/-- Where a character of a document stands: outside of strings, inside of one, or inside of one
and behind the backslash that escapes it. -/
inductive Place where
  | outside
  | inside
  | escaped
deriving DecidableEq, Repr

/-- Where the character behind another one stands. -/
def Place.next : Place → Char → Place
  | .outside, c => if c = '"' then .inside else .outside
  | .inside, c => if c = '"' then .outside else if c = '\\' then .escaped else .inside
  | .escaped, _ => .inside

/-- Deletes the spaces and newlines that stand outside of strings. -/
def squeeze (place : Place) : List Char → List Char
  | [] => []
  | c :: cs =>
    if place = .outside ∧ (c = ' ' ∨ c = '\n') then squeeze place cs
    else c :: squeeze (place.next c) cs

/-- Characters that stand outside of strings, opening no string that they do not close, and that
come to `ds` when they are squeezed. -/
def Squeezes (cs ds : List Char) : Prop :=
  ∀ r, squeeze .outside (cs ++ r) = ds ++ squeeze .outside r

theorem Squeezes.append {cs cs' ds ds' : List Char} (h : Squeezes cs ds) (h' : Squeezes cs' ds') :
    Squeezes (cs ++ cs') (ds ++ ds') := fun r ↦ by
  rw [List.append_assoc, h, h', List.append_assoc]

theorem Squeezes.eq {cs ds : List Char} (h : Squeezes cs ds) : squeeze .outside cs = ds := by
  simpa [squeeze] using h []

theorem squeezes_blanks {cs : List Char} (h : ∀ c ∈ cs, c = ' ' ∨ c = '\n') : Squeezes cs [] := by
  induction cs with
  | nil => exact fun _ ↦ rfl
  | cons c cs ih =>
    rw [List.forall_mem_cons] at h
    intro r
    rw [List.cons_append, squeeze, if_pos ⟨rfl, h.1⟩, ih h.2]

/-- A character that is no blank and opens no string. -/
def isSolid (c : Char) : Bool := c != ' ' && c != '\n' && c != '"'

theorem squeezes_solid {cs : List Char} (h : ∀ c ∈ cs, isSolid c = true) : Squeezes cs cs := by
  induction cs with
  | nil => exact fun _ ↦ rfl
  | cons c cs ih =>
    rw [List.forall_mem_cons] at h
    obtain ⟨hc, hcs⟩ := h
    simp only [isSolid, Bool.and_eq_true, bne_iff_ne] at hc
    intro r
    rw [List.cons_append, squeeze, if_neg (by simp [hc]), Place.next, if_neg hc.2, ih hcs,
      List.cons_append]

/-- A character that neither ends a string nor escapes another character, and ends no line. -/
def isInner (c : Char) : Bool := c != '"' && c != '\\' && c != '\n'

theorem squeeze_inner {cs : List Char} (h : ∀ c ∈ cs, isInner c = true) (r : List Char) :
    squeeze .inside (cs ++ r) = cs ++ squeeze .inside r := by
  induction cs with
  | nil => rfl
  | cons c cs ih =>
    rw [List.forall_mem_cons] at h
    obtain ⟨hc, hcs⟩ := h
    simp only [isInner, Bool.and_eq_true, bne_iff_ne] at hc
    rw [List.cons_append, squeeze, if_neg (by simp), Place.next, if_neg hc.1.1, if_neg hc.1.2,
      ih hcs, List.cons_append]

/-- An escaped character is an escape sequence or stands for itself. -/
theorem escape_cases (c : Char) :
    (∃ d cs, (escape c).toList = '\\' :: d :: cs ∧ d ≠ '\n' ∧ ∀ e ∈ cs, isInner e = true) ∨
      (escape c).toList = [c] ∧ isInner c = true := by
  have hnumeral : ∀ n < 32, (Hex.padded 4 n).toList.all isInner = true := by decide
  rw [escape]
  split_ifs with h₁ h₂ h₃ h₄ h₅ h₆ h₇ h₈
  · exact .inl ⟨'"', [], rfl, by decide, by simp⟩
  · exact .inl ⟨'\\', [], rfl, by decide, by simp⟩
  · exact .inl ⟨'b', [], rfl, by decide, by simp⟩
  · exact .inl ⟨'f', [], rfl, by decide, by simp⟩
  · exact .inl ⟨'n', [], rfl, by decide, by simp⟩
  · exact .inl ⟨'r', [], rfl, by decide, by simp⟩
  · exact .inl ⟨'t', [], rfl, by decide, by simp⟩
  · refine .inl ⟨'u', _, ?_, by decide,
      List.all_eq_true.1 (hnumeral c.toNat (UInt32.lt_iff_toNat_lt.1 h₈))⟩
    rw [String.toList_append]
    rfl
  · exact .inr ⟨String.toList_singleton c, by simp [isInner, h₁, h₂, h₅]⟩

/-- None of an escaped character is deleted, and the string goes on behind it. -/
theorem squeeze_escape (c : Char) (r : List Char) :
    squeeze .inside ((escape c).toList ++ r) = (escape c).toList ++ squeeze .inside r := by
  rcases escape_cases c with ⟨d, cs, h, -, hcs⟩ | ⟨h, hc⟩
  · have hd : squeeze .escaped (d :: (cs ++ r)) = d :: squeeze .inside (cs ++ r) := rfl
    rw [h, List.cons_append, List.cons_append, squeeze, if_neg (by simp)]
    change _ :: squeeze .escaped _ = _
    rw [hd, squeeze_inner hcs]
    rfl
  · rw [h]
    exact squeeze_inner (by simpa using hc) r

/-- A string is left as it is, whatever stands in it. -/
theorem squeezes_quoted (text : String) : Squeezes (quoted text) (quoted text) := by
  have hinside : ∀ (cs r : List Char),
      squeeze .inside ((cs.flatMap fun c ↦ (escape c).toList) ++ '"' :: r) =
        (cs.flatMap fun c ↦ (escape c).toList) ++ '"' :: squeeze .outside r := by
    intro cs r
    induction cs with
    | nil => rfl
    | cons c cs ih =>
      rw [List.flatMap_cons, List.append_assoc, squeeze_escape, ih, List.append_assoc]
  intro r
  simp only [quoted, List.cons_append, List.append_assoc, List.nil_append]
  rw [squeeze, if_neg (by decide), Place.next, if_pos rfl, hinside]

theorem newline_notMem_quoted (text : String) : '\n' ∉ quoted text := by
  have hescape : ∀ c, '\n' ∉ (escape c).toList := by
    intro c hn
    rcases escape_cases c with ⟨d, cs, h, hd, hcs⟩ | ⟨h, hc⟩
    · rw [h, List.mem_cons, List.mem_cons] at hn
      rcases hn with hn | hn | hn
      · cases hn
      · exact hd hn.symm
      · cases hcs _ hn
    · rw [h, List.mem_singleton] at hn
      cases hn ▸ hc
  simp [quoted, hescape]

/-! ## The two texts of a document -/

/-- What may be said of two texts that are put together from the same tokens, the first with blanks
between them. -/
structure Alignment (R : List Char → List Char → Prop) : Prop where
  append : ∀ {cs cs' ds ds'}, R cs ds → R cs' ds' → R (cs ++ cs') (ds ++ ds')
  blanks : ∀ {cs}, (∀ c ∈ cs, c = ' ' ∨ c = '\n') → R cs []
  solid : ∀ {cs}, (∀ c ∈ cs, isSolid c = true) → R cs cs
  quoted : ∀ text, R (quoted text) (quoted text)

theorem isSolid_of_isNumeric {c : Char} (h : isNumeric c = true) : isSolid c = true := by
  have hc : c ≠ ' ' ∧ c ≠ '\n' ∧ c ≠ '"' := by
    refine ⟨?_, ?_, ?_⟩ <;> rintro rfl <;> cases h
  simp [isSolid, hc]

namespace Alignment

variable {R : List Char → List Char → Prop}

/-- A mark that stands between two others, with what is behind it. -/
theorem mark (h : Alignment R) (c : Char) (hc : isSolid c = true) {cs ds : List Char}
    (hcs : R cs ds) : R (c :: cs) (c :: ds) := by
  have hmark : R [c] [c] := h.solid (by simpa using hc)
  exact h.append hmark hcs

theorem newline (h : Alignment R) (d d' : ℕ) :
    R (Style.pretty.newline d).toList (Style.compact.newline d').toList := by
  have hempty : (Style.compact.newline d').toList = [] := String.toList_empty
  rw [hempty]
  refine h.blanks fun c hc ↦ ?_
  simp only [Style.pretty, String.toList_append, String.toList_ofList, List.mem_append,
    List.mem_replicate] at hc
  rcases hc with hc | hc
  · exact .inr (by simpa using hc)
  · exact .inl hc.2

theorem colon (h : Alignment R) :
    R (':' :: Style.pretty.afterColon.toList) (':' :: Style.compact.afterColon.toList) := by
  have hempty : Style.compact.afterColon.toList = [] := String.toList_empty
  rw [hempty]
  exact h.mark ':' rfl (h.blanks (by simp [Style.pretty]))

mutual

/-- The two texts of a document are aligned, at whatever depths they stand. -/
theorem written (h : Alignment R) : ∀ (j : Json) (d d' : ℕ), j.Plain →
    R (j.written .pretty d) (j.written .compact d')
  | .null, d, d', _ => by
    rw [Json.written, Json.written]
    exact h.solid (List.all_eq_true.1 rfl)
  | .number text, d, d', hj => by
    rw [Plain] at hj
    rw [Json.written, Json.written]
    exact h.solid fun c hc ↦ isSolid_of_isNumeric (hj.numeric c hc)
  | .string text, d, d', _ => by
    rw [Json.written, Json.written]
    exact h.quoted text
  | .array [], d, d', _ => by
    rw [Json.written, Json.written]
    exact h.solid (List.all_eq_true.1 rfl)
  | .array (item :: items), d, d', hj => by
    rw [Plain, PlainItems] at hj
    rw [Json.written, Json.written]
    have hopen := h.mark '[' rfl (h.newline (d + 1) (d' + 1))
    have hitem := h.append hopen (h.written item (d + 1) (d' + 1) hj.1)
    have hitems := h.append hitem (h.writtenItems items (d + 1) (d' + 1) hj.2)
    exact h.append (h.append hitems (h.newline _ _)) (h.solid (List.all_eq_true.1 rfl))
  | .object [], d, d', _ => by
    rw [Json.written, Json.written]
    exact h.solid (List.all_eq_true.1 rfl)
  | .object ((key, value) :: fields), d, d', hj => by
    rw [Plain, PlainFields] at hj
    rw [Json.written, Json.written]
    have hkey := h.append (h.mark '\x7b' rfl (h.newline (d + 1) (d' + 1))) (h.quoted key)
    have hvalue := h.append (h.append hkey h.colon) (h.written value (d + 1) (d' + 1) hj.1)
    have hfields := h.append hvalue (h.writtenFields fields (d + 1) (d' + 1) hj.2)
    exact h.append (h.append hfields (h.newline _ _)) (h.solid (List.all_eq_true.1 rfl))

theorem writtenItems (h : Alignment R) : ∀ (items : List Json) (d d' : ℕ), PlainItems items →
    R (Json.writtenItems .pretty d items) (Json.writtenItems .compact d' items)
  | [], d, d', _ => by
    rw [Json.writtenItems, Json.writtenItems]
    exact h.solid (List.all_eq_true.1 rfl)
  | item :: items, d, d', hi => by
    rw [PlainItems] at hi
    rw [Json.writtenItems, Json.writtenItems]
    have hitem := h.append (h.mark ',' rfl (h.newline d d')) (h.written item d d' hi.1)
    exact h.append hitem (h.writtenItems items d d' hi.2)

theorem writtenFields (h : Alignment R) : ∀ (fields : List (String × Json)) (d d' : ℕ),
    PlainFields fields →
    R (Json.writtenFields .pretty d fields) (Json.writtenFields .compact d' fields)
  | [], d, d', _ => by
    rw [Json.writtenFields, Json.writtenFields]
    exact h.solid (List.all_eq_true.1 rfl)
  | (key, value) :: fields, d, d', hf => by
    rw [PlainFields] at hf
    rw [Json.writtenFields, Json.writtenFields]
    have hkey := h.append (h.mark ',' rfl (h.newline d d')) (h.quoted key)
    have hvalue := h.append (h.append hkey h.colon) (h.written value d d' hf.1)
    exact h.append hvalue (h.writtenFields fields d d' hf.2)

end

end Alignment

/-- The relation of a text to what is left of it when it is squeezed. -/
theorem alignment_squeezes : Alignment Squeezes where
  append := Squeezes.append
  blanks := squeezes_blanks
  solid := squeezes_solid
  quoted := squeezes_quoted

/-- The second of two texts is on one line. -/
theorem alignment_line : Alignment fun _ ds ↦ '\n' ∉ ds where
  append h h' := by simp [h, h']
  blanks _ := List.not_mem_nil
  solid h hn := by cases h _ hn
  quoted := newline_notMem_quoted

end JitDump.Json

namespace JitDump.Listing

theorem toList_text (pretty : Bool) (p : Prototype) : (text pretty p).toList =
    p.toJson.written (if pretty then .pretty else .compact) 0 ++ ['\n'] := by
  rw [text, document, String.toList_append, Json.toList_render]
  rfl

/-- A listing ends in the bracket that closes its object, and a newline. -/
theorem exists_toList_text (pretty : Bool) (p : Prototype) :
    ∃ body, (text pretty p).toList = body ++ ['\x7d', '\n'] := by
  rw [toList_text]
  obtain ⟨⟩ := p
  rw [Prototype.toJson, Json.written]
  exact ⟨_, List.append_assoc _ _ _⟩

/-- The listing in lines is the listing on one line but for blanks: when every space and newline
outside of strings is deleted, what is left is the listing on one line without the newline that
closes it.  Both end in one newline, and the listing on one line has no other. -/
theorem squeeze_pretty (p : Prototype) :
    Json.squeeze .outside (text true p).toList = (text false p).toList.dropLast ∧
      (∀ pretty, ∃ body, (text pretty p).toList = body ++ ['\n'] ∧ body.getLast? ≠ some '\n') ∧
      (text false p).toList.count '\n' = 1 := by
  have hsqueeze := Json.alignment_squeezes.written p.toJson 0 0 p.plain_toJson
  have hline := Json.alignment_line.written p.toJson 0 0 p.plain_toJson
  have hnewline : Json.Squeezes ['\n'] [] := Json.squeezes_blanks (by simp)
  refine ⟨?_, ?_, ?_⟩
  · rw [toList_text, toList_text, List.dropLast_concat, if_pos rfl]
    simpa using (hsqueeze.append hnewline).eq
  · intro pretty
    obtain ⟨body, h⟩ := exists_toList_text pretty p
    exact ⟨body ++ ['\x7d'], by simp [h], by simp⟩
  · rw [toList_text, List.count_append, if_neg (by simp), List.count_eq_zero.2 hline]
    rfl

end JitDump.Listing
