import Mathlib.Tactic.Common
import JitDump.Json

/-!
# Documents can be read off their text

A document on one line is a sequence of tokens with nothing between them, and
each token says where it ends: a string at the first quote that is not escaped,
a number before the first character that no number has.  So a text is the
beginning of at most one document with a given rest, by induction over the
document, and no two documents have the same text.
-/

namespace JitDump.Json

/-! ## The characters of a document -/

/-- The characters of a quoted string. -/
def quoted (text : String) : List Char :=
  '"' :: (text.toList.flatMap fun c ↦ (escape c).toList) ++ ['"']

mutual

/-- The characters of a document that stands at a depth. -/
def written (style : Style) (depth : Nat) : Json → List Char
  | .null => "null".toList
  | .number text => text.toList
  | .string text => quoted text
  | .array [] => ['[', ']']
  | .array (item :: items) =>
    '[' :: (style.newline (depth + 1)).toList ++ written style (depth + 1) item ++
      writtenItems style (depth + 1) items ++ (style.newline depth).toList ++ [']']
  | .object [] => ['\x7b', '\x7d']
  | .object ((key, value) :: fields) =>
    '\x7b' :: (style.newline (depth + 1)).toList ++ quoted key ++ ':' :: style.afterColon.toList ++
      written style (depth + 1) value ++ writtenFields style (depth + 1) fields ++
      (style.newline depth).toList ++ ['\x7d']

/-- The characters of the items after the first. -/
def writtenItems (style : Style) (depth : Nat) : List Json → List Char
  | [] => []
  | item :: items =>
    ',' :: (style.newline depth).toList ++ written style depth item ++
      writtenItems style depth items

/-- The characters of the fields after the first. -/
def writtenFields (style : Style) (depth : Nat) : List (String × Json) → List Char
  | [] => []
  | (key, value) :: fields =>
    ',' :: (style.newline depth).toList ++ quoted key ++ ':' :: style.afterColon.toList ++
      written style depth value ++ writtenFields style depth fields

end

theorem toList_quoteTo (out text : String) :
    (quoteTo out text).toList = out.toList ++ quoted text := by
  have hfold : ∀ (cs : List Char) (out : String),
      (cs.foldl (fun out c ↦ out ++ escape c) out).toList =
        out.toList ++ cs.flatMap fun c ↦ (escape c).toList := by
    intro cs
    induction cs with
    | nil => exact fun out ↦ (List.append_nil _).symm
    | cons c cs ih =>
      intro out
      rw [List.foldl_cons, ih, String.toList_append, List.flatMap_cons, List.append_assoc]
  rw [quoteTo, String.foldl_eq_foldl_toList, String.toList_push, hfold, String.toList_push, quoted]
  simp

mutual

theorem toList_renderTo (style : Style) : ∀ (j : Json) (depth : Nat) (out : String),
    (renderTo style depth out j).toList = out.toList ++ written style depth j
  | .null, depth, out => by rw [renderTo, written, String.toList_append]
  | .number text, depth, out => by rw [renderTo, written, String.toList_append]
  | .string text, depth, out => by rw [renderTo, written, toList_quoteTo]
  | .array [], depth, out => by rw [renderTo, written, String.toList_append]; rfl
  | .array (item :: items), depth, out => by
    simp [renderTo, written, toList_renderItems style items, toList_renderTo style item]
  | .object [], depth, out => by rw [renderTo, written, String.toList_append]; rfl
  | .object ((key, value) :: fields), depth, out => by
    simp [renderTo, written, toList_renderFields style fields, toList_renderTo style value,
      toList_quoteTo]

theorem toList_renderItems (style : Style) : ∀ (items : List Json) (depth : Nat) (out : String),
    (renderItems style depth out items).toList = out.toList ++ writtenItems style depth items
  | [], depth, out => by rw [renderItems, writtenItems, List.append_nil]
  | item :: items, depth, out => by
    simp [renderItems, writtenItems, toList_renderItems style items, toList_renderTo style item]

theorem toList_renderFields (style : Style) :
    ∀ (fields : List (String × Json)) (depth : Nat) (out : String),
    (renderFields style depth out fields).toList = out.toList ++ writtenFields style depth fields
  | [], depth, out => by rw [renderFields, writtenFields, List.append_nil]
  | (key, value) :: fields, depth, out => by
    simp [renderFields, writtenFields, toList_renderFields style fields,
      toList_renderTo style value, toList_quoteTo]

end

theorem toList_render (style : Style) (j : Json) : (j.render style).toList = written style 0 j := by
  rw [render, toList_renderTo]
  rfl

/-! ## Strings -/

/-- The number that hexadecimal digits in lower case spell. -/
def hexValue (cs : List Char) : Nat := cs.foldl (fun n c ↦ 16 * n + Hex.digitValue c) 0

/-- The character that stands at the beginning of the inside of a string, and what is behind it. -/
def unescape : List Char → Option (Char × List Char)
  | '\\' :: 'b' :: rest => some ('\x08', rest)
  | '\\' :: 'f' :: rest => some ('\x0c', rest)
  | '\\' :: 'n' :: rest => some ('\n', rest)
  | '\\' :: 'r' :: rest => some ('\r', rest)
  | '\\' :: 't' :: rest => some ('\t', rest)
  | '\\' :: 'u' :: a :: b :: c :: d :: rest => some (.ofNat (hexValue [a, b, c, d]), rest)
  | '\\' :: c :: rest => some (c, rest)
  | c :: rest => some (c, rest)
  | [] => none

/-- The numeral of a control character, in four digits. -/
theorem exists_padded : ∀ n < 32, ∃ a b c d : Char,
    (Hex.padded 4 n).toList = [a, b, c, d] ∧ hexValue [a, b, c, d] = n := by
  intro n hn
  refine ⟨'0', '0', (Nat.digitChar (n / 16)), (Nat.digitChar (n % 16)), ?_⟩
  revert n
  decide

/-- An escaped character is read back, whatever stands behind it. -/
theorem unescape_escape (c : Char) (rest : List Char) :
    unescape ((escape c).toList ++ rest) = some (c, rest) := by
  rw [escape]
  split_ifs with h₁ h₂ h₃ h₄ h₅ h₆ h₇ h₈
  · rw [h₁]; rfl
  · rw [h₂]; rfl
  · rw [h₃]; rfl
  · rw [h₄]; rfl
  · rw [h₅]; rfl
  · rw [h₆]; rfl
  · rw [h₇]; rfl
  · obtain ⟨x, y, z, w, hp, hv⟩ := exists_padded c.toNat (UInt32.lt_iff_toNat_lt.1 h₈)
    rw [String.toList_append, hp]
    simp only [String.reduceToList, List.cons_append, List.nil_append, unescape, hv,
      Char.ofNat_toNat]
  · rw [String.toList_singleton, List.singleton_append, unescape.eq_def]
    split <;> simp_all

/-- The inside of a string never begins with the quote that ends it. -/
theorem escape_append_ne (c : Char) (rest r : List Char) :
    (escape c).toList ++ rest ≠ '"' :: r := by
  intro h
  have hc := unescape_escape c rest
  rw [h] at hc
  cases hc
  simp [escape] at h

theorem escaped_inj {cs cs' r r' : List Char}
    (h : (cs.flatMap fun c ↦ (escape c).toList) ++ '"' :: r =
      (cs'.flatMap fun c ↦ (escape c).toList) ++ '"' :: r') : cs = cs' ∧ r = r' := by
  induction cs generalizing cs' with
  | nil =>
    cases cs' with
    | nil => exact ⟨rfl, List.tail_eq_of_cons_eq h⟩
    | cons c' cs' =>
      rw [List.flatMap_cons, List.append_assoc] at h
      exact absurd h.symm (escape_append_ne _ _ _)
  | cons c cs ih =>
    rw [List.flatMap_cons, List.append_assoc] at h
    cases cs' with
    | nil => exact absurd h (escape_append_ne _ _ _)
    | cons c' cs' =>
      rw [List.flatMap_cons, List.append_assoc] at h
      have hc := congrArg unescape h
      rw [unescape_escape, unescape_escape, Option.some.injEq, Prod.mk.injEq] at hc
      obtain ⟨rfl, hrest⟩ := hc
      obtain ⟨rfl, hr⟩ := ih hrest
      exact ⟨rfl, hr⟩

/-- A string ends at its closing quote. -/
theorem quoted_inj {text text' : String} {r r' : List Char}
    (h : quoted text ++ r = quoted text' ++ r') : text = text' ∧ r = r' := by
  simp only [quoted, List.cons_append, List.append_assoc, List.nil_append, List.cons.injEq,
    true_and] at h
  obtain ⟨htext, hr⟩ := escaped_inj h
  exact ⟨String.toList_inj.1 htext, hr⟩

/-! ## Numbers -/

/-- The characters that numbers are written in. -/
def isNumeric (c : Char) : Bool := c.isDigit || c == '-' || c == '+' || c == '.' || c == 'e'

/-- The text of a number. -/
structure Numeric (text : String) : Prop where
  ne_nil : text.toList ≠ []
  numeric : ∀ c ∈ text.toList, isNumeric c = true

/-- Behind a run of characters stands one of another kind or none. -/
def Stops (kind : Char → Bool) (r : List Char) : Prop := ∀ c, r.head? = some c → kind c = false

variable {kind : Char → Bool}

theorem stops_nil : Stops kind [] := by rintro _ ⟨⟩

theorem stops_cons {c : Char} {r : List Char} (h : kind c = false) : Stops kind (c :: r) := by
  rintro _ ⟨⟩
  exact h

/-- A run ends in front of the first character of another kind. -/
theorem takeWhile_run {cs r : List Char} (h : ∀ c ∈ cs, kind c = true) (hr : Stops kind r) :
    (cs ++ r).takeWhile kind = cs ∧ (cs ++ r).dropWhile kind = r := by
  rw [List.takeWhile_append_of_pos h, List.dropWhile_append_of_pos h]
  cases r with
  | nil => exact ⟨List.append_nil _, rfl⟩
  | cons c r =>
    have hc : ¬ kind c = true := by simp [hr c rfl]
    rw [List.takeWhile_cons_of_neg hc, List.dropWhile_cons_of_neg hc, List.append_nil]
    exact ⟨rfl, rfl⟩

theorem number_inj {text text' : String} {r r' : List Char} (ht : Numeric text)
    (ht' : Numeric text') (hr : Stops isNumeric r) (hr' : Stops isNumeric r')
    (h : text.toList ++ r = text'.toList ++ r') : text = text' ∧ r = r' := by
  obtain ⟨htake, hdrop⟩ := takeWhile_run ht.numeric hr
  obtain ⟨htake', hdrop'⟩ := takeWhile_run ht'.numeric hr'
  rw [h] at htake hdrop
  exact ⟨String.toList_inj.1 (htake.symm.trans htake'), hdrop.symm.trans hdrop'⟩

/-! ## Documents -/

mutual

/-- A document whose numbers are numbers. -/
def Plain : Json → Prop
  | .null | .string _ => True
  | .number text => Numeric text
  | .array items => PlainItems items
  | .object fields => PlainFields fields

def PlainItems : List Json → Prop
  | [] => True
  | item :: items => Plain item ∧ PlainItems items

def PlainFields : List (String × Json) → Prop
  | [] => True
  | (_, value) :: fields => Plain value ∧ PlainFields fields

end

@[simp] theorem plain_string (text : String) : (string text).Plain := by rw [Plain]; trivial

@[simp] theorem plain_array {items : List Json} :
    (array items).Plain ↔ ∀ item ∈ items, item.Plain := by
  rw [Plain]
  induction items with
  | nil => simp [PlainItems]
  | cons item items ih => rw [PlainItems, ih, List.forall_mem_cons]

@[simp] theorem plain_object {fields : List (String × Json)} :
    (object fields).Plain ↔ ∀ field ∈ fields, field.2.Plain := by
  rw [Plain]
  induction fields with
  | nil => simp [PlainFields]
  | cons field fields ih => rw [PlainFields, ih, List.forall_mem_cons]

@[simp] theorem plain_tagged {tag : String} {j : Json} : (tagged tag j).Plain ↔ j.Plain := by
  simp [tagged]

@[simp] theorem tagged_inj {tag tag' : String} {j j' : Json} :
    tagged tag j = tagged tag' j' ↔ tag = tag' ∧ j = j' := by simp [tagged]

section Compact

variable {d : Nat} {item value : Json} {items : List Json} {key : String}
variable {fields : List (String × Json)} {r : List Char}

theorem written_compact_array : written .compact d (.array (item :: items)) ++ r =
    '[' :: (written .compact (d + 1) item ++ (writtenItems .compact (d + 1) items ++ ']' :: r)) := by
  simp [written, Style.compact]

theorem writtenItems_compact : writtenItems .compact d (item :: items) ++ r =
    ',' :: (written .compact d item ++ (writtenItems .compact d items ++ r)) := by
  simp [writtenItems, Style.compact]

theorem written_compact_object : written .compact d (.object ((key, value) :: fields)) ++ r =
    '\x7b' :: (quoted key ++ ':' :: (written .compact (d + 1) value ++
      (writtenFields .compact (d + 1) fields ++ '\x7d' :: r))) := by
  simp [written, Style.compact]

theorem writtenFields_compact : writtenFields .compact d ((key, value) :: fields) ++ r =
    ',' :: (quoted key ++ ':' :: (written .compact d value ++
      (writtenFields .compact d fields ++ r))) := by
  simp [writtenFields, Style.compact]

end Compact

/-- What a document on one line begins with. -/
def Opens : Json → Char → Prop
  | .null, c => c = 'n'
  | .number _, c => isNumeric c = true
  | .string _, c => c = '"'
  | .array _, c => c = '['
  | .object _, c => c = '\x7b'

theorem exists_opens {j : Json} (hj : j.Plain) (d : Nat) :
    ∃ c rest, written .compact d j = c :: rest ∧ j.Opens c := by
  cases j with
  | null => exact ⟨_, _, rfl, rfl⟩
  | number text =>
    rw [Plain] at hj
    obtain ⟨c, rest, h⟩ := List.exists_cons_of_ne_nil hj.ne_nil
    exact ⟨c, rest, by rw [written, h], hj.numeric c (by simp [h])⟩
  | string text => exact ⟨_, _, by rw [written, quoted, List.cons_append], rfl⟩
  | array items =>
    cases items with
    | nil => exact ⟨_, _, by rw [written], rfl⟩
    | cons item items =>
      exact ⟨_, _, (List.append_nil _).symm.trans written_compact_array, rfl⟩
  | object fields =>
    rcases fields with _ | ⟨⟨key, value⟩, fields⟩
    · exact ⟨_, _, by rw [written], rfl⟩
    · exact ⟨_, _, (List.append_nil _).symm.trans written_compact_object, rfl⟩

/-- Documents that may begin with the same character are of one kind. -/
inductive SameKind : Json → Json → Prop
  | null : SameKind .null .null
  | number (text text' : String) : SameKind (.number text) (.number text')
  | string (text text' : String) : SameKind (.string text) (.string text')
  | array (items items' : List Json) : SameKind (.array items) (.array items')
  | object (fields fields' : List (String × Json)) : SameKind (.object fields) (.object fields')

theorem Opens.sameKind {j j' : Json} {c : Char} (h : j.Opens c) (h' : j'.Opens c) :
    SameKind j j' := by
  cases j <;> cases j' <;> first
    | constructor
    | (simp only [Opens] at h h'; subst_vars; first | cases h | cases h')

variable {j j' : Json} {d d' : Nat} {r r' : List Char}

theorem sameKind_of_written (hj : j.Plain) (hj' : j'.Plain)
    (h : written .compact d j ++ r = written .compact d' j' ++ r') : SameKind j j' := by
  obtain ⟨c, rest, hw, ho⟩ := exists_opens hj d
  obtain ⟨c', rest', hw', ho'⟩ := exists_opens hj' d'
  rw [hw, hw'] at h
  cases (List.cons.inj h).1
  exact ho.sameKind ho'

/-- No document begins with a bracket that closes one. -/
theorem written_append_ne (hj : j.Plain) {c : Char} (hc : ∀ j : Json, ¬ j.Opens c) :
    written .compact d j ++ r ≠ c :: r' := by
  intro h
  obtain ⟨c', rest, hw, ho⟩ := exists_opens hj d
  rw [hw] at h
  cases (List.cons.inj h).1
  exact hc j ho

theorem not_opens_bracket (j : Json) : ¬ j.Opens ']' := by cases j <;> simp [Opens, isNumeric]

theorem stops_writtenItems (items : List Json) :
    Stops isNumeric (writtenItems .compact d items ++ ']' :: r) := by
  cases items with
  | nil => exact stops_cons (by decide)
  | cons item items =>
    rw [writtenItems_compact]
    exact stops_cons (by decide)

theorem stops_writtenFields (fields : List (String × Json)) :
    Stops isNumeric (writtenFields .compact d fields ++ '\x7d' :: r) := by
  rcases fields with _ | ⟨⟨key, value⟩, fields⟩
  · exact stops_cons (by decide)
  · rw [writtenFields_compact]
    exact stops_cons (by decide)

mutual

/-- A document that is the beginning of a text is told from the text. -/
theorem written_inj : ∀ (j : Json) {j' : Json} {d d' : Nat} {r r' : List Char}, j.Plain →
    j'.Plain → Stops isNumeric r → Stops isNumeric r' →
    written .compact d j ++ r = written .compact d' j' ++ r' → j = j' ∧ r = r'
  | .null, j', d, d', r, r', hj, hj', _, _, h => by
    cases sameKind_of_written hj hj' h
    exact ⟨rfl, List.append_cancel_left h⟩
  | .number text, j', d, d', r, r', hj, hj', hr, hr', h => by
    cases sameKind_of_written hj hj' h
    rw [Plain] at hj hj'
    rw [written, written] at h
    obtain ⟨rfl, hrest⟩ := number_inj hj hj' hr hr' h
    exact ⟨rfl, hrest⟩
  | .string text, j', d, d', r, r', hj, hj', _, _, h => by
    cases sameKind_of_written hj hj' h
    rw [written, written] at h
    obtain ⟨rfl, hrest⟩ := quoted_inj h
    exact ⟨rfl, hrest⟩
  | .array items, _, _, _, _, _, hj, hj', _, _, h => written_array_inj items hj hj' h
  | .object fields, _, _, _, _, _, hj, hj', _, _, h => written_object_inj fields hj hj' h

theorem written_array_inj : ∀ (items : List Json) {j' : Json} {d d' : Nat} {r r' : List Char},
    Plain (.array items) → j'.Plain →
    written .compact d (.array items) ++ r = written .compact d' j' ++ r' →
    .array items = j' ∧ r = r'
  | [], j', d, d', r, r', hj, hj', h => by
    cases sameKind_of_written hj hj' h with
    | array _ items' =>
    cases items' with
    | nil => exact ⟨rfl, List.append_cancel_left h⟩
    | cons item' items' =>
      rw [Plain, PlainItems] at hj'
      rw [written, written_compact_array] at h
      exact absurd (List.cons.inj h).2.symm (written_append_ne hj'.1 not_opens_bracket)
  | item :: items, j', d, d', r, r', hj, hj', h => by
    cases sameKind_of_written hj hj' h with
    | array _ items' =>
    rw [Plain, PlainItems] at hj
    cases items' with
    | nil =>
      rw [written, written_compact_array] at h
      exact absurd (List.cons.inj h).2 (written_append_ne hj.1 not_opens_bracket)
    | cons item' items' =>
      rw [Plain, PlainItems] at hj'
      rw [written_compact_array, written_compact_array] at h
      obtain ⟨rfl, hrest⟩ := written_inj item hj.1 hj'.1 (stops_writtenItems items)
        (stops_writtenItems items') (List.cons.inj h).2
      obtain ⟨rfl, hr⟩ := writtenItems_inj items hj.2 hj'.2 hrest
      exact ⟨rfl, hr⟩

theorem written_object_inj : ∀ (fields : List (String × Json)) {j' : Json} {d d' : Nat}
    {r r' : List Char}, Plain (.object fields) → j'.Plain →
    written .compact d (.object fields) ++ r = written .compact d' j' ++ r' →
    .object fields = j' ∧ r = r'
  | [], j', d, d', r, r', hj, hj', h => by
    cases sameKind_of_written hj hj' h with
    | object _ fields' =>
    rcases fields' with _ | ⟨⟨key', value'⟩, fields'⟩
    · exact ⟨rfl, List.append_cancel_left h⟩
    · rw [written, written_compact_object, quoted] at h
      simp at h
  | (key, value) :: fields, j', d, d', r, r', hj, hj', h => by
    cases sameKind_of_written hj hj' h with
    | object _ fields' =>
    rw [Plain, PlainFields] at hj
    rcases fields' with _ | ⟨⟨key', value'⟩, fields'⟩
    · rw [written, written_compact_object, quoted] at h
      simp at h
    · rw [Plain, PlainFields] at hj'
      rw [written_compact_object, written_compact_object] at h
      obtain ⟨rfl, hcolon⟩ := quoted_inj (List.cons.inj h).2
      obtain ⟨rfl, hrest⟩ := written_inj value hj.1 hj'.1 (stops_writtenFields fields)
        (stops_writtenFields fields') (List.tail_eq_of_cons_eq hcolon)
      obtain ⟨rfl, hr⟩ := writtenFields_inj fields hj.2 hj'.2 hrest
      exact ⟨rfl, hr⟩

theorem writtenItems_inj : ∀ (items : List Json) {items' : List Json} {d d' : Nat}
    {r r' : List Char}, PlainItems items → PlainItems items' →
    writtenItems .compact d items ++ ']' :: r = writtenItems .compact d' items' ++ ']' :: r' →
    items = items' ∧ r = r'
  | [], items', d, d', r, r', _, _, h => by
    cases items' with
    | nil => exact ⟨rfl, List.tail_eq_of_cons_eq h⟩
    | cons item' items' =>
      rw [writtenItems_compact] at h
      cases (List.cons.inj h).1
  | item :: items, items', d, d', r, r', hi, hi', h => by
    cases items' with
    | nil =>
      rw [writtenItems_compact] at h
      cases (List.cons.inj h).1
    | cons item' items' =>
      rw [writtenItems_compact, writtenItems_compact] at h
      obtain ⟨rfl, hrest⟩ := written_inj item hi.1 hi'.1 (stops_writtenItems items)
        (stops_writtenItems items') (List.cons.inj h).2
      obtain ⟨rfl, hr⟩ := writtenItems_inj items hi.2 hi'.2 hrest
      exact ⟨rfl, hr⟩

theorem writtenFields_inj : ∀ (fields : List (String × Json)) {fields' : List (String × Json)}
    {d d' : Nat} {r r' : List Char}, PlainFields fields → PlainFields fields' →
    writtenFields .compact d fields ++ '\x7d' :: r =
      writtenFields .compact d' fields' ++ '\x7d' :: r' → fields = fields' ∧ r = r'
  | [], fields', d, d', r, r', _, _, h => by
    rcases fields' with _ | ⟨⟨key', value'⟩, fields'⟩
    · exact ⟨rfl, List.tail_eq_of_cons_eq h⟩
    · rw [writtenFields_compact] at h
      cases (List.cons.inj h).1
  | (key, value) :: fields, fields', d, d', r, r', hf, hf', h => by
    rcases fields' with _ | ⟨⟨key', value'⟩, fields'⟩
    · rw [writtenFields_compact] at h
      cases (List.cons.inj h).1
    · rw [writtenFields_compact, writtenFields_compact] at h
      obtain ⟨rfl, hcolon⟩ := quoted_inj (List.cons.inj h).2
      obtain ⟨rfl, hrest⟩ := written_inj value hf.1 hf'.1 (stops_writtenFields fields)
        (stops_writtenFields fields') (List.tail_eq_of_cons_eq hcolon)
      obtain ⟨rfl, hr⟩ := writtenFields_inj fields hf.2 hf'.2 hrest
      exact ⟨rfl, hr⟩

end

/-- Two documents of one text are one document. -/
theorem render_compact_inj (hj : j.Plain) (hj' : j'.Plain)
    (h : j.render .compact = j'.render .compact) : j = j' := by
  have hw := congrArg (·.toList ++ []) h
  simp only [toList_render] at hw
  exact (written_inj j hj hj' stops_nil stops_nil hw).1

end JitDump.Json
