/-! # Paths as they are written

A path keeps the text that it was given. Its parts are the names between its slashes; an empty part
stands for nothing, and so does a dot unless a path that is not absolute opens with it. -/

namespace JitDump.Path

def isAbsolute (p : String) : Bool := p.toList.head? == some '/'

/-- The text between slashes. -/
def pieces (p : String) : List String := (p.toList.splitOn '/').map String.ofList

/-- Whether a path says that it is a directory by ending in a slash. -/
def endsInSlash (p : String) : Bool := p.toList.getLast? == some '/'

/-- The pieces that name something, for walking a tree of files. -/
def steps (p : String) : List String := (pieces p).filter (· != "")

/-- A text that can name something in a directory. -/
structure IsName (name : String) : Prop where
  ne_empty : name ≠ ""
  ne_dot : name ≠ "."
  ne_dots : name ≠ ".."
  noSlash : '/' ∉ name.toList

instance : DecidablePred IsName := fun name =>
  decidable_of_decidable_of_iff (p := name ≠ "" ∧ name ≠ "." ∧ name ≠ ".." ∧ '/' ∉ name.toList)
    ⟨fun ⟨h, h', h'', hslash⟩ => ⟨h, h', h'', hslash⟩,
      fun h => ⟨h.ne_empty, h.ne_dot, h.ne_dots, h.noSlash⟩⟩

theorem not_mem_of_mem_splitOn {c : Char} {cs piece : List Char} (h : piece ∈ cs.splitOn c) :
    c ∉ piece := by
  induction cs generalizing piece with
  | nil =>
    rw [List.splitOn_nil, List.mem_singleton] at h
    simp [h]
  | cons d cs ih =>
    rw [List.splitOn_cons_eq_if_modifyHead] at h
    split at h
    · rcases List.mem_cons.1 h with rfl | h
      · simp
      · exact ih h
    · rename_i hd
      obtain ⟨first, rest, hsplit⟩ := List.exists_cons_of_ne_nil (List.splitOn_ne_nil c cs)
      rw [hsplit] at h ih
      rcases List.mem_cons.1 h with rfl | h
      · rw [List.mem_cons, not_or]
        exact ⟨fun hc => hd (by simp [hc]), ih List.mem_cons_self⟩
      · exact ih (List.mem_cons_of_mem _ h)

theorem noSlash_of_mem_pieces {p name : String} (h : name ∈ pieces p) : '/' ∉ name.toList := by
  obtain ⟨piece, hpiece, rfl⟩ := List.mem_map.1 h
  rw [String.toList_ofList]
  exact not_mem_of_mem_splitOn hpiece

/-- A piece is a name unless it says to stay or to go up. -/
theorem isName_of_mem_steps {p name : String} (h : name ∈ steps p) (hdot : name ≠ ".")
    (hdots : name ≠ "..") : IsName name := by
  rw [steps, List.mem_filter, bne_iff_ne] at h
  exact ⟨h.2, hdot, hdots, noSlash_of_mem_pieces h.1⟩

/-- Drops the last pieces, which stand for nothing; the pieces are in reverse. -/
def dropIdle (absolute : Bool) : List String → List String
  | [] => []
  | [piece] => if piece == "" || (absolute && piece == ".") then [] else [piece]
  | piece :: rest => if piece == "" || piece == "." then dropIdle absolute rest else piece :: rest

/-- The pieces of a path up to its last part, in reverse. -/
def backwards (p : String) : List String :=
  dropIdle (isAbsolute p) (pieces p).reverse

/-- The path of pieces in reverse. -/
def ofBackwards (absolute : Bool) (ps : List String) : String :=
  let text := "/".intercalate ps.reverse
  if absolute && text.isEmpty then "/" else text

/-- The path in front of the last part. -/
def parent? (p : String) : Option String :=
  match backwards p with
  | [] => none
  | _ :: rest => some (ofBackwards (isAbsolute p) (dropIdle (isAbsolute p) rest))

/-- The last part, if it is a name. -/
def fileName? (p : String) : Option String :=
  match backwards p with
  | [] => none
  | piece :: _ => if piece == "." || piece == ".." then none else some piece

def join (p child : String) : String :=
  if isAbsolute child || p.isEmpty then child
  else if endsInSlash p then p ++ child
  else p ++ "/" ++ child

/-- A path and those in front of it, up to so many. -/
def ancestorsUpTo : Nat → String → List String
  | 0, p => [p]
  | n + 1, p =>
    match parent? p with
    | none => [p]
    | some q => p :: ancestorsUpTo n q

/-- A path, the path in front of its last part, and so on. -/
def ancestors (p : String) : List String := ancestorsUpTo p.length p

end JitDump.Path
