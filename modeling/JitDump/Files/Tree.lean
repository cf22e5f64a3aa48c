import JitDump.Files.Host

/-! # A tree of files in memory

A node is known by the names that lead to it from the root, which is always a directory. No name
leads to a node unless it can be written in a path. -/

theorem Except.bind_eq_ok {ε α β : Type} {x : Except ε α} {f : α → Except ε β} {b : β} :
    x >>= f = .ok b ↔ ∃ a, x = .ok a ∧ f a = .ok b := by
  constructor
  · intro h
    cases x with
    | error e => cases h
    | ok a => exact ⟨a, rfl, h⟩
  · rintro ⟨a, rfl, h⟩
    exact h

namespace JitDump

namespace Files

inductive Node where
  | directory
  | file (content : Bytes)
deriving DecidableEq, Repr

namespace Node

def kind : Node → FileKind
  | .directory => .directory
  | .file _ => .file

/-- A file with another content; a directory stays one. -/
def fill (content : Bytes) : Node → Node
  | .directory => .directory
  | .file _ => .file content

end Node

/-- The names from the root to a node. -/
abbrev Location := List String

/-- All names of a location can be written in a path. -/
def Named (l : Location) : Prop := ∀ name ∈ l, Path.IsName name

instance : DecidablePred Named := fun l =>
  inferInstanceAs (Decidable (∀ name ∈ l, Path.IsName name))

structure Tree where
  nodes : List (Location × Node)
  named : ∀ e ∈ nodes, Named e.1

namespace Tree

def empty : Tree := ⟨[], fun _ h => nomatch h⟩

def get? (t : Tree) (l : Location) : Option Node :=
  if l.isEmpty then some .directory else t.nodes.lookup l

theorem mem_nodes_of_get? {t : Tree} {l : Location} {n : Node} (hl : l ≠ [])
    (h : t.get? l = some n) : (l, n) ∈ t.nodes := by
  rw [get?, if_neg (by simpa using hl)] at h
  obtain ⟨before, after, hnodes, -⟩ := List.lookup_eq_some_iff.1 h
  rw [hnodes]
  exact List.mem_append_right _ List.mem_cons_self

/-- What stands somewhere has a name, and so has every directory on the way. -/
theorem named_of_get? {t : Tree} {l : Location} {n : Node} (h : t.get? l = some n) : Named l :=
  fun name hname => t.named _ (mem_nodes_of_get? (List.ne_nil_of_mem hname) h) name hname

/-- Other nodes at the same locations. -/
def mapNodes (t : Tree) (f : Location → Node → Node) : Tree where
  nodes := t.nodes.map fun e => (e.1, f e.1 e.2)
  named _ h := by
    obtain ⟨e, he, rfl⟩ := List.mem_map.1 h
    exact t.named e he

/-- Puts a node at a location, in place of what is there. -/
def put (t : Tree) (l : Location) (hl : Named l) (n : Node) : Tree :=
  if (t.nodes.lookup l).isSome then t.mapNodes fun k m => if k = l then n else m
  else
    { nodes := t.nodes ++ [(l, n)]
      named := List.forall_mem_append.2 ⟨t.named, List.forall_mem_singleton.2 hl⟩ }

/-- Gives the file at a location another content. -/
def fill (t : Tree) (l : Location) (content : Bytes) : Tree :=
  t.mapNodes fun k n => if k = l then n.fill content else n

/-- The content of the file at a location. -/
def content? (t : Tree) (l : Location) : Option Bytes :=
  match t.get? l with
  | some (.file content) => some content
  | _ => none

/-- The names in a directory with their nodes. -/
def children (t : Tree) (l : Location) : List (String × Node) :=
  t.nodes.filterMap fun (location, n) =>
    match location.reverse with
    | [] => none
    | name :: front => if front.reverse = l then some (name, n) else none

/-! ## Walking -/

/-- The longest name that a directory holds, in bytes. -/
def maxName : Nat := 255

/-- The longest path that can be followed, in bytes. -/
def maxPath : Nat := 4095

/-- Refuses a path that cannot be followed, whatever the tree holds. -/
def wellSized (path : String) : Except SystemError Unit :=
  if path.isEmpty then .error .notFound
  else if maxPath < path.utf8ByteSize then .error .nameTooLong
  else .ok ()

def directoryAt (t : Tree) (l : Location) : Except SystemError Unit :=
  match t.get? l with
  | some .directory => .ok ()
  | some (.file _) => .error .notDirectory
  | none => .error .notFound

/-- One step of a path from a location. -/
def step (t : Tree) (l : Location) (name : String) : Except SystemError Location := do
  t.directoryAt l
  if name = "." then .ok l
  else if name = ".." then .ok l.dropLast
  else if maxName < name.utf8ByteSize then .error .nameTooLong
  else if (t.get? (l ++ [name])).isSome then .ok (l ++ [name])
  else .error .notFound

def walk (t : Tree) (l : Location) (names : List String) : Except SystemError Location :=
  names.foldlM t.step l

/-- Where a path starts in a tree. -/
def origin (current : Location) (path : String) : Location :=
  if Path.isAbsolute path then [] else current

/-- What stands at a path. A path that ends in a slash is a directory. -/
def find (t : Tree) (current : Location) (path : String) :
    Except SystemError (Location × Node) := do
  wellSized path
  let names := Path.steps path ++ if Path.endsInSlash path then ["."] else []
  let l ← t.walk (origin current path) names
  match t.get? l with
  | some n => .ok (l, n)
  | none => .error .notFound

/-- Where a new node at a path would stand, unless one is there. The error for a path that has no
name to give is up to the operation. -/
def place (t : Tree) (current : Location) (path : String) (nameless : SystemError) :
    Except SystemError Location := do
  wellSized path
  match (Path.steps path).reverse with
  | [] => .error nameless
  | name :: front =>
    let l ← t.walk (origin current path) front.reverse
    t.directoryAt l
    if name = "." || name = ".." then .error nameless
    else if maxName < name.utf8ByteSize then .error .nameTooLong
    else .ok (l ++ [name])

theorem directoryAt_eq_ok {t : Tree} {l : Location} :
    t.directoryAt l = .ok () ↔ t.get? l = some .directory := by
  rw [directoryAt]
  split <;> simp_all

/-- Where a new node at a path stands. -/
theorem place_eq_ok {t : Tree} {current l : Location} {path : String} {nameless : SystemError} :
    t.place current path nameless = .ok l ↔
      wellSized path = .ok () ∧ ∃ front name l₀, Path.steps path = front ++ [name] ∧
        t.walk (origin current path) front = .ok l₀ ∧ t.get? l₀ = some .directory ∧
        name ≠ "." ∧ name ≠ ".." ∧ name.utf8ByteSize ≤ maxName ∧ l = l₀ ++ [name] := by
  constructor
  · intro h
    obtain ⟨⟨⟩, hsize, h⟩ := Except.bind_eq_ok.1 h
    split at h
    · cases h
    · next name front hsteps =>
      obtain ⟨l₀, hw, h⟩ := Except.bind_eq_ok.1 h
      obtain ⟨⟨⟩, hl, h⟩ := Except.bind_eq_ok.1 h
      split at h
      · cases h
      next hdots =>
      split at h
      · cases h
      next hlong =>
      rw [Bool.or_eq_true, decide_eq_true_iff, decide_eq_true_iff, not_or] at hdots
      exact ⟨hsize, front.reverse, name, l₀, by rw [← List.reverse_cons, ← hsteps,
        List.reverse_reverse], hw, directoryAt_eq_ok.1 hl, hdots.1, hdots.2, Nat.le_of_not_lt hlong,
        (Except.ok.inj h).symm⟩
  · rintro ⟨hsize, front, name, l₀, hsteps, hw, hl, hdot, hdots, hlong, rfl⟩
    refine Except.bind_eq_ok.2 ⟨_, hsize, ?_⟩
    rw [hsteps, List.reverse_append, List.reverse_singleton, List.singleton_append]
    refine Except.bind_eq_ok.2 ⟨l₀, by rwa [List.reverse_reverse],
      Except.bind_eq_ok.2 ⟨_, directoryAt_eq_ok.2 hl, ?_⟩⟩
    rw [if_neg (by simp [hdot, hdots]), if_neg (Nat.not_lt.2 hlong)]

theorem named_of_place {t : Tree} {current l : Location} {path : String} {nameless : SystemError}
    (h : t.place current path nameless = .ok l) : Named l := by
  obtain ⟨-, front, name, l₀, hsteps, -, hl₀, hdot, hdots, -, rfl⟩ := place_eq_ok.1 h
  have hmem : name ∈ Path.steps path := by simp [hsteps]
  exact List.forall_mem_append.2 ⟨named_of_get? hl₀,
    List.forall_mem_singleton.2 (Path.isName_of_mem_steps hmem hdot hdots)⟩

/-- Puts at the place of a path what is made of what stands there. -/
def make (t : Tree) (current : Location) (path : String) (nameless : SystemError)
    (f : Option Node → Except SystemError Node) : Except SystemError (Location × Tree) :=
  match h : t.place current path nameless with
  | .error e => .error e
  | .ok l =>
    match f (t.get? l) with
    | .error e => .error e
    | .ok n => .ok (l, t.put l (named_of_place h) n)

theorem make_eq_ok {t t' : Tree} {current l : Location} {path : String} {nameless : SystemError}
    {f : Option Node → Except SystemError Node} :
    t.make current path nameless f = .ok (l, t') ↔
      ∃ (hl : t.place current path nameless = .ok l) (n : Node), f (t.get? l) = .ok n ∧
        t' = t.put l (named_of_place hl) n := by
  rw [make]
  split
  · next e he =>
    refine ⟨nofun, fun ⟨hl, _⟩ => ?_⟩
    cases he.symm.trans hl
  · next l' hl' =>
    constructor
    · intro h
      split at h
      · cases h
      · next n hn =>
        cases h
        exact ⟨hl', n, hn, rfl⟩
    · rintro ⟨hl, n, hn, rfl⟩
      cases hl'.symm.trans hl
      rw [hn]

end Tree

end Files

end JitDump
