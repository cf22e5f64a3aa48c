import Mathlib.Data.List.Basic
import JitDump.Files.Tree
import JitDump.Proofs.Paths

/-!
# Trees of files that grow

A program that makes directories and writes files takes nothing away: whatever
stands at a location goes on standing there, as a thing of its kind.  So a path
that leads somewhere goes on leading there, and a file keeps its content until
something is put in its place.
-/

namespace JitDump.Files

@[simp] theorem Node.kind_eq_directory {n : Node} : n.kind = .directory ↔ n = .directory := by
  cases n <;> simp [kind]

namespace Tree

variable {t t' t'' : Tree} {l l' current : Location} {n : Node} {name path : String}
variable {names : List String}

theorem content?_eq_some {content : Bytes} :
    t.content? l = some content ↔ t.get? l = some (.file content) := by
  rw [content?]
  split <;> simp_all

/-! ## Putting -/

theorem lookup_cons_eq (k l : Location) (n : Node) (nodes : List (Location × Node)) :
    ((k, n) :: nodes).lookup l = if l = k then some n else nodes.lookup l := by
  by_cases h : l = k
  · rw [h, List.lookup_cons_self, if_pos rfl]
  · rw [List.lookup_cons, beq_eq_false_iff_ne.2 h, if_neg h]

theorem lookup_mapNodes (t : Tree) (f : Location → Node → Node) (l : Location) :
    (t.mapNodes f).nodes.lookup l = (t.nodes.lookup l).map (f l) := by
  change (t.nodes.map fun e ↦ (e.1, f e.1 e.2)).lookup l = _
  induction t.nodes with
  | nil => rfl
  | cons e nodes ih =>
    obtain ⟨k, n⟩ := e
    rw [List.map_cons, lookup_cons_eq, lookup_cons_eq, ih]
    split_ifs with h
    · rw [h, Option.map_some]
    · rfl

theorem lookup_put (t : Tree) (hl : Named l) (n : Node) (l' : Location) :
    (t.put l hl n).nodes.lookup l' = if l' = l then some n else t.nodes.lookup l' := by
  rw [put]
  cases hlookup : t.nodes.lookup l with
  | some m =>
    rw [if_pos Option.isSome_some, lookup_mapNodes]
    split_ifs with h
    · rw [h, hlookup, Option.map_some]
    · rw [Option.map_id']
  | none =>
    rw [if_neg (by simp), List.lookup_append, lookup_cons_eq, List.lookup_nil]
    by_cases h : l' = l <;> simp [h, hlookup]

theorem get?_put (hl : l ≠ []) (hn : Named l) (n : Node) (l' : Location) :
    (t.put l hn n).get? l' = if l' = l then some n else t.get? l' := by
  rw [get?, get?, lookup_put]
  split_ifs with he h h
  · rw [List.isEmpty_iff] at he
    exact absurd (h.symm.trans he) hl
  all_goals rfl

theorem content?_put (hl : l ≠ []) (hn : Named l) (n : Node) (h : l' ≠ l) :
    (t.put l hn n).content? l' = t.content? l' := by
  rw [content?, get?_put hl, if_neg h, content?]

/-- Filling a file changes what it holds and nothing else. -/
theorem get?_fill (t : Tree) (l : Location) (content : Bytes) (l' : Location) :
    (t.fill l content).get? l' =
      if l' = l then (t.get? l').map (Node.fill content) else t.get? l' := by
  rw [get?, get?, fill, lookup_mapNodes]
  by_cases he : l'.isEmpty
  · simp [he, Node.fill]
  · rw [if_neg he, if_neg he]
    split_ifs
    · rfl
    · rw [Option.map_id']

theorem content?_fill {old : Bytes} (h : t.content? l = some old) (content : Bytes) :
    (t.fill l content).content? l = some content := by
  rw [content?_eq_some] at h ⊢
  rw [get?_fill, if_pos rfl, h]
  rfl

/-! ## Growing -/

/-- Whatever stands in the first tree stands in the second one, as a thing of its kind. -/
def Grows (t t' : Tree) : Prop :=
  ∀ l n, t.get? l = some n → ∃ n', t'.get? l = some n' ∧ n'.kind = n.kind

theorem Grows.refl (t : Tree) : t.Grows t := fun _ n h ↦ ⟨n, h, rfl⟩

theorem Grows.trans (h : t.Grows t') (h' : t'.Grows t'') : t.Grows t'' := by
  intro l n hn
  obtain ⟨n', hn', hk⟩ := h l n hn
  obtain ⟨n'', hn'', hk'⟩ := h' l n' hn'
  exact ⟨n'', hn'', hk'.trans hk⟩

theorem Grows.directory (h : t.Grows t') (hl : t.get? l = some .directory) :
    t'.get? l = some .directory := by
  obtain ⟨n', hn', hk⟩ := h l _ hl
  rw [hn', Node.kind_eq_directory.1 hk]

/-- What is a file later was one before, if anything stood there. -/
theorem Grows.exists_file {content : Bytes} (h : t.Grows t') (hn : t.get? l = some n)
    (hc : t'.content? l = some content) : ∃ content', t.get? l = some (.file content') := by
  obtain ⟨n', hn', hk⟩ := h l n hn
  rw [content?_eq_some, hn', Option.some_inj] at hc
  subst hc
  cases n with
  | directory => cases hk
  | file content' => exact ⟨content', hn⟩

/-- Putting something where nothing stands, or a thing of its kind. -/
theorem grows_put (hl : l ≠ []) (hn : Named l) (hk : ∀ n', t.get? l = some n' → n.kind = n'.kind) :
    t.Grows (t.put l hn n) := by
  intro l' n' hn'
  rw [get?_put hl]
  split_ifs with h
  · exact ⟨n, rfl, hk n' (h ▸ hn')⟩
  · exact ⟨n', hn', rfl⟩

theorem grows_fill (t : Tree) (l : Location) (content : Bytes) : t.Grows (t.fill l content) := by
  intro l' n hn
  rw [get?_fill, hn]
  split_ifs
  · exact ⟨n.fill content, rfl, by cases n <;> rfl⟩
  · exact ⟨n, rfl, rfl⟩

/-! ## Walking -/

/-- What a step of a path is. -/
theorem step_eq_ok : t.step l name = .ok l' ↔ t.get? l = some .directory ∧
    (name = "." ∧ l' = l ∨ name = ".." ∧ l' = l.dropLast ∨
      name ≠ "." ∧ name ≠ ".." ∧ name.utf8ByteSize ≤ maxName ∧
        (t.get? (l ++ [name])).isSome ∧ l' = l ++ [name]) := by
  rw [← directoryAt_eq_ok]
  constructor
  · intro h
    obtain ⟨⟨⟩, hl, h⟩ := Except.bind_eq_ok.1 h
    refine ⟨hl, ?_⟩
    split_ifs at h with hdot hdots hsize hsome
    · exact .inl ⟨hdot, (Except.ok.inj h).symm⟩
    · exact .inr (.inl ⟨hdots, (Except.ok.inj h).symm⟩)
    · exact .inr (.inr ⟨hdot, hdots, Nat.le_of_not_lt hsize, hsome, (Except.ok.inj h).symm⟩)
  · rintro ⟨hl, h⟩
    refine Except.bind_eq_ok.2 ⟨_, hl, ?_⟩
    obtain ⟨rfl, rfl⟩ | ⟨rfl, rfl⟩ | ⟨hdot, hdots, hsize, hsome, rfl⟩ := h
    · rw [if_pos rfl]
    · rw [if_neg (by decide), if_pos rfl]
    · rw [if_neg hdot, if_neg hdots, if_neg (Nat.not_lt.2 hsize), if_pos hsome]

theorem Grows.step_eq (h : t.Grows t') (hs : t.step l name = .ok l') :
    t'.step l name = .ok l' := by
  rw [step_eq_ok] at hs ⊢
  obtain ⟨hl, hs | hs | ⟨hdot, hdots, hsize, hsome, hs⟩⟩ := hs
  · exact ⟨h.directory hl, .inl hs⟩
  · exact ⟨h.directory hl, .inr (.inl hs)⟩
  · obtain ⟨n, hn⟩ := Option.isSome_iff_exists.1 hsome
    obtain ⟨n', hn', -⟩ := h _ n hn
    exact ⟨h.directory hl, .inr (.inr ⟨hdot, hdots, hsize, hn' ▸ rfl, hs⟩)⟩

theorem walk_cons (t : Tree) (l : Location) (name : String) (names : List String) :
    t.walk l (name :: names) = t.step l name >>= fun l ↦ t.walk l names := rfl

theorem walk_append (t : Tree) (l : Location) (names names' : List String) :
    t.walk l (names ++ names') = t.walk l names >>= fun l ↦ t.walk l names' :=
  List.foldlM_append

theorem walk_singleton (t : Tree) (l : Location) (name : String) :
    t.walk l [name] = t.step l name := bind_pure _

theorem Grows.walk_eq (h : t.Grows t') (hw : t.walk l names = .ok l') :
    t'.walk l names = .ok l' := by
  induction names generalizing l with
  | nil => exact hw
  | cons name names ih =>
    rw [walk_cons] at hw ⊢
    cases hs : t.step l name with
    | error e => rw [hs] at hw; cases hw
    | ok l₁ =>
      rw [hs] at hw
      rw [h.step_eq hs]
      exact ih hw

/-! ## Following a path -/

/-- The names that a path leads along; a slash at its end asks for a directory. -/
def route (path : String) : List String :=
  Path.steps path ++ if Path.endsInSlash path then ["."] else []

/-- Where a path leads, and what stands there. -/
theorem find_eq_ok : t.find current path = .ok (l, n) ↔ wellSized path = .ok () ∧
    t.walk (origin current path) (route path) = .ok l ∧ t.get? l = some n := by
  constructor
  · intro h
    obtain ⟨⟨⟩, hsize, h⟩ := Except.bind_eq_ok.1 h
    obtain ⟨l₁, hw, h⟩ := Except.bind_eq_ok.1 h
    split at h
    · next n₁ hn =>
      cases h
      exact ⟨hsize, hw, hn⟩
    · cases h
  · rintro ⟨hsize, hw, hn⟩
    refine Except.bind_eq_ok.2 ⟨_, hsize, Except.bind_eq_ok.2 ⟨_, hw, ?_⟩⟩
    rw [hn]

/-- Nothing is lost on the way to where a path leads. -/
theorem Grows.find_eq (h : t.Grows t') (hf : t.find current path = .ok (l, n)) :
    ∃ n', t'.find current path = .ok (l, n') ∧ n'.kind = n.kind := by
  obtain ⟨hsize, hw, hn⟩ := find_eq_ok.1 hf
  obtain ⟨n', hn', hk⟩ := h l n hn
  exact ⟨n', find_eq_ok.2 ⟨hsize, h.walk_eq hw, hn'⟩, hk⟩

theorem Grows.place_eq {nameless : SystemError} (h : t.Grows t')
    (hp : t.place current path nameless = .ok l) : t'.place current path nameless = .ok l := by
  obtain ⟨hsize, front, name, l₀, hsteps, hw, hl, hname⟩ := place_eq_ok.1 hp
  exact place_eq_ok.2 ⟨hsize, front, name, l₀, hsteps, h.walk_eq hw, h.directory hl, hname⟩

/-! ## Names behind a path -/

/-- The names behind a path stand in the directory at a location. -/
def Leads (t : Tree) (current : Location) (path : String) (l : Location) : Prop :=
  t.walk (origin current path) (Path.steps path) = .ok l

theorem Leads.unique (h : t.Leads current path l) (h' : t.Leads current path l') : l = l' :=
  Except.ok.inj (h.symm.trans h')

theorem Grows.leads (h : t.Grows t') (hl : t.Leads current path l) : t'.Leads current path l :=
  h.walk_eq hl

theorem leads_of_find (h : t.find current path = .ok (l, n)) : t.Leads current path l := by
  obtain ⟨-, hw, -⟩ := find_eq_ok.1 h
  rw [route, walk_append] at hw
  obtain ⟨l₁, hw, hdot⟩ := Except.bind_eq_ok.1 hw
  split_ifs at hdot
  · rw [walk_singleton] at hdot
    obtain ⟨-, ⟨-, rfl⟩ | ⟨h, -⟩ | ⟨h, -⟩⟩ := step_eq_ok.1 hdot
    · exact hw
    · exact absurd h (by decide)
    · exact absurd rfl h
  · cases hdot
    exact hw

/-- A path leads to its place if something stands there. -/
theorem leads_of_place {nameless : SystemError} (hp : t.place current path nameless = .ok l)
    (hn : t.get? l = some n) : t.Leads current path l := by
  obtain ⟨-, front, name, l₀, hsteps, hw, hl, hdot, hdots, hlong, rfl⟩ := place_eq_ok.1 hp
  rw [Leads, hsteps, walk_append]
  refine Except.bind_eq_ok.2 ⟨l₀, hw, ?_⟩
  rw [walk_singleton]
  exact step_eq_ok.2 ⟨hl, .inr (.inr ⟨hdot, hdots, hlong, hn ▸ rfl, rfl⟩)⟩

/-- What stands at the place of a path is found, unless the path asks for a directory. -/
theorem find_of_place {nameless : SystemError} (hslash : Path.endsInSlash path = false)
    (hp : t.place current path nameless = .ok l) (hn : t.get? l = some n) :
    t.find current path = .ok (l, n) := by
  refine find_eq_ok.2 ⟨(place_eq_ok.1 hp).1, ?_, hn⟩
  rw [route, hslash, if_neg (by decide), List.append_nil]
  exact leads_of_place hp hn

theorem place_ne_nil {nameless : SystemError} (hp : t.place current path nameless = .ok l) :
    l ≠ [] := by
  obtain ⟨-, front, name, l₀, -, -, -, -, -, -, rfl⟩ := place_eq_ok.1 hp
  simp

/-- A path without a last part leads to where it starts. -/
theorem leads_of_parent? (h : Path.parent? path = none) :
    t.Leads current path (origin current path) := by
  have hbackwards : Path.backwards path = [] := by
    rw [Path.parent?] at h
    split at h
    · assumption
    · cases h
  have hsteps : ∀ name ∈ Path.steps path, Path.isAbsolute path = true ∧ name = "." :=
    fun name hname ↦ Path.of_backwards_eq_nil hbackwards hname
  rw [Leads]
  generalize Path.steps path = names at hsteps
  induction names with
  | nil => rfl
  | cons name names ih =>
    obtain ⟨habsolute, rfl⟩ := hsteps name List.mem_cons_self
    have horigin : origin current path = [] := by rw [origin, if_pos habsolute]
    rw [walk_cons]
    refine Except.bind_eq_ok.2 ⟨_, step_eq_ok.2 ⟨?_, .inl ⟨rfl, rfl⟩⟩,
      ih fun name hname ↦ hsteps name (List.mem_cons_of_mem _ hname)⟩
    rw [horigin]
    rfl

theorem Leads.place_join {nameless : SystemError} (h : t.Leads current path l)
    (hname : Path.IsName name) :
    t.place current (Path.join path name) nameless = .ok l' ↔
      wellSized (Path.join path name) = .ok () ∧ t.get? l = some .directory ∧
        name.utf8ByteSize ≤ maxName ∧ l' = l ++ [name] := by
  have horigin : origin current (Path.join path name) = origin current path := by
    rw [origin, Path.isAbsolute_join path hname, origin]
  rw [place_eq_ok, Path.steps_join path hname, horigin]
  constructor
  · rintro ⟨hsize, front, name', l₀, hsteps, hw, hl, -, -, hlong, rfl⟩
    obtain ⟨rfl, hnames⟩ := List.append_inj' hsteps rfl
    obtain rfl := List.singleton_inj.1 hnames
    obtain rfl := h.unique hw
    exact ⟨hsize, hl, hlong, rfl⟩
  · rintro ⟨hsize, hl, hlong, rfl⟩
    exact ⟨hsize, _, name, l, rfl, h, hl, hname.ne_dot, hname.ne_dots, hlong, rfl⟩

theorem Leads.find_join (h : t.Leads current path l) (hname : Path.IsName name) :
    t.find current (Path.join path name) = .ok (l', n) ↔
      wellSized (Path.join path name) = .ok () ∧ t.get? l = some .directory ∧
        name.utf8ByteSize ≤ maxName ∧ l' = l ++ [name] ∧ t.get? l' = some n := by
  constructor
  · intro hf
    obtain ⟨hsize, -, hn⟩ := find_eq_ok.1 hf
    have hl := leads_of_find hf
    rw [Leads, origin, Path.isAbsolute_join path hname, Path.steps_join path hname,
      walk_append] at hl
    obtain ⟨l₀, hw, hs⟩ := Except.bind_eq_ok.1 hl
    rw [walk_singleton] at hs
    obtain rfl := h.unique hw
    obtain ⟨hdir, ⟨hdot, -⟩ | ⟨hdots, -⟩ | ⟨-, -, hlong, -, hl'⟩⟩ := step_eq_ok.1 hs
    · exact absurd hdot hname.ne_dot
    · exact absurd hdots hname.ne_dots
    · exact ⟨hsize, hdir, hlong, hl', hn⟩
  · rintro ⟨hsize, hdir, hlong, hl', hn⟩
    have hp : t.place current (Path.join path name) .isDirectory = .ok l' :=
      (h.place_join hname).2 ⟨hsize, hdir, hlong, hl'⟩
    exact find_of_place (Path.endsInSlash_join path hname) hp hn

/-! ## What is in a directory -/

theorem mem_children : (name, n) ∈ t.children l ↔ (l ++ [name], n) ∈ t.nodes := by
  rw [children, List.mem_filterMap]
  constructor
  · rintro ⟨⟨k, m⟩, hm, h⟩
    dsimp only at h
    split at h
    · cases h
    · next name' front hk =>
      split_ifs at h with hl
      cases h
      rw [← hl, ← List.reverse_cons, ← hk, List.reverse_reverse]
      exact hm
  · intro h
    refine ⟨(l ++ [name], n), h, ?_⟩
    simp

theorem exists_get?_of_mem_children (h : (name, n) ∈ t.children l) :
    ∃ n', t.get? (l ++ [name]) = some n' := by
  rw [get?, if_neg (by simp), ← Option.ne_none_iff_exists', Ne, List.lookup_eq_none_iff]
  exact fun hnone ↦ by simpa using hnone _ (mem_children.1 h)

theorem isName_of_mem_children (h : (name, n) ∈ t.children l) : Path.IsName name :=
  t.named _ (mem_children.1 h) name (by simp)

end Tree

end JitDump.Files
