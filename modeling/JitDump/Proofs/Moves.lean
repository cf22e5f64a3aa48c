import JitDump.Proofs.Worlds

/-!
# What programs do to the files of a world

A program `Moves` along a relation if it takes every world to a related one, and
if worlds that cannot be told apart by it stay so, with the same result.
Programs that read and report keep all files; those that make directories keep
what is in the files, and make no requests, so that they do the same wherever
the files are the same.
-/

namespace JitDump

open Files

variable {α β ε : Type}

/-- What a program returns in a world, and the world afterwards. -/
abbrev World.runs (w : World) (x : StateM World α) : α × World := x.run w

/-- What a program that may fail comes to in a world, and the world afterwards. -/
abbrev World.tries (w : World) (x : ExceptT ε (StateM World) α) : Except ε α × World := x.run.run w

open World

/-! ## Running -/

namespace World

variable {x : StateM World α} {f : α → StateM World β} {a : α} {e : ε} {w w₁ : World}
variable {path : String}

theorem runs_bind : w.runs (x >>= f) = (w.runs x).2.runs (f (w.runs x).1) := rfl

theorem tries_lift :
    w.tries (liftM x : ExceptT ε (StateM World) α) = (.ok (w.runs x).1, (w.runs x).2) := rfl

theorem tries_bind {x : ExceptT ε (StateM World) α} {f : α → ExceptT ε (StateM World) β} :
    w.tries (x >>= f) =
      match w.tries x with
      | (.ok a, w₁) => w₁.tries (f a)
      | (.error e, w₁) => (.error e, w₁) := by
  change (x >>= f).run.run w = match x.run.run w with
    | (.ok a, w₁) => w₁.tries (f a)
    | (.error e, w₁) => (.error e, w₁)
  rw [ExceptT.run_bind, StateT.run_bind]
  cases x.run.run w with | _ r w₁
  cases r <;> rfl

theorem tries_bind_ok {x : ExceptT ε (StateM World) α} {f : α → ExceptT ε (StateM World) β}
    (hx : w.tries x = (.ok a, w₁)) : w.tries (x >>= f) = w₁.tries (f a) := by
  rw [tries_bind, hx]

theorem tries_bind_error {x : ExceptT ε (StateM World) α} {f : α → ExceptT ε (StateM World) β}
    (hx : w.tries x = (.error e, w₁)) : w.tries (x >>= f) = (.error e, w₁) := by
  rw [tries_bind, hx]

theorem runs_kind : w.runs (Host.kind path) = (w.kind path, w) := rfl

theorem runs_openFile : w.runs (Host.openFile path) = (w.openFile path, w.asked) := rfl

theorem runs_entries : w.runs (Host.entries path) = (w.entries path, w) := rfl

theorem runs_makeDirectory : w.runs (Host.makeDirectory path) =
    match w.makeDirectory path with
    | .ok w' => (.ok (), w')
    | .error e => (.error e, w) := rfl

theorem runs_create : w.runs (Host.create path) =
    match w.create path with
    | .ok (l, w') => (.ok l, w'.asked)
    | .error e => (.error e, w.asked) := rfl

theorem runs_flush {l : Location} :
    w.runs (Host.flush l : StateM World _) = w.write l [] := rfl

end World

variable {S R : World → World → Prop} [IsPreorder World R]

/-- A program does the same in worlds that are related by `S`, up to `S`, and leads along `R`. -/
structure Moves (S R : World → World → Prop) (x : StateM World α) : Prop where
  result : ∀ {w w' : World}, S w w' → (w'.runs x).1 = (w.runs x).1
  files : ∀ {w w' : World}, S w w' → S (w.runs x).2 (w'.runs x).2
  moves : ∀ w : World, R w (w.runs x).2

namespace Moves

variable {x : StateM World α} {f : α → StateM World β} {w w' : World}

theorem pure (a : α) : Moves S R (Pure.pure a : StateM World α) where
  result _ := rfl
  files h := h
  moves w := refl_of R w

theorem bind (hx : Moves S R x) (hf : ∀ a, Moves S R (f a)) : Moves S R (x >>= f) where
  result {w w'} h := by
    change ((w'.runs x).2.runs (f (w'.runs x).1)).1 = ((w.runs x).2.runs (f (w.runs x).1)).1
    rw [hx.result h]
    exact (hf _).result (hx.files h)
  files {w w'} h := by
    change S ((w.runs x).2.runs (f (w.runs x).1)).2 ((w'.runs x).2.runs (f (w'.runs x).1)).2
    rw [hx.result h]
    exact (hf _).files (hx.files h)
  moves w := trans_of R (hx.moves w) ((hf _).moves _)

omit [IsPreorder World R] in
theorem of_runs {a : α} (hx : Moves S R x) (h : w.runs x = (a, w')) : R w w' := by
  have hmoves := hx.moves w
  rwa [h] at hmoves

omit [IsPreorder World R] in
theorem mono {R' : World → World → Prop} (hx : Moves S R x)
    (h : ∀ {w w' : World}, R w w' → R' w w') : Moves S R' x :=
  ⟨hx.result, hx.files, fun w ↦ h (hx.moves w)⟩

theorem map (hx : Moves S R x) (f : α → β) : Moves S R (f <$> x) := hx.bind fun a ↦ .pure (f a)

theorem forM {f : α → StateM World PUnit} (hf : ∀ a, Moves S R (f a)) (as : List α) :
    Moves S R (as.forM f) := by
  induction as with
  | nil => exact .pure _
  | cons a as ih => exact (hf a).bind fun _ ↦ ih

/-! ## Failures -/

theorem throw (e : ε) : Moves S R (throw e : ExceptT ε (StateM World) α).run := .pure _

theorem lift (hx : Moves S R x) : Moves S R (liftM x : ExceptT ε (StateM World) α).run := hx.map _

theorem bindE {x : ExceptT ε (StateM World) α} {f : α → ExceptT ε (StateM World) β}
    (hx : Moves S R x.run) (hf : ∀ a, Moves S R (f a).run) : Moves S R (x >>= f).run := by
  rw [ExceptT.run_bind]
  refine hx.bind fun r ↦ ?_
  cases r with
  | ok a => exact hf a
  | error e => exact .pure _

/-! ## What a host is asked for -/

/-- Looking at what is the same in worlds that are not told apart. -/
theorem look {f : World → α} (hf : ∀ {w w' : World}, S w w' → f w' = f w) :
    Moves S R (do return f (← get) : StateM World α) where
  result h := hf h
  files h := h
  moves w := refl_of R w

section

variable (hS : ∀ {w w' : World}, S w w' → w.SameFiles w')

include hS

theorem currentDirectory : Moves S R (Host.currentDirectory : StateM World String) :=
  look (f := fun w ↦ "/" ++ "/".intercalate w.current) fun h ↦ by rw [(hS h).current]

theorem kind (path : String) : Moves S R (Host.kind path : StateM World _) :=
  look (f := World.kind path) fun h ↦ by rw [World.kind, World.kind, (hS h).tree, (hS h).current]

theorem entries (path : String) : Moves S R (Host.entries path : StateM World _) :=
  look (f := World.entries path) fun h ↦ by
    rw [World.entries, World.entries, (hS h).tree, (hS h).current]

end

theorem report (line : String) : Moves Alike Alike (Host.report line : StateM World _) where
  result _ := rfl
  files h := ⟨h.tree, h.current, h.answers, h.requests⟩
  moves _ := ⟨rfl, rfl, rfl, rfl⟩

/-- Opening a file takes a request. -/
theorem openFile (path : String) : Moves Alike SameFiles (Host.openFile path : StateM World _) where
  result {w w'} h := by
    change w'.openFile path = w.openFile path
    rw [h.eq]
    rfl
  files h := ⟨h.tree, h.current, h.answers, congrArg (· + 1) h.requests⟩
  moves w := sameFiles_asked w

/-! ## Making directories -/

theorem makeDirectory (path : String) :
    Moves SameFiles Extends (Host.makeDirectory path : StateM World _) where
  result {w w'} h := by
    simp only [World.runs_makeDirectory, h.makeDirectory_eq]
    cases w.makeDirectory path <;> rfl
  files {w w'} h := by
    simp only [World.runs_makeDirectory, h.makeDirectory_eq]
    cases hm : w.makeDirectory path with
    | error e => exact h
    | ok v =>
      obtain ⟨l, hl, -, rfl⟩ := makeDirectory_eq_ok.1 hm
      exact ⟨⟨h.current, h.answers, h.requests⟩, rfl⟩
  moves w := by
    rw [World.runs_makeDirectory]
    cases hm : w.makeDirectory path with
    | error e => exact refl_of Extends w
    | ok w' => exact makeDirectory_extends hm

theorem makeMissing (paths : List String) :
    Moves SameFiles Extends (Host.makeMissing paths : StateM World _) := by
  induction paths with
  | nil => exact .pure _
  | cons path paths ih =>
    rw [Host.makeMissing]
    refine (makeDirectory path).bind fun r ↦ ?_
    rcases r with e | _
    · refine (kind id path).bind fun r ↦ ?_
      rcases r with e' | _ | _
      · exact .pure _
      · exact .pure _
      · exact ih
    · exact ih

theorem makeAncestors (missing paths : List String) :
    Moves SameFiles Extends (Host.makeAncestors missing paths : StateM World _) := by
  induction paths generalizing missing with
  | nil => exact .pure _
  | cons path paths ih =>
    rw [Host.makeAncestors]
    split_ifs
    · exact .pure _
    · refine (makeDirectory path).bind fun r ↦ ?_
      split
      · exact .pure _
      · exact ih _
      · refine (kind id path).bind fun r ↦ ?_
        split <;> exact .pure _

theorem makeDirectories (path : String) :
    Moves SameFiles Extends (Host.makeDirectories path : StateM World _) := by
  rw [Host.makeDirectories]
  refine (makeAncestors [] _).bind fun r ↦ ?_
  rcases r with e | missing
  · exact .pure _
  · exact makeMissing missing

end Moves

/-! ## Where made directories lead -/

namespace World

variable {w w' : World} {path : String} {paths missing missing' : List String} {l : Location}

theorem leads_of_kind {k : FileKind} (h : w.kind path = .ok k) : ∃ l, w.Leads path l := by
  obtain ⟨l, n, hf, -⟩ := kind_eq_ok.1 h
  exact ⟨l, Tree.leads_of_find hf⟩

theorem leads_of_makeDirectory (h : w.makeDirectory path = .ok w') : ∃ l, w'.Leads path l := by
  have he := makeDirectory_extends h
  obtain ⟨l, hp, -, rfl⟩ := makeDirectory_eq_ok.1 h
  refine ⟨l, Tree.leads_of_place (n := .directory) (he.grows.place_eq hp) ?_⟩
  rw [Tree.get?_put (Tree.place_ne_nil hp), if_pos rfl]

theorem makeMissing_cons
    (h : w.runs (Host.makeMissing (path :: paths)) = (.ok (), w')) :
    ∃ w₁ : World, (∃ l, w₁.Leads path l) ∧
      w₁.runs (Host.makeMissing paths) = (.ok (), w') := by
  rw [Host.makeMissing, runs_bind, runs_makeDirectory] at h
  cases hm : w.makeDirectory path with
  | ok w₁ =>
    rw [hm] at h
    exact ⟨w₁, leads_of_makeDirectory hm, h⟩
  | error e =>
    simp only [hm, runs_bind, runs_kind] at h
    cases hk : w.kind path with
    | error e' =>
      rw [hk] at h
      cases h
    | ok k =>
      rw [hk] at h
      cases k with
      | file => cases h
      | directory => exact ⟨w, leads_of_kind hk, h⟩

theorem makeMissing_leads
    (h : w.runs (Host.makeMissing paths) = (.ok (), w')) :
    ∀ path ∈ paths, ∃ l, w'.Leads path l := by
  induction paths generalizing w with
  | nil => simp
  | cons path paths ih =>
    obtain ⟨w₁, ⟨l, hl⟩, hrest⟩ := makeMissing_cons h
    have he := (Moves.makeMissing paths).of_runs hrest
    exact List.forall_mem_cons.2 ⟨⟨l, he.leads hl⟩, ih hrest⟩

/-- The first of some paths leads somewhere, unless it is kept to be made. -/
theorem makeAncestors_cons (h : w.runs (Host.makeAncestors missing (path :: paths)) =
      (.ok missing', w')) :
    (missing' = missing ∧ ∃ l, w'.Leads path l) ∨
      w.runs (Host.makeAncestors (path :: missing) paths) = (.ok missing', w') := by
  rw [Host.makeAncestors] at h
  split_ifs at h with hparent
  · cases h
    exact .inl ⟨rfl, _, Tree.leads_of_parent? (Option.isNone_iff_eq_none.1 hparent)⟩
  · rw [runs_bind, runs_makeDirectory] at h
    cases hm : w.makeDirectory path with
    | ok w₁ =>
      rw [hm] at h
      cases h
      exact .inl ⟨rfl, leads_of_makeDirectory hm⟩
    | error e =>
      rw [hm] at h
      dsimp only at h
      split at h
      · next hok => cases hok
      · exact .inr h
      · rw [runs_bind, runs_kind] at h
        cases hk : w.kind path with
        | error e' =>
          rw [hk] at h
          cases h
        | ok k =>
          rw [hk] at h
          cases k with
          | file => cases h
          | directory =>
            cases h
            exact .inl ⟨rfl, leads_of_kind hk⟩

/-- Those that are to be made stay so. -/
theorem makeAncestors_subset
    (h : w.runs (Host.makeAncestors missing paths) = (.ok missing', w')) :
    missing ⊆ missing' := by
  induction paths generalizing missing w with
  | nil =>
    cases h
    exact List.Subset.refl _
  | cons path paths ih =>
    obtain ⟨rfl, -⟩ | hrest := makeAncestors_cons h
    · exact List.Subset.refl _
    · exact fun path hpath ↦ ih hrest (List.mem_cons_of_mem _ hpath)

/-- A directory that could be made leads somewhere. -/
theorem makeDirectories_leads
    (h : w.runs (Host.makeDirectories path) = (.ok (), w')) :
    ∃ l, w'.Leads path l := by
  rw [Host.makeDirectories, runs_bind] at h
  generalize hm : w.runs (Host.makeAncestors [] (Path.ancestors path)) = r at h
  obtain ⟨_ | missing, w₁⟩ := r
  · cases h
  · have he := (Moves.makeMissing missing).of_runs h
    obtain ⟨paths, hpaths⟩ : ∃ paths, Path.ancestors path = path :: paths := by
      rw [Path.ancestors]
      cases path.length <;> rw [Path.ancestorsUpTo]
      · exact ⟨_, rfl⟩
      · split <;> exact ⟨_, rfl⟩
    rw [hpaths] at hm
    obtain ⟨-, l, hl⟩ | hrest := makeAncestors_cons hm
    · exact ⟨l, he.leads hl⟩
    · exact makeMissing_leads h path (makeAncestors_subset hrest List.mem_cons_self)

end World

end JitDump
