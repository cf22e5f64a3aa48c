import Mathlib.Order.Defs.Unbundled
import JitDump.Files.World
import JitDump.Proofs.Delivery
import JitDump.Proofs.FileTrees

/-!
# Worlds before and after

A system answers one request after another, so worlds are followed by the
requests that were made as well as by their files.  Between two worlds the files
may be the same, there may be more directories, or something may have changed at
some locations.  A file that is opened hands out all its content unless a read
fails, and one that is written holds all that was written unless a request is
refused.
-/

namespace JitDump

open Files

namespace Answer

variable {a : Answer} {reads : List FileRead} {content : Bytes}

/-- A request is granted, and no read of what is opened by it fails. -/
structure Granted (a : Answer) : Prop where
  refusal : a.refusal = none
  reads : ∀ e, .failed e ∉ a.reads

theorem granted_plain : Granted plain := ⟨rfl, fun _ ↦ List.not_mem_nil⟩

theorem closing_turns (h : ∀ e, .failed e ∉ reads) (content : Bytes) :
    Turn.closing .finished (turns reads content) = .finished := by
  induction reads generalizing content with
  | nil => cases content <;> rfl
  | cons r reads ih =>
    have hrest : ∀ e, .failed e ∉ reads := fun e he ↦ h e (List.mem_cons_of_mem _ he)
    cases r with
    | piece more =>
      cases content with
      | nil => rfl
      | cons b content => exact ih hrest (content.drop more)
    | interrupted => exact ih hrest content
    | failed e => exact absurd List.mem_cons_self (h e)

theorem delivered_turns (h : Turn.closing .finished (turns reads content) = .finished) :
    Turn.delivered (turns reads content) = content := by
  induction reads generalizing content with
  | nil => cases content <;> simp [turns, Turn.delivered]
  | cons r reads ih =>
    cases r with
    | piece more =>
      cases content with
      | nil => rfl
      | cons b content =>
        have hrest : Turn.delivered (turns reads (content.drop more)) = content.drop more := ih h
        change b :: content.take more ++ Turn.delivered (turns reads (content.drop more)) = _
        rw [hrest, List.cons_append, List.take_append_drop]
    | interrupted => exact ih h
    | failed e => cases h

/-- Without a failure a file is read to its end. -/
theorem Granted.closing_source (h : a.Granted) (content : Bytes) :
    (a.source content).closing = .finished := closing_turns h.reads content

/-- What comes up to the end of a file is its content. -/
theorem delivered_source (h : (a.source content).closing = .finished) :
    (a.source content).delivered = content := delivered_turns h

end Answer

namespace World

variable {w w' w'' w₁ w₂ : World}

/-! ## Later worlds -/

/-- A world of the same system in which no fewer requests have been made. -/
structure Later (w w' : World) : Prop where
  current : w'.current = w.current
  answers : w'.answers = w.answers
  requests : w.requests ≤ w'.requests

instance : IsPreorder World Later where
  refl _ := ⟨rfl, rfl, Nat.le_refl _⟩
  trans _ _ _ h h' := ⟨h'.current.trans h.current, h'.answers.trans h.answers,
    Nat.le_trans h.requests h'.requests⟩

/-- Worlds that differ in what has been said and reported at most. -/
structure Alike (w w' : World) : Prop where
  tree : w'.tree = w.tree
  current : w'.current = w.current
  answers : w'.answers = w.answers
  requests : w'.requests = w.requests

instance : IsPreorder World Alike where
  refl _ := ⟨rfl, rfl, rfl, rfl⟩
  trans _ _ _ h h' := ⟨h'.tree.trans h.tree, h'.current.trans h.current,
    h'.answers.trans h.answers, h'.requests.trans h.requests⟩

/-- A later world with the same files. -/
structure SameFiles (w w' : World) : Prop extends Later w w' where
  tree : w'.tree = w.tree

instance : IsPreorder World SameFiles where
  refl w := ⟨refl_of Later w, rfl⟩
  trans _ _ _ h h' := ⟨trans_of Later h.toLater h'.toLater, h'.tree.trans h.tree⟩

/-- Nothing is lost and every file has its content, but there may be more directories. -/
structure Extends (w w' : World) : Prop extends Later w w' where
  grows : w.tree.Grows w'.tree
  content : ∀ l, w'.tree.content? l = w.tree.content? l

instance : IsPreorder World Extends where
  refl w := ⟨refl_of Later w, .refl w.tree, fun _ ↦ rfl⟩
  trans _ _ _ h h' := ⟨trans_of Later h.toLater h'.toLater, h.grows.trans h'.grows,
    fun l ↦ (h'.content l).trans (h.content l)⟩

/-- Nothing is lost, there are no more directories, and what stands outside of some locations is as
before. -/
structure Changes (P : Location → Prop) (w w' : World) : Prop extends Later w w' where
  grows : w.tree.Grows w'.tree
  directory : ∀ l, w'.tree.get? l = some .directory → w.tree.get? l = some .directory
  others : ∀ l, ¬ P l → w'.tree.get? l = w.tree.get? l

variable {P Q : Location → Prop} {l : Location}

/-- Worlds that are alike are the same but for what has been said and reported. -/
theorem Alike.eq (h : w.Alike w') : w' = { w with output := w'.output, errors := w'.errors } := by
  obtain ⟨tree, current, output, errors, answers, requests⟩ := w'
  obtain ⟨rfl, rfl, rfl, rfl⟩ := h
  rfl

theorem Alike.sameFiles (h : w.Alike w') : w.SameFiles w' :=
  ⟨⟨h.current, h.answers, Nat.le_of_eq h.requests.symm⟩, h.tree⟩

theorem sameFiles_asked (w : World) : w.SameFiles w.asked :=
  ⟨⟨rfl, rfl, Nat.le_succ w.requests⟩, rfl⟩

theorem SameFiles.extends (h : w.SameFiles w') : w.Extends w' where
  toLater := h.toLater
  grows := h.tree ▸ .refl w.tree
  content l := by rw [h.tree]

theorem SameFiles.changes (h : w.SameFiles w') (P : Location → Prop) : w.Changes P w' where
  toLater := h.toLater
  grows := h.tree ▸ .refl w.tree
  directory l hl := by rwa [h.tree] at hl
  others l _ := by rw [h.tree]

theorem Changes.trans (h : w.Changes P w') (h' : w'.Changes P w'') : w.Changes P w'' where
  toLater := trans_of Later h.toLater h'.toLater
  grows := h.grows.trans h'.grows
  directory l hl := h.directory l (h'.directory l hl)
  others l hl := (h'.others l hl).trans (h.others l hl)

theorem Changes.mono (h : w.Changes P w') (hPQ : ∀ l, P l → Q l) : w.Changes Q w' :=
  ⟨h.toLater, h.grows, h.directory, fun l hl ↦ h.others l (mt (hPQ l) hl)⟩

theorem Changes.content?_eq (h : w.Changes P w') (hl : ¬ P l) :
    w'.tree.content? l = w.tree.content? l := by
  rw [Tree.content?, h.others l hl, Tree.content?]

/-- The system has granted all that was asked for between two worlds. -/
def Granted (w w' : World) : Prop :=
  ∀ n, w.requests ≤ n → n < w'.requests → (w.answers n).Granted

theorem granted_of_plain (h : ∀ n, w.answers n = .plain) (w' : World) : w.Granted w' :=
  fun n _ _ ↦ h n ▸ Answer.granted_plain

theorem Granted.mono (h : w.Granted w') (hw : w.Later w₁) (hw' : w₂.Later w') : w₁.Granted w₂ := by
  intro n hn hn'
  rw [hw.answers]
  exact h n (Nat.le_trans hw.requests hn) (Nat.lt_of_lt_of_le hn' hw'.requests)

theorem Granted.after (h : w.Granted w') (hw : w.Later w₁) : w₁.Granted w' :=
  h.mono hw (refl_of Later w')

theorem Granted.answer (h : w.Granted w') (hlt : w.requests < w'.requests) : w.answer.Granted :=
  h w.requests (Nat.le_refl _) hlt

/-! ## Looking at files -/

variable {path : String} {content : Bytes}

/-- What the file at a path holds. -/
def read (path : String) (w : World) : Except SystemError Bytes := do
  match ← w.tree.find w.current path with
  | (_, .file content) => .ok content
  | (_, .directory) => .error .isDirectory

theorem kind_eq_ok {k : FileKind} :
    w.kind path = .ok k ↔ ∃ l n, w.tree.find w.current path = .ok (l, n) ∧ n.kind = k := by
  rw [kind]
  cases w.tree.find w.current path with
  | error e => simp [Except.map]
  | ok found => obtain ⟨l, n⟩ := found; simp [Except.map]

theorem read_eq_ok :
    w.read path = .ok content ↔ ∃ l, w.tree.find w.current path = .ok (l, .file content) := by
  rw [read, Except.bind_eq_ok]
  constructor
  · rintro ⟨⟨l, n⟩, hf, h⟩
    cases n with
    | directory => cases h
    | file content' =>
      cases h
      exact ⟨l, hf⟩
  · rintro ⟨l, hf⟩
    exact ⟨_, hf, rfl⟩

theorem SameFiles.read_eq (h : w.SameFiles w') (path : String) : w'.read path = w.read path := by
  rw [read, read, h.tree, h.current]

theorem Extends.find_eq (h : w.Extends w')
    (hf : w.tree.find w.current path = .ok (l, .file content)) :
    w'.tree.find w'.current path = .ok (l, .file content) := by
  obtain ⟨n, hf', -⟩ := h.grows.find_eq hf
  have hc : w'.tree.content? l = some content := by
    rw [h.content, Tree.content?_eq_some]
    exact (Tree.find_eq_ok.1 hf).2.2
  rw [Tree.content?_eq_some, (Tree.find_eq_ok.1 hf').2.2, Option.some_inj] at hc
  rw [h.current, hf', hc]

theorem Changes.find_eq (h : w.Changes P w') {n : Node}
    (hf : w.tree.find w.current path = .ok (l, n)) (hl : ¬ P l) :
    w'.tree.find w'.current path = .ok (l, n) := by
  obtain ⟨n', hf', -⟩ := h.grows.find_eq hf
  have hn := (h.others l hl).trans (Tree.find_eq_ok.1 hf).2.2
  rw [(Tree.find_eq_ok.1 hf').2.2, Option.some_inj] at hn
  rw [h.current, hf', hn]

/-! ## Requests -/

/-- What is opened hands out a file, or it is a directory, which no read can be made of. -/
theorem openFile_eq_ok {source : Source} : w.openFile path = .ok source ↔
    w.answer.refusal = none ∧
      ((∃ content, w.read path = .ok content ∧ source = w.answer.source content) ∨
        ∃ l, w.tree.find w.current path = .ok (l, .directory) ∧
          source = ⟨[], .failing SystemError.isDirectory.message⟩) := by
  rw [openFile, Except.bind_eq_ok]
  constructor
  · rintro ⟨⟨l, n⟩, hf, h⟩
    split at h
    · cases h
    · next hr heq =>
      cases heq
      exact ⟨hr, .inl ⟨_, read_eq_ok.2 ⟨l, hf⟩, (Except.ok.inj h).symm⟩⟩
    · next hr heq =>
      cases heq
      exact ⟨hr, .inr ⟨l, hf, (Except.ok.inj h).symm⟩⟩
  · rintro ⟨hr, ⟨content, hread, rfl⟩ | ⟨l, hf, rfl⟩⟩
    · obtain ⟨l, hf⟩ := read_eq_ok.1 hread
      exact ⟨_, hf, by simp only [hr]⟩
    · exact ⟨_, hf, by simp only [hr]⟩

/-- A file that is handed out is read as it is, where that is granted. -/
theorem openFile_of_read (hg : w.answer.Granted) (hr : w.read path = .ok content) :
    w.openFile path = .ok (w.answer.source content) :=
  openFile_eq_ok.2 ⟨hg.refusal, .inl ⟨content, hr, rfl⟩⟩

/-- What is handed out of a file is what it holds. -/
theorem source_of_read {source : Source} (hr : w.read path = .ok content)
    (ho : w.openFile path = .ok source) : source = w.answer.source content := by
  obtain ⟨l, hf⟩ := read_eq_ok.1 hr
  obtain ⟨-, ⟨content', hr', rfl⟩ | ⟨l', hf', -⟩⟩ := openFile_eq_ok.1 ho
  · cases hr.symm.trans hr'
    rfl
  · cases hf.symm.trans hf'

/-- What is read to its end is a file. -/
theorem read_of_openFile {source : Source} (ho : w.openFile path = .ok source)
    (hc : source.closing = .finished) :
    ∃ content, w.read path = .ok content ∧ source = w.answer.source content := by
  obtain ⟨-, h | ⟨l, -, rfl⟩⟩ := openFile_eq_ok.1 ho
  · exact h
  · cases hc

theorem makeDirectory_eq_ok : w.makeDirectory path = .ok w' ↔
    ∃ (l : Location) (hl : w.tree.place w.current path .alreadyThere = .ok l),
      w.tree.get? l = none ∧
        w' = { w with tree := w.tree.put l (Tree.named_of_place hl) .directory } := by
  rw [makeDirectory, Except.bind_eq_ok]
  constructor
  · rintro ⟨⟨l, tree⟩, hmake, h⟩
    obtain ⟨hl, n, hn, rfl⟩ := Tree.make_eq_ok.1 hmake
    refine ⟨l, hl, ?_⟩
    cases hget : w.tree.get? l with
    | some n' =>
      rw [hget] at hn
      cases hn
    | none =>
      rw [hget] at hn
      cases hn
      exact ⟨rfl, (Except.ok.inj h).symm⟩
  · rintro ⟨l, hl, hget, rfl⟩
    exact ⟨(l, _), Tree.make_eq_ok.2 ⟨hl, _, by rw [hget], rfl⟩, rfl⟩

theorem SameFiles.makeDirectory_eq (h : w.SameFiles w') (path : String) :
    w'.makeDirectory path =
      (w.makeDirectory path).map fun w₁ ↦ { w' with tree := w₁.tree } := by
  rw [makeDirectory, makeDirectory, h.tree, h.current]
  cases w.tree.make w.current path .alreadyThere _ <;> rfl

/-- A file can be made at a path, as far as that is not up to the system. -/
def Creatable (w : World) (path : String) : Prop :=
  Path.endsInSlash path = false ∧
    ∃ l, w.tree.place w.current path .isDirectory = .ok l ∧ w.tree.get? l ≠ some .directory

theorem create_eq_ok : w.create path = .ok (l, w') ↔
    w.answer.refusal = none ∧ Path.endsInSlash path = false ∧
      ∃ hl : w.tree.place w.current path .isDirectory = .ok l, w.tree.get? l ≠ some .directory ∧
        w' = { w with tree := w.tree.put l (Tree.named_of_place hl) (.file []) } := by
  rw [create]
  cases w.answer.refusal with
  | some e => simp
  | none =>
    rw [and_iff_right rfl]
    split_ifs with hslash
    · simp [hslash]
    rw [and_iff_right (Bool.eq_false_iff.2 hslash), Except.bind_eq_ok]
    constructor
    · rintro ⟨⟨l, tree⟩, hmake, h⟩
      cases h
      obtain ⟨hl, n, hn, rfl⟩ := Tree.make_eq_ok.1 hmake
      refine ⟨hl, ?_⟩
      rcases hget : w.tree.get? l with _ | _ | content <;> rw [hget] at hn <;> cases hn
      · exact ⟨by simp, rfl⟩
      · exact ⟨by simp, rfl⟩
    · rintro ⟨hl, hget, rfl⟩
      refine ⟨(l, _), Tree.make_eq_ok.2 ⟨hl, .file [], ?_, rfl⟩, rfl⟩
      rcases hn : w.tree.get? l with _ | _ | content
      · rfl
      · exact absurd hn hget
      · rfl

theorem exists_create (hr : w.answer.refusal = none) (hc : w.Creatable path) :
    ∃ l w', w.create path = .ok (l, w') := by
  obtain ⟨hslash, l, hl, hget⟩ := hc
  exact ⟨l, _, create_eq_ok.2 ⟨hr, hslash, hl, hget, rfl⟩⟩

theorem creatable_of_create (h : w.create path = .ok (l, w')) :
    w.Creatable path ∧ w.tree.place w.current path .isDirectory = .ok l := by
  obtain ⟨-, hslash, hl, hget, -⟩ := create_eq_ok.1 h
  exact ⟨⟨hslash, l, hl, hget⟩, hl⟩

theorem makeDirectory_extends (h : w.makeDirectory path = .ok w') : w.Extends w' := by
  obtain ⟨l, hp, hl, rfl⟩ := makeDirectory_eq_ok.1 h
  have hnamed := Tree.named_of_place hp
  refine ⟨⟨rfl, rfl, Nat.le_refl _⟩, Tree.grows_put (Tree.place_ne_nil hp) hnamed fun n hn ↦ ?_,
    fun l' ↦ ?_⟩
  · rw [hl] at hn
    cases hn
  · dsimp only
    by_cases h : l' = l
    · subst h
      rw [Tree.content?, Tree.content?, Tree.get?_put (Tree.place_ne_nil hp), if_pos rfl, hl]
    · rw [Tree.content?_put (Tree.place_ne_nil hp) _ _ h]

theorem create_changes (h : w.create path = .ok (l, w')) (hP : P l) : w.Changes P w' := by
  obtain ⟨-, -, hp, hl, rfl⟩ := create_eq_ok.1 h
  have hnamed := Tree.named_of_place hp
  have hput := Tree.get?_put (t := w.tree) (Tree.place_ne_nil hp) hnamed (.file [])
  refine ⟨⟨rfl, rfl, Nat.le_refl _⟩, Tree.grows_put (Tree.place_ne_nil hp) hnamed fun n hn ↦ ?_,
    fun l' hl' ↦ ?_, fun l' hl' ↦ ?_⟩
  · cases n with
    | directory => exact absurd hn hl
    | file content' => rfl
  · rw [hput] at hl'
    split_ifs at hl'
    · cases hl'
    · exact hl'
  · rw [hput, if_neg]
    rintro rfl
    exact hl' hP

/-- A file that is made is empty, whatever stood there. -/
theorem content?_of_create (h : w.create path = .ok (l, w')) : w'.tree.content? l = some [] := by
  obtain ⟨-, -, hp, -, rfl⟩ := create_eq_ok.1 h
  rw [Tree.content?_eq_some, Tree.get?_put (Tree.place_ne_nil hp), if_pos rfl]

/-! ## Writing -/

theorem requests_write (l : Location) (bytes : Bytes) (w : World) :
    (w.write l bytes).2.requests = w.requests + 1 := by
  rw [write]
  split <;> rfl

theorem changes_fill (hP : P l) (content : Bytes) :
    w.Changes P { w.asked with tree := w.tree.fill l content } := by
  refine ⟨⟨rfl, rfl, Nat.le_succ w.requests⟩, Tree.grows_fill w.tree l content, fun l' hl' ↦ ?_,
    fun l' hl' ↦ ?_⟩
  · rw [Tree.get?_fill] at hl'
    split_ifs at hl'
    · obtain ⟨n, hn, hfill⟩ := Option.map_eq_some_iff.1 hl'
      rw [hn]
      cases n with
      | directory => rfl
      | file content' => cases hfill
    · exact hl'
  · rw [Tree.get?_fill, if_neg]
    rintro rfl
    exact hl' hP

/-- Writing to a file changes that file alone, whether or not it is refused. -/
theorem write_changes (hP : P l) (bytes : Bytes) : w.Changes P (w.write l bytes).2 := by
  rw [write]
  split <;> exact changes_fill hP _

/-- A file holds what is written to it, unless that is refused. -/
theorem content?_of_write {bytes : Bytes} (hc : w.tree.content? l = some content)
    (h : (w.write l bytes).1 = .ok ()) :
    (w.write l bytes).2.tree.content? l = some (content ++ bytes) := by
  rw [write, hc] at h ⊢
  cases hr : w.answer.refusal with
  | some e =>
    rw [hr] at h
    cases h
  | none => exact Tree.content?_fill hc _

/-- Where it is refused, the file is left with a beginning of what was written so far. -/
theorem content?_of_write_error {bytes : Bytes} {e : SystemError}
    (hc : w.tree.content? l = some content) (h : (w.write l bytes).1 = .error e) :
    ∃ held, (w.write l bytes).2.tree.content? l = some held ∧ held <+: content ++ bytes := by
  rw [write, hc] at h ⊢
  cases hr : w.answer.refusal with
  | some e => exact ⟨_, Tree.content?_fill hc _, List.take_prefix _ _⟩
  | none =>
    rw [hr] at h
    cases h

theorem write_of_granted {bytes : Bytes} (h : w.answer.Granted) :
    (w.write l bytes).1 = .ok () := by
  rw [write, h.refusal]

/-! ## Names behind paths -/

/-- The names behind a path stand in the directory at a location. -/
def Leads (w : World) (path : String) (l : Location) : Prop := w.tree.Leads w.current path l

theorem Extends.leads (h : w.Extends w') (hl : w.Leads path l) : w'.Leads path l := by
  rw [Leads, h.current]
  exact h.grows.leads hl

theorem Changes.leads (h : w.Changes P w') (hl : w.Leads path l) : w'.Leads path l := by
  rw [Leads, h.current]
  exact h.grows.leads hl

theorem Leads.unique {l' : Location} (h : w.Leads path l) (h' : w.Leads path l') : l = l' :=
  Tree.Leads.unique h h'

/-- What a name behind a path reads. -/
theorem Leads.read_join {name : String} (h : w.Leads path l) (hname : Path.IsName name) :
    w.read (Path.join path name) = .ok content ↔
      Tree.wellSized (Path.join path name) = .ok () ∧ w.tree.get? l = some .directory ∧
        name.utf8ByteSize ≤ Tree.maxName ∧ w.tree.content? (l ++ [name]) = some content := by
  rw [read_eq_ok]
  constructor
  · rintro ⟨l', hf⟩
    obtain ⟨hsize, hdir, hlong, rfl, hn⟩ := (Tree.Leads.find_join h hname).1 hf
    exact ⟨hsize, hdir, hlong, Tree.content?_eq_some.2 hn⟩
  · rintro ⟨hsize, hdir, hlong, hn⟩
    exact ⟨_, (Tree.Leads.find_join h hname).2
      ⟨hsize, hdir, hlong, rfl, Tree.content?_eq_some.1 hn⟩⟩

/-- Where a file can be made at a name behind a path. -/
theorem Leads.creatable_join {name : String} (h : w.Leads path l) (hname : Path.IsName name) :
    w.Creatable (Path.join path name) ↔
      Tree.wellSized (Path.join path name) = .ok () ∧ w.tree.get? l = some .directory ∧
        name.utf8ByteSize ≤ Tree.maxName ∧ w.tree.get? (l ++ [name]) ≠ some .directory := by
  rw [Creatable, and_iff_right (Path.endsInSlash_join path hname)]
  constructor
  · rintro ⟨l', hp, hl'⟩
    obtain ⟨hsize, hdir, hlong, rfl⟩ := (Tree.Leads.place_join h hname).1 hp
    exact ⟨hsize, hdir, hlong, hl'⟩
  · rintro ⟨hsize, hdir, hlong, hl'⟩
    exact ⟨_, (Tree.Leads.place_join h hname).2 ⟨hsize, hdir, hlong, rfl⟩, hl'⟩

/-- A file can be made where one could be made before. -/
theorem Changes.creatable_join {name : String} (h : w.Changes P w') (hl : w.Leads path l)
    (hname : Path.IsName name) (hc : w.Creatable (Path.join path name)) :
    w'.Creatable (Path.join path name) := by
  obtain ⟨hsize, hdir, hlong, hplace⟩ := (hl.creatable_join hname).1 hc
  exact ((h.leads hl).creatable_join hname).2
    ⟨hsize, h.grows.directory hdir, hlong, mt (h.directory _) hplace⟩

end World

end JitDump
