import JitDump.Program
import JitDump.Proofs.Chunking
import JitDump.Proofs.Independence
import JitDump.Proofs.Outages
import JitDump.Proofs.Outputs

/-!
# The course of a batch

Every file of a batch has its turn, on a heap that has served the files before
it and in a world that holds their listings.  The heap makes no difference: what
comes of a file is what its content comes to alone.  But the listing is made
before it is written, so that one that could not be written is lost all the
same, with what stood in its place.
-/

namespace JitDump

open Files World

namespace Batch

variable {b : Batch} {directory path name text : String} {w w' w₁ : World} {heap : Heap}
variable {content : Bytes} {source : Source}

/-- What a source comes to alone, on a fresh heap: the listing of what it hands out or a failure. -/
def comesTo (b : Batch) (name : String) (source : Source) : Except Failure String :=
  (Container.decode b.options .new source ("@" ++ name)).result.map (Listing.text b.pretty)

/-- What the content of a file comes to alone. -/
def alone (b : Batch) (name : String) (content : Bytes) : Except Failure String :=
  b.comesTo name (.ofBytes content)

/-- Any heap that has served decodes a file as it is decoded alone. -/
theorem map_text_decode (hh : heap.Serving) (name : String) (source : Source) :
    (Container.decode b.options heap source ("@" ++ name)).result.map (Listing.text b.pretty) =
      b.comesTo name source :=
  (Container.sameResult_of_sound hh.reachable.sound (Heap.Serving.ofMask _).reachable.sound
    b.options _ _).map_text b.pretty

theorem comesTo_eq_ok : b.comesTo name source = .ok text ↔
    ∃ p, (Container.decode b.options .new source ("@" ++ name)).result = .ok p ∧
      Listing.text b.pretty p = text := by
  rw [comesTo]
  cases (Container.decode b.options .new source ("@" ++ name)).result <;> simp [Except.map]

/-- Nothing comes to a listing that has not been read to its end. -/
theorem closing_of_comesTo (h : b.comesTo name source = .ok text) : source.closing = .finished := by
  obtain ⟨p, hd, -⟩ := comesTo_eq_ok.1 h
  exact Container.closing_of_decode_eq_ok hd

/-- A file that is read to its end comes to what its content comes to alone, however it is handed
out; beyond what a reader holds it is to come in one piece. -/
theorem comesTo_source {a : Answer} (hc : (a.source content).closing = .finished)
    (hw : content.length < Cursor.maxBuffer ∨ a.reads = []) (b : Batch) (name : String) :
    b.comesTo name (a.source content) = b.alone name content := by
  rcases hw with hl | hreads
  · have hd := Answer.delivered_source hc
    rw [← hd] at hl
    rw [alone, comesTo, Container.decode_eq_ofBytes hc hl, hd, comesTo]
  · rw [Answer.source, hreads]
    rfl

/-- The path of the listing of a file in a directory. -/
def listingPath (directory name : String) : String :=
  Path.join directory (outputName name Listing.extension)

/-! ## One turn -/

/-- What comes of the file at a path, and of the world. -/
inductive Treats (b : Batch) (directory path : String) (w : World) : Outcome → World → Prop
  | nameless (hn : Path.fileName? path = none) :
      Treats b directory path w (.error (.nameless path)) w
  | unopened {name : String} {e : SystemError} (hn : Path.fileName? path = some name)
      (ho : w.openFile path = .error e) :
      Treats b directory path w (.error (.unopened path e)) w.asked
  | undecoded {name : String} {source : Source} {e : Failure}
      (hn : Path.fileName? path = some name) (ho : w.openFile path = .ok source)
      (hd : b.comesTo name source = .error e) :
      Treats b directory path w (.error (.undecoded path e)) w.asked
  | decoded {name text : String} {source : Source} {outcome : Outcome} {w' : World}
      (hn : Path.fileName? path = some name) (ho : w.openFile path = .ok source)
      (hd : b.comesTo name source = .ok text)
      (hl : Lists (listingPath directory name) text w.asked outcome w') :
      Treats b directory path w outcome w'

theorem treats_decodeFile (b : Batch) (directory : String) (hh : heap.Serving) (path : String)
    (w : World) :
    ∃ r w', w.runs (b.decodeFile directory path heap) = (r, w') ∧
      b.Treats directory path w r.outcome w' ∧ r.heap.Serving := by
  rw [decodeFile]
  cases hn : Path.fileName? path with
  | none => exact ⟨_, _, rfl, .nameless hn, hh⟩
  | some name =>
    simp only [runs_bind, runs_openFile]
    cases ho : w.openFile path with
    | error e => exact ⟨_, _, rfl, .unopened hn ho, hh⟩
    | ok source =>
      have hd := map_text_decode (b := b) hh name source
      have hserving := hh.decode b.options source ("@" ++ name)
      dsimp only
      generalize Container.decode b.options heap source ("@" ++ name) = d at hd hserving ⊢
      cases hresult : d.result with
      | error e =>
        rw [hresult] at hd
        exact ⟨_, _, rfl, .undecoded hn ho hd.symm, hserving⟩
      | ok p =>
        rw [hresult] at hd
        have hl := lists_list b (listingPath directory name) p w.asked
        exact ⟨_, _, rfl, .decoded hn ho hd.symm hl, hserving⟩

variable {outcome : Outcome}

/-- A file that has a name is asked for. -/
theorem Treats.requests_lt (ht : b.Treats directory path w outcome w')
    (hn : Path.fileName? path = some name) : w.requests < w'.requests := by
  cases ht with
  | nameless hn' => cases hn.symm.trans hn'
  | unopened => exact Nat.lt_succ_self _
  | undecoded => exact Nat.lt_succ_self _
  | decoded _ _ _ hl => exact hl.changes.requests

/-- The listing of a file is made if its content comes to one, where all that is asked for is
granted. -/
theorem Treats.lists (ht : b.Treats directory path w outcome w')
    (hn : Path.fileName? path = some name) (hr : w.read path = .ok content)
    (hw : content.length < Cursor.maxBuffer ∨ w.answer.reads = [])
    (ha : b.alone name content = .ok text) (hg : w.Granted w') :
    Lists (listingPath directory name) text w.asked outcome w' := by
  have hanswer := hg.answer (ht.requests_lt hn)
  have ho := openFile_of_read hanswer hr
  have hd := (comesTo_source (hanswer.closing_source content) hw b name).trans ha
  cases ht with
  | nameless hn' => cases hn.symm.trans hn'
  | unopened hn' ho' => cases ho.symm.trans ho'
  | undecoded hn' ho' hd' =>
    cases hn.symm.trans hn'
    cases ho.symm.trans ho'
    cases hd.symm.trans hd'
  | decoded hn' ho' hd' hl =>
    cases hn.symm.trans hn'
    cases ho.symm.trans ho'
    cases hd.symm.trans hd'
    exact hl

/-- It is written as well, if a file can be made there. -/
theorem Treats.eq_ok (ht : b.Treats directory path w outcome w')
    (hn : Path.fileName? path = some name) (hr : w.read path = .ok content)
    (hw : content.length < Cursor.maxBuffer ∨ w.answer.reads = [])
    (ha : b.alone name content = .ok text) (hg : w.Granted w')
    (hc : w.Creatable (listingPath directory name)) :
    outcome = .ok (listingPath directory name) :=
  (ht.lists hn hr hw ha hg).eq_ok_of_granted (hg.after (sameFiles_asked w).toLater) hc

/-- A listing is made only for a file that comes to one. -/
theorem Treats.of_created {listing : String} (ht : b.Treats directory path w outcome w')
    (hmade : created? outcome = some listing) :
    ∃ name source text, Path.fileName? path = some name ∧ listing = listingPath directory name ∧
      w.openFile path = .ok source ∧ b.comesTo name source = .ok text ∧
      Lists listing text w.asked outcome w' := by
  cases ht with
  | @decoded name text source _ _ hn ho hd hl =>
    obtain rfl : listing = listingPath directory name := by
      cases hl with
      | uncreated => cases hmade
      | broken _ hp => exact Option.some.inj (hmade.symm.trans hp)
      | listed => exact (Option.some.inj hmade).symm
    exact ⟨name, source, text, hn, rfl, ho, hd, hl⟩
  | _ => cases hmade

/-- Such a file has been read to its end. -/
theorem Treats.read_of_created {listing : String} (ht : b.Treats directory path w outcome w')
    (hmade : created? outcome = some listing) :
    ∃ name content text, Path.fileName? path = some name ∧
      listing = listingPath directory name ∧ w.read path = .ok content ∧
      (w.answer.source content).closing = .finished ∧
      b.comesTo name (w.answer.source content) = .ok text ∧
      Lists listing text w.asked outcome w' := by
  obtain ⟨name, source, text, hn, hlisting, ho, hd, hl⟩ := ht.of_created hmade
  have hc := closing_of_comesTo hd
  obtain ⟨content, hr, rfl⟩ := read_of_openFile ho hc
  exact ⟨name, content, text, hn, hlisting, hr, hc, hd, hl⟩

/-! ## All turns -/

/-- The files of a batch have their turns; what is logged between them is not compared. -/
inductive Goes (b : Batch) (directory : String) : World → List (String × Outcome) → World → Prop
  | done {w w' : World} (h : w.Alike w') : Goes b directory w [] w'
  | turn {w w₁ w₂ w' : World} {path : String} {outcome : Outcome}
      {outcomes : List (String × Outcome)} (ht : b.Treats directory path w outcome w₁)
      (hs : w₁.Alike w₂) (hg : Goes b directory w₂ outcomes w') :
      Goes b directory w ((path, outcome) :: outcomes) w'

variable {log : Log.Line → StateM World Unit} {outcomes done : List (String × Outcome)}

theorem goes_decodeAll (b : Batch) (directory : String) (hlog : ∀ l, Moves Alike Alike (log l))
    (hh : heap.Serving) (files : List String) (done : List (String × Outcome)) (w : World) :
    ∃ outcomes heap' w',
      w.runs (b.decodeAll log directory heap done files) = ((done.reverse ++ outcomes, heap'), w') ∧
        b.Goes directory w outcomes w' ∧ outcomes.map (·.1) = files := by
  induction files generalizing heap done w with
  | nil =>
    refine ⟨[], heap, w, ?_, .done (refl_of Alike w), rfl⟩
    rw [List.append_nil]
    rfl
  | cons path files ih =>
    have hstart : (if done.isEmpty then heap else heap.beginCycle).Serving := by
      split_ifs
      · exact hh
      · exact hh.beginCycle
    obtain ⟨r, w₁, hr, ht, hserving⟩ := treats_decodeFile b directory hstart path w
    have hlogs : Moves Alike Alike (do
        r.events.forM fun e ↦ log (eventLine e)
        log (outcomeLine path r.outcome)) :=
      (Moves.forM (fun e ↦ hlog _) _).bind fun _ ↦ hlog _
    obtain ⟨outcomes, heap', w', hrest, hg, hpaths⟩ := ih hserving ((path, r.outcome) :: done)
      ((do r.events.forM fun e ↦ log (eventLine e); log (outcomeLine path r.outcome)).run w₁).2
    refine ⟨(path, r.outcome) :: outcomes, heap', w', ?_, .turn ht (hlogs.moves w₁) hg, ?_⟩
    · rw [decodeAll, runs_bind, hr]
      rw [List.reverse_cons, List.append_assoc, List.singleton_append] at hrest
      exact hrest
    · rw [List.map_cons, hpaths]

theorem Goes.alike (hg : b.Goes directory w outcomes w') (hs : w'.Alike w₁) :
    b.Goes directory w outcomes w₁ := by
  induction hg with
  | done h => exact .done (trans_of Alike h hs)
  | turn ht h _ ih => exact .turn ht h (ih hs)

/-- Every turn is taken where the turns before it have led. -/
theorem Goes.of_append {before after : List (String × Outcome)}
    (hg : b.Goes directory w (before ++ (path, outcome) :: after) w') :
    ∃ w₁ w₂ w₃, b.Goes directory w before w₁ ∧ b.Treats directory path w₁ outcome w₂ ∧
      w₂.Alike w₃ ∧ b.Goes directory w₃ after w' := by
  induction before generalizing w with
  | nil =>
    cases hg with
    | turn ht hs hg => exact ⟨w, _, _, .done (refl_of Alike w), ht, hs, hg⟩
  | cons e before ih =>
    cases hg with
    | turn ht hs hg =>
      obtain ⟨w₁, w₂, w₃, hbefore, h⟩ := ih hg
      exact ⟨w₁, w₂, w₃, .turn ht hs hbefore, h⟩

/-- The listing of a file has the name of the file, with another extension. -/
theorem Goes.listing_eq {e : String × Outcome} {listing : String}
    (hg : b.Goes directory w outcomes w') (he : e ∈ outcomes)
    (hmade : created? e.2 = some listing) :
    ∃ name, Path.fileName? e.1 = some name ∧ listing = listingPath directory name := by
  obtain ⟨before, after, rfl⟩ := List.append_of_mem he
  obtain ⟨_, _, _, -, ht, -, -⟩ := hg.of_append
  obtain ⟨name, _, _, hn, hlisting, -⟩ := ht.of_created hmade
  exact ⟨name, hn, hlisting⟩

/-! ## What turns change -/

theorem isName_outputName (h : '/' ∉ name.toList) :
    Path.IsName (outputName name Listing.extension) := by
  have hlist : (outputName name Listing.extension).toList =
      name.toList.takeWhile (· != '.') ++ ".json".toList := by
    rw [outputName, String.toList_append, String.toList_append, String.toList_ofList,
      List.append_assoc]
    rfl
  have hlength : 5 ≤ (outputName name Listing.extension).toList.length := by
    rw [hlist, List.length_append]
    exact Nat.le_add_left _ _
  constructor
  · intro hempty
    rw [hempty] at hlength
    exact absurd hlength (by decide)
  · intro hdot
    rw [hdot] at hlength
    exact absurd hlength (by decide)
  · intro hdots
    rw [hdots] at hlength
    exact absurd hlength (by decide)
  · rw [hlist, List.mem_append, not_or]
    exact ⟨fun hs ↦ h (List.takeWhile_subset _ hs), by decide⟩

/-- Where the listing of a file stands, given where those of a batch do. -/
def listingAt (place : Location) (name : String) : Location :=
  place ++ [outputName name Listing.extension]

theorem listingAt_inj {place : Location} {name name' : String} :
    listingAt place name = listingAt place name' ↔
      outputName name Listing.extension = outputName name' Listing.extension := by
  rw [listingAt, listingAt, List.append_right_inj, List.singleton_inj]

/-- What stands at a location is the listing that was made for a file, whether or not it could be
written. -/
def Lands (place l : Location) (e : String × Outcome) : Prop :=
  (created? e.2).isSome ∧ ∃ name, Path.fileName? e.1 = some name ∧ l = listingAt place name

variable {place l : Location}

theorem place_listing (hl : w.Leads directory place) (hn : Path.fileName? path = some name)
    (hp : w.tree.place w.current (listingPath directory name) .isDirectory = .ok l) :
    l = listingAt place name :=
  ((Tree.Leads.place_join hl (isName_outputName (Path.isName_of_fileName? hn).noSlash)).1 hp).2.2.2

/-- A listing that could be written is read as it is. -/
theorem Lists.read_listing {listing : String} (hl : w.Leads directory place)
    (hname : Path.IsName (outputName name Listing.extension))
    (h : Lists (listingPath directory name) text w (.ok listing) w') :
    w'.read (listingPath directory name) = .ok (Utf8.encode text) := by
  cases h with
  | listed hc hch ht =>
    obtain ⟨hcreatable, hp⟩ := creatable_of_create hc
    obtain ⟨hsize, hdir, hlong, -⟩ := (hl.creatable_join hname).1 hcreatable
    obtain ⟨-, -, -, rfl⟩ := (Tree.Leads.place_join hl hname).1 hp
    exact ((hch.leads hl).read_join hname).2 ⟨hsize, hch.grows.directory hdir, hlong, ht⟩

/-- A turn changes nothing but the listing of its file, and that only if it is made. -/
theorem Treats.changes (hl : w.Leads directory place) (ht : b.Treats directory path w outcome w') :
    w.Changes (fun l ↦ Lands place l (path, outcome)) w' := by
  have hasked := (sameFiles_asked w).changes fun l ↦ Lands place l (path, outcome)
  cases ht with
  | nameless => exact (refl_of SameFiles w).changes _
  | unopened => exact hasked
  | undecoded => exact hasked
  | decoded hn ho hd hlists =>
    refine hasked.trans (hlists.changes.mono fun l h ↦ ⟨?_, _, hn, place_listing hl hn h.2⟩)
    exact Option.isSome_iff_exists.2 ⟨_, h.1⟩

theorem Goes.changes (hl : w.Leads directory place) (hg : b.Goes directory w outcomes w') :
    w.Changes (fun l ↦ ∃ e ∈ outcomes, Lands place l e) w' := by
  induction hg with
  | done hs => exact hs.sameFiles.changes _
  | turn ht hs hg ih =>
    have hturn := (ht.changes hl).trans (hs.sameFiles.changes _)
    refine (hturn.mono fun l h ↦ ⟨_, List.mem_cons_self, h⟩).trans
      ((ih (hturn.leads hl)).mono fun l h ↦ ?_)
    obtain ⟨e, he, h⟩ := h
    exact ⟨e, List.mem_cons_of_mem _ he, h⟩

/-- A listing goes on standing if no later one is made in its place. -/
theorem Goes.read_listing (hg : b.Goes directory w outcomes w') (hl : w.Leads directory place)
    (hname : Path.IsName (outputName name Listing.extension))
    (hread : w.read (listingPath directory name) = .ok content)
    (hlast : ∀ e ∈ outcomes, created? e.2 ≠ some (listingPath directory name)) :
    w'.read (listingPath directory name) = .ok content := by
  obtain ⟨l, hf⟩ := read_eq_ok.1 hread
  obtain ⟨-, -, -, rfl, -⟩ := (Tree.Leads.find_join hl hname).1 hf
  refine read_eq_ok.2 ⟨_, (hg.changes hl).find_eq hf ?_⟩
  rintro ⟨e, he, hmade, name', hn, hat⟩
  obtain ⟨listing, hmade⟩ := Option.isSome_iff_exists.1 hmade
  obtain ⟨name'', hn', rfl⟩ := hg.listing_eq he hmade
  obtain rfl : name' = name'' := Option.some.inj (hn.symm.trans hn')
  exact hlast e he (by rw [hmade, listingPath, listingPath, listingAt_inj.1 hat])

/-! ## The files of a batch -/

/-- A plan only looks at the files. -/
theorem moves_plan {R : World → World → Prop} [IsPreorder World R] (b : Batch) :
    Moves SameFiles R (b.plan : ExceptT Fatal (StateM World) _).run := by
  rw [plan]
  refine (Moves.lift (.kind id _)).bindE fun r ↦ ?_
  rcases r with e | _ | _
  · exact .throw _
  · exact .pure _
  · refine Moves.bindE ?_ fun files ↦ .pure _
    rw [filesIn]
    refine (Moves.lift (.entries id _)).bindE fun r ↦ ?_
    cases r with
    | error e => exact .throw _
    | ok entries => exact .pure _

theorem tries_plan_snd (b : Batch) (w : World) : (w.tries b.plan).2 = w :=
  ((moves_plan (R := (· = ·)) b).moves w).symm

/-- The course of a batch: it cannot start, or the directory of its listings is made, and then its
files have their turns. -/
inductive Course (b : Batch) (w : World) : Except Fatal (List (String × Outcome)) → World → Prop
  | unplanned {f : Fatal} (hp : w.tries b.plan = (.error f, w)) : Course b w (.error f) w
  | unmade {files : List String} {directory : String} {e : SystemError} {w' : World}
      (hp : w.tries b.plan = (.ok (files, directory), w))
      (hm : w.runs (Host.makeDirectories directory) = (.error e, w')) :
      Course b w (.error ⟨"Cannot create " ++ directory, some e.message⟩) w'
  | done {outcomes : List (String × Outcome)} {directory : String} {w₁ w' : World}
      (hp : w.tries b.plan = (.ok (outcomes.map (·.1), directory), w))
      (hm : w.runs (Host.makeDirectories directory) = (.ok (), w₁))
      (hg : b.Goes directory w₁ outcomes w') : Course b w (.ok outcomes) w'

/-- What comes of the files of a batch is found along its course. -/
theorem course_outcomes (hlog : ∀ l, Moves Alike Alike (log l)) (b : Batch) (w : World) :
    ∃ r w', w.tries (b.outcomes log) = (r, w') ∧ b.Course w (r.map (·.1)) w' := by
  have hw := tries_plan_snd b w
  rw [outcomes]
  cases hp : w.tries b.plan with | _ r w₀
  rw [hp] at hw
  subst hw
  cases r with
  | error f =>
    rw [tries_bind_error hp]
    exact ⟨_, _, rfl, .unplanned hp⟩
  | ok r =>
    obtain ⟨files, directory⟩ := r
    cases hm : w₀.runs (Host.makeDirectories directory) with | _ r w₁
    rw [tries_bind_ok hp, tries_bind_ok tries_lift, hm]
    rcases r with e | ⟨⟩
    · exact ⟨_, _, rfl, .unmade hp hm⟩
    · obtain ⟨outcomes, heap', w', hrun, hg, rfl⟩ :=
        goes_decodeAll b directory hlog (.ofMask Heap.defaultMask) files [] w₁
      refine ⟨.ok (outcomes, heap'), w', ?_, .done hp hm hg⟩
      rw [tries_lift]
      exact congrArg (fun r : _ × World ↦ (Except.ok r.1, r.2)) hrun

/-- A run of a batch sums up what has come of its files. -/
theorem course_run (hlog : ∀ l, Moves Alike Alike (log l)) (b : Batch) (w : World) :
    ∃ r w', (w.tries (b.outcomes log)).1 = r ∧
      w.tries (b.run log) = (r.map (Summary.ofOutcomes ·.1), w') ∧
      b.Course w (r.map (·.1)) w' := by
  obtain ⟨r, w₁, houtcomes, hc⟩ := course_outcomes hlog b w
  rw [houtcomes, run]
  rcases r with f | ⟨outcomes, heap⟩
  · exact ⟨.error f, w₁, rfl, tries_bind_error houtcomes, hc⟩
  · rw [tries_bind_ok houtcomes, tries_bind_ok tries_lift]
    cases hc with
    | done hp hm hg =>
      exact ⟨.ok (outcomes, heap), _, rfl, rfl, .done hp hm (hg.alike ((hlog _).moves w₁))⟩

/-- A batch that can start does, and has its turns. -/
theorem goes_run {files : List String} (hlog : ∀ l, Moves Alike Alike (log l))
    (hp : w.tries b.plan = (.ok (files, directory), w))
    (hm : w.runs (Host.makeDirectories directory) = (.ok (), w₁)) :
    ∃ outcomes heap w', (w.tries (b.outcomes log)).1 = .ok (outcomes, heap) ∧
      w.tries (b.run log) = (.ok (.ofOutcomes outcomes), w') ∧
      outcomes.map (·.1) = files ∧ b.Goes directory w₁ outcomes w' := by
  obtain ⟨r, w', houtcomes, hrun, hc⟩ := course_run hlog b w
  rcases r with f | ⟨outcomes, heap⟩
  · cases hc with
    | unplanned hp' => cases hp.symm.trans hp'
    | unmade hp' hm' =>
      cases hp.symm.trans hp'
      cases hm.symm.trans hm'
  · cases hc with
    | done hp' hm' hg =>
      cases hp.symm.trans hp'
      cases hm.symm.trans hm'
      exact ⟨outcomes, heap, w', houtcomes, hrun, rfl, hg⟩

/-! ## Which files they are -/

/-- The names of the files in a directory. -/
def fileNames (t : Tree) (l : Location) : List String :=
  ((t.children l).filter (·.2.kind == .file)).map (·.1)

/-- The files that a batch is to decode: its input, or those in the directory that is its input. -/
inductive Input (b : Batch) (w : World) : String → Location → Bytes → Prop
  | file {l : Location} {content : Bytes}
      (hf : w.tree.find w.current b.input = .ok (l, .file content)) : Input b w b.input l content
  | entry {place l : Location} {name : String} {content : Bytes}
      (hd : w.tree.find w.current b.input = .ok (place, .directory))
      (hm : name ∈ fileNames w.tree place)
      (hf : w.tree.find w.current (Path.join b.input name) = .ok (l, .file content)) :
      Input b w (Path.join b.input name) l content

theorem Input.find (hi : b.Input w path l content) :
    w.tree.find w.current path = .ok (l, .file content) := by
  cases hi with
  | file hf => exact hf
  | entry _ _ hf => exact hf

theorem plan_of_directory (hd : w.tree.find w.current b.input = .ok (place, .directory)) :
    w.tries b.plan =
      (.ok ((inOrder (fileNames w.tree place)).map (Path.join b.input),
        b.directoryBeside b.input), w) := by
  have hk : w.kind b.input = .ok .directory := by rw [kind, hd]; rfl
  have he : w.entries b.input =
      .ok ((w.tree.children place).map fun e ↦ (e.1, e.2.kind)) := by
    rw [entries, hd]
    rfl
  have hfiles : w.tries (filesIn b.input) =
      (.ok ((inOrder (fileNames w.tree place)).map (Path.join b.input)), w) := by
    rw [filesIn, tries_bind_ok tries_lift, runs_entries, he]
    simp only [List.filter_map, List.map_map]
    rfl
  rw [plan, tries_bind_ok tries_lift, runs_kind, hk]
  exact tries_bind_ok hfiles

theorem plan_of_file
    (hf : w.tree.find w.current b.input = .ok (l, .file content)) :
    w.tries b.plan =
      (.ok ([b.input], b.directoryBeside (placeOf b.input)), w) := by
  have hk : w.kind b.input = .ok .file := by rw [kind, hf]; rfl
  rw [plan, tries_bind_ok tries_lift, runs_kind, hk]
  rfl

theorem exists_mem_children {t : Tree} (hm : name ∈ fileNames t l) :
    ∃ n, (name, n) ∈ t.children l := by
  obtain ⟨⟨name, n⟩, hn, rfl⟩ := List.mem_map.1 hm
  exact ⟨n, (List.mem_filter.1 hn).1⟩

theorem isName_of_mem_fileNames {t : Tree} (hm : name ∈ fileNames t l) : Path.IsName name := by
  obtain ⟨n, hn⟩ := exists_mem_children hm
  exact Tree.isName_of_mem_children hn

theorem mem_inOrder {names : List String} : name ∈ inOrder names ↔ name ∈ names :=
  List.mem_mergeSort

/-- Every input has its turn. -/
theorem Input.mem_files {files : List String} (hi : b.Input w path l content)
    (hp : w.tries b.plan = (.ok (files, directory), w)) :
    path ∈ files := by
  cases hi with
  | file hf =>
    cases hp.symm.trans (plan_of_file hf)
    exact List.mem_singleton_self _
  | entry hd hm hf =>
    cases hp.symm.trans (plan_of_directory hd)
    exact List.mem_map_of_mem (mem_inOrder.2 hm)

/-- Whatever has a turn and can be read then is an input. -/
theorem exists_input {files : List String} (hp : w.tries b.plan = (.ok (files, directory), w))
    (hpath : path ∈ files) (hgrows : w.tree.Grows w₁.tree) (hcurrent : w₁.current = w.current)
    (hr : w₁.read path = .ok content) : ∃ l content, b.Input w path l content := by
  cases hf : w.tree.find w.current b.input with
  | error e =>
    have hk : w.kind b.input = .error e := by rw [kind, hf]; rfl
    rw [plan, tries_bind_ok tries_lift, runs_kind, hk] at hp
    cases hp
  | ok found =>
    obtain ⟨place, _ | content'⟩ := found
    · cases hp.symm.trans (plan_of_directory hf)
      obtain ⟨name, hmem, rfl⟩ := List.mem_map.1 hpath
      have hm := mem_inOrder.1 hmem
      have hname := isName_of_mem_fileNames hm
      have hl : w.Leads b.input place := Tree.leads_of_find hf
      have hl₁ : w₁.Leads b.input place := by
        rw [Leads, hcurrent]
        exact hgrows.leads hl
      obtain ⟨hsize, -, hlong, hc⟩ := (hl₁.read_join hname).1 hr
      obtain ⟨n, hn⟩ := exists_mem_children hm
      obtain ⟨n', hn'⟩ := Tree.exists_get?_of_mem_children hn
      obtain ⟨content', hfile⟩ := hgrows.exists_file hn' hc
      exact ⟨_, content', .entry hf hm ((Tree.Leads.find_join hl hname).2
        ⟨hsize, (Tree.find_eq_ok.1 hf).2.2, hlong, rfl, hfile⟩)⟩
    · cases hp.symm.trans (plan_of_file hf)
      rw [List.mem_singleton.1 hpath]
      exact ⟨_, _, .file hf⟩

end Batch

end JitDump
