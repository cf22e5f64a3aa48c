import JitDump.Proofs.Directories

/-!
# Files of a batch do not disturb each other

Where no two files of a directory share a listing, every listing can be made and
nothing is refused, what becomes of a file is what it comes to alone: its listing
is written if it can be decoded alone, and nothing is changed for it if it cannot.
The exit code of the program tells whether all could.
-/

namespace JitDump

open Files World

namespace Batch

variable {b : Batch} {w w₀ w₁ w' : World} {input place : Location} {directory name : String}
variable {outcomes : List (String × Outcome)} {content : Bytes}

/-- A file of a directory can be decoded alone. -/
def Decodes (b : Batch) (w : World) (name : String) : Prop :=
  ∃ content text, w.read (Path.join b.input name) = .ok content ∧ b.alone name content = .ok text

/-- All files of a directory can be read, no two share a listing, and the listings of those that can
be decoded alone can be made once their directory is. -/
structure Feasible (b : Batch) (w w₀ : World) (input : Location) (directory : String) : Prop where
  readable : ∀ name ∈ fileNames w.tree input, ∃ content,
    w.read (Path.join b.input name) = .ok content
  distinct : ∀ name ∈ fileNames w.tree input, ∀ name' ∈ fileNames w.tree input,
    outputName name Listing.extension = outputName name' Listing.extension → name = name'
  writable : ∀ name ∈ fileNames w.tree input, ∀ content text,
    w.read (Path.join b.input name) = .ok content → b.alone name content = .ok text →
      w₀.Creatable (listingPath directory name)

/-- The system grants all that is asked for between two worlds, and hands out in one piece what is
more than a reader can hold. -/
structure Served (b : Batch) (w w' : World) (input : Location) : Prop where
  granted : w.Granted w'
  whole : ∀ name ∈ fileNames w.tree input, ∀ content,
    w.read (Path.join b.input name) = .ok content → content.length < Cursor.maxBuffer ∨
      ∀ n, w.requests ≤ n → n < w'.requests → (w.answers n).reads = []

/-- What a batch over a directory leaves of the files, its listings being at a place. -/
structure Isolated (b : Batch) (w w' : World) (input place : Location) : Prop where
  /-- The listing of a file that can be decoded alone is what it comes to alone. -/
  listed : ∀ name ∈ fileNames w.tree input, ∀ content text,
    w.read (Path.join b.input name) = .ok content → b.alone name content = .ok text →
      w'.tree.content? (listingAt place name) = some (Utf8.encode text)
  /-- No file is made, and none is changed, for one that cannot be decoded alone. -/
  unlisted : ∀ name ∈ fileNames w.tree input, ¬ b.Decodes w name →
    w'.tree.content? (listingAt place name) = w.tree.content? (listingAt place name)
  /-- The inputs are as they were. -/
  inputs : ∀ name ∈ fileNames w.tree input,
    w'.tree.content? (input ++ [name]) = w.tree.content? (input ++ [name])
  /-- So are all files that are not listings of this batch. -/
  others : ∀ l, (∀ name ∈ fileNames w.tree input, b.Decodes w name → l ≠ listingAt place name) →
    w'.tree.content? l = w.tree.content? l

theorem Isolated.sameFiles {w'' : World} (h : b.Isolated w w' input place)
    (hs : w'.SameFiles w'') : b.Isolated w w'' input place := by
  obtain ⟨listed, unlisted, inputs, others⟩ := h
  rw [← hs.tree] at listed unlisted inputs others
  exact ⟨listed, unlisted, inputs, others⟩

theorem Feasible.sameFiles (hf : b.Feasible w w₀ input directory) (hs : w₀.SameFiles w₁) :
    b.Feasible w w₁ input directory where
  readable := hf.readable
  distinct := hf.distinct
  writable name hm content text hr ha := by
    rw [Creatable, hs.tree, hs.current]
    exact hf.writable name hm content text hr ha

theorem Served.mono (h : b.Served w w' input) (hl : w₁.Later w') : b.Served w w₁ input where
  granted := h.granted.mono (refl_of Later w) hl
  whole name hm content hr := (h.whole name hm content hr).imp_right fun hreads n hn hn' ↦
    hreads n hn (Nat.lt_of_lt_of_le hn' hl.requests)

theorem Feasible.eq_of_listingAt {name' : String} (hf : b.Feasible w w₀ input directory)
    (hm : name ∈ fileNames w.tree input) (hm' : name' ∈ fileNames w.tree input)
    (h : listingAt place name = listingAt place name') : name = name' :=
  hf.distinct name hm name' hm' (listingAt_inj.1 h)

theorem exists_of_isOk {outcome : Outcome} (h : outcome.isOk = true) :
    ∃ listing, outcome = .ok listing := by
  cases outcome with
  | ok listing => exact ⟨listing, rfl⟩
  | error problem => cases h

theorem exists_last {listing : String} (h : ∃ e ∈ outcomes, created? e.2 = some listing) :
    ∃ before path outcome after, outcomes = before ++ (path, outcome) :: after ∧
      created? outcome = some listing ∧ ∀ e ∈ after, created? e.2 ≠ some listing := by
  induction outcomes with
  | nil => simp at h
  | cons e outcomes ih =>
    by_cases hrest : ∃ e ∈ outcomes, created? e.2 = some listing
    · obtain ⟨before, path, outcome, after, rfl, hlast⟩ := ih hrest
      exact ⟨e :: before, path, outcome, after, rfl, hlast⟩
    · obtain ⟨e', he, hmade⟩ := h
      rcases List.mem_cons.1 he with rfl | he
      · exact ⟨[], e'.1, e'.2, outcomes, rfl, hmade, fun e he hmade ↦ hrest ⟨e, he, hmade⟩⟩
      · exact absurd ⟨e', he, hmade⟩ hrest

namespace Over

variable (ho : b.Over w w₀ input directory place) (hf : b.Feasible w w₀ input directory)
variable (hserved : b.Served w w' input) (hg : b.Goes directory w₀ outcomes w')

include ho hf hserved hg

/-- The turn of a file: all that is asked for is granted, and it is read as it was. -/
theorem turn {outcome : Outcome} (he : (Path.join b.input name, outcome) ∈ outcomes)
    (hm : name ∈ fileNames w.tree input) : ∃ w₁ w₂ content,
      b.Treats directory (Path.join b.input name) w₁ outcome w₂ ∧ w₁.Granted w₂ ∧
      w.read (Path.join b.input name) = .ok content ∧
      w₁.read (Path.join b.input name) = .ok content ∧
      (content.length < Cursor.maxBuffer ∨ w₁.answer.reads = []) ∧
      ∀ text, b.alone name content = .ok text → w₁.Creatable (listingPath directory name) := by
  obtain ⟨before, after, rfl⟩ := List.append_of_mem he
  obtain ⟨w₁, w₂, w₃, hbefore, ht, -, -, -, -, hstart, hend⟩ := ho.of_append hg
  obtain ⟨content, hr⟩ := hf.readable name hm
  refine ⟨w₁, w₂, content, ht, hserved.granted.mono hstart hend, hr, (ho.read_join hbefore hm).2 hr,
    (hserved.whole name hm content hr).imp_right fun hreads ↦ ?_, fun text ha ↦ ?_⟩
  · rw [World.answer, hstart.answers]
    exact hreads _ hstart.requests
      (Nat.lt_of_lt_of_le (ht.requests_lt (fileName?_join hm)) hend.requests)
  · have hname := isName_outputName (isName_of_mem_fileNames hm).noSlash
    exact (hbefore.changes ho.leads).creatable_join ho.leads hname
      (hf.writable name hm content text hr ha)

/-- A listing is made for no file but those that can be decoded alone. -/
theorem decodes_of_created {outcome : Outcome} {listing : String}
    (he : (Path.join b.input name, outcome) ∈ outcomes) (hm : name ∈ fileNames w.tree input)
    (hmade : created? outcome = some listing) : b.Decodes w name := by
  obtain ⟨w₁, w₂, content, ht, -, hr, hr₁, hw, -⟩ := ho.turn hf hserved hg he hm
  obtain ⟨name', content', text, hn, -, hr', hc, hd, -⟩ := ht.read_of_created hmade
  cases (fileName?_join hm).symm.trans hn
  cases hr₁.symm.trans hr'
  exact ⟨content, text, hr, (comesTo_source hc hw b name).symm.trans hd⟩

/-- A file is reported as decoded if it can be decoded alone. -/
theorem isOk_iff {outcome : Outcome} (he : (Path.join b.input name, outcome) ∈ outcomes)
    (hm : name ∈ fileNames w.tree input) : outcome.isOk = true ↔ b.Decodes w name := by
  constructor
  · intro hok
    obtain ⟨listing, rfl⟩ := exists_of_isOk hok
    exact ho.decodes_of_created hf hserved hg he hm rfl
  · rintro ⟨content', text, hr', ha⟩
    obtain ⟨w₁, w₂, content, ht, hgranted, hr, hr₁, hw, hc⟩ := ho.turn hf hserved hg he hm
    cases hr.symm.trans hr'
    rw [ht.eq_ok (fileName?_join hm) hr₁ hw ha hgranted (hc text ha)]
    rfl

section

variable (hpaths : outcomes.map (·.1) =
  (inOrder (fileNames w.tree input)).map (Path.join b.input))

include hpaths

/-- The turns change nothing but the listings of the files that can be decoded alone. -/
theorem content?_eq {l : Location}
    (hl : ∀ name ∈ fileNames w.tree input, b.Decodes w name → l ≠ listingAt place name) :
    w'.tree.content? l = w.tree.content? l := by
  rw [(hg.changes ho.leads).content?_eq, ho.made.content]
  rintro ⟨⟨path, outcome⟩, he, hmade, name', hn, hat⟩
  obtain ⟨name, hm, rfl⟩ := exists_name hpaths he
  obtain rfl : name = name' := Option.some.inj ((fileName?_join hm).symm.trans hn)
  obtain ⟨listing, hmade⟩ := Option.isSome_iff_exists.1 hmade
  exact hl name hm (ho.decodes_of_created hf hserved hg he hm hmade) hat

/-- The turns leave the listing of a file that can be decoded alone. -/
theorem content?_listingAt {text : String} (hm : name ∈ fileNames w.tree input)
    (hr : w.read (Path.join b.input name) = .ok content) (ha : b.alone name content = .ok text) :
    w'.tree.content? (listingAt place name) = some (Utf8.encode text) := by
  have hdecodes : b.Decodes w name := ⟨content, text, hr, ha⟩
  obtain ⟨outcome, he⟩ := exists_entry hpaths hm
  obtain ⟨listing, rfl⟩ := exists_of_isOk ((ho.isOk_iff hf hserved hg he hm).2 hdecodes)
  obtain ⟨name₁, hn₁, rfl⟩ := hg.listing_eq he rfl
  obtain rfl : name = name₁ := Option.some.inj ((fileName?_join hm).symm.trans hn₁)
  -- no listing is made in the place of the last one with this path, and that is of the same file
  obtain ⟨before, path, outcome, after, rfl, hmade, hlast⟩ := exists_last ⟨_, he, rfl⟩
  have hmem := List.mem_append_right before (List.mem_cons_self (a := (path, outcome)) (l := after))
  obtain ⟨name', hm', rfl⟩ := exists_name hpaths hmem
  obtain ⟨name₂, hn₂, hsame⟩ := hg.listing_eq hmem hmade
  obtain rfl : name' = name₂ := Option.some.inj ((fileName?_join hm').symm.trans hn₂)
  obtain rfl : name = name' := hf.distinct name hm name' hm' ((listingPath_inj
    (isName_of_mem_fileNames hm).noSlash (isName_of_mem_fileNames hm').noSlash).1 hsame)
  obtain ⟨listing, rfl⟩ := exists_of_isOk ((ho.isOk_iff hf hserved hg hmem hm).2 hdecodes)
  cases hmade
  obtain ⟨-, content', text', n, hr', hn, hn', hc, hd, hread⟩ := ho.listed hg hm rfl
  cases hr.symm.trans hr'
  have hwhole := (hserved.whole name hm content hr).imp_right fun hreads ↦ hreads n hn hn'
  cases ha.symm.trans ((comesTo_source hc hwhole b name).symm.trans hd)
  have hl := (hg.changes ho.leads).leads ho.leads
  have hname := isName_outputName (isName_of_mem_fileNames hm).noSlash
  exact ((hl.read_join hname).1 (hread hlast)).2.2.2

/-- What the turns of all files leave. -/
theorem isolated : b.Isolated w w' input place where
  listed _ hm _ _ hr ha := ho.content?_listingAt hf hserved hg hpaths hm hr ha
  unlisted name hm hfails := by
    refine ho.content?_eq hf hserved hg hpaths fun name' hm' hdecodes h ↦ hfails ?_
    rwa [hf.eq_of_listingAt hm hm' h]
  inputs name _ :=
    ho.content?_eq hf hserved hg hpaths fun name' _ _ ↦ ho.ne_listingAt name name'
  others _ hl := ho.content?_eq hf hserved hg hpaths hl

/-- Every file is counted, and none as failed if all can be decoded alone. -/
theorem summary :
    (Summary.ofOutcomes outcomes).decoded + (Summary.ofOutcomes outcomes).failed =
        (fileNames w.tree input).length ∧
      ((Summary.ofOutcomes outcomes).failed = 0 ↔
        ∀ name ∈ fileNames w.tree input, b.Decodes w name) := by
  constructor
  · have hlength := congrArg List.length hpaths
    rw [List.length_map, List.length_map, inOrder, List.length_mergeSort] at hlength
    rw [← hlength, List.length_eq_countP_add_countP (·.2.isOk)]
    simp [Summary.ofOutcomes]
  · rw [Summary.ofOutcomes, List.countP_eq_zero]
    constructor
    · intro hall name hm
      obtain ⟨outcome, he⟩ := exists_entry hpaths hm
      exact (ho.isOk_iff hf hserved hg he hm).1 (by simpa using hall _ he)
    · rintro hall ⟨path, outcome⟩ he
      obtain ⟨name, hm, rfl⟩ := exists_name hpaths he
      simp [(ho.isOk_iff hf hserved hg he hm).2 (hall name hm)]

end

end Over

end Batch

/-! ## The program -/

namespace Program

variable {log : Log.Line → StateM World Unit} (hlog : ∀ l, Moves Alike Alike (log l))

theorem moves_found (path : String) : Moves Alike SameFiles (Host.found path : StateM World _) := by
  rw [Host.found]
  refine (Moves.kind Alike.sameFiles _).bind fun r ↦ ?_
  split <;> exact .pure _

theorem moves_findConfig (directories : List String) :
    Moves Alike SameFiles (findConfig directories : StateM World _) := by
  induction directories with
  | nil => exact .pure _
  | cons directory directories ih =>
    rw [findConfig]
    refine (moves_found _).bind fun found ↦ ?_
    split
    · exact .pure _
    · exact ih

theorem moves_configPath? (asked : Option String) :
    Moves Alike SameFiles (configPath? asked : ExceptT Fatal (StateM World) _).run := by
  cases asked with
  | none =>
    exact Moves.lift ((Moves.currentDirectory Alike.sameFiles).bind fun _ ↦ moves_findConfig _)
  | some path =>
    rw [configPath?]
    refine (Moves.lift (moves_found path)).bindE fun found ↦ ?_
    split
    · exact .pure _
    · exact .throw _

include hlog in
/-- Settings are looked for and read, and nothing is changed. -/
theorem moves_loadSettings (asked : Option String) :
    Moves Alike SameFiles (loadSettings log asked).run := by
  rw [loadSettings]
  refine (moves_configPath? asked).bindE fun path? ↦ ?_
  split
  · exact .pure _
  · refine (Moves.lift (.openFile _)).bindE fun r ↦ ?_
    split
    · exact .throw _
    · split
      · exact .throw _
      · exact (Moves.lift ((hlog _).mono Alike.sameFiles)).bindE fun _ ↦ .pure _

include hlog in
theorem moves_finish (r : Except Fatal Batch.Summary) : Moves Alike Alike (finish log r) := by
  cases r with
  | error f => exact (Moves.forM (fun _ ↦ .report _) _).bind fun _ ↦ .pure _
  | ok s =>
    rw [finish]
    split_ifs
    · exact (hlog _).bind fun _ ↦ .pure _
    · exact .pure _

/-- The exit code tells whether a file has failed. -/
theorem runs_finish (s : Batch.Summary) (w : World) :
    (w.runs (finish log (.ok s))).1 = 0 ↔ s.failed = 0 := by
  rw [finish]
  split_ifs with hfailed
  · exact iff_of_false (show (1 : UInt8) ≠ 0 by decide) hfailed.ne'
  · exact iff_of_true rfl (Nat.eq_zero_of_not_pos hfailed)

variable {i : CommandLine.Invocation} {settings : Settings} {w w₀ w₁ : World} {input : Location}

include hlog in
/-- An execution loads its settings, makes the directory of the listings and then decodes; from
worlds that are alike it does the same to the files. -/
theorem execute_isolated (hs : w.Alike w₁)
    (hsettings : (w.tries (loadSettings log i.config)).1 = .ok settings)
    (hd : w.tree.find w.current i.input = .ok (input, .directory))
    (hm : w.runs (Host.makeDirectories ((batch i settings).directoryBeside i.input)) =
      (.ok (), w₀))
    (hapart : ¬ w₀.Leads ((batch i settings).directoryBeside i.input) input)
    (hf : (batch i settings).Feasible w w₀ input
      ((batch i settings).directoryBeside i.input))
    (hserved : (batch i settings).Served w (w₁.tries (execute log i)).2 input) :
    ∃ s w₂ place, w₁.tries (execute log i) = (.ok s, w₂) ∧
      w₀.Leads ((batch i settings).directoryBeside i.input) place ∧
      w₂.Leads ((batch i settings).directoryBeside i.input) place ∧
      (batch i settings).Isolated w w₂ input place ∧
      s.decoded + s.failed = (Batch.fileNames w.tree input).length ∧
      (s.failed = 0 ↔
        ∀ name ∈ Batch.fileNames w.tree input, (batch i settings).Decodes w name) := by
  have hload := moves_loadSettings hlog i.config
  have hresult : (w₁.tries (loadSettings log i.config)).1 = .ok settings :=
    (hload.result hs).trans hsettings
  have hs₂ : w.SameFiles (w₁.tries (loadSettings log i.config)).2 :=
    trans_of SameFiles hs.sameFiles (hload.moves w₁)
  cases hloaded : w₁.tries (loadSettings log i.config) with | _ r w₂
  rw [hloaded] at hresult hs₂
  obtain rfl : r = .ok settings := hresult
  rw [execute, tries_bind_ok hloaded] at hserved ⊢
  have hd' : w.tree.find w.current (batch i settings).input = .ok (input, .directory) := hd
  have hd₂ := hd'
  rw [← hs₂.tree, ← hs₂.current] at hd₂
  have hmake := Moves.makeDirectories ((batch i settings).directoryBeside i.input)
  have hmade := hmake.result hs₂
  have hs₃ := hmake.files hs₂
  cases hm₂ : w₂.runs (Host.makeDirectories ((batch i settings).directoryBeside i.input)) with
    | _ r w₃
  rw [hm, hm₂] at hmade hs₃
  obtain rfl : r = .ok () := hmade
  obtain ⟨outcomes, -, w', -, hrun, hpaths, hg⟩ :=
    Batch.goes_run hlog (Batch.plan_of_directory hd₂) hm₂
  rw [hs₂.tree] at hpaths
  rw [hrun] at hserved
  obtain ⟨place, ho⟩ := Batch.exists_over hd' hm hapart
  have ho₃ := ho.sameFiles hs₃
  have hf₃ := hf.sameFiles hs₃
  exact ⟨_, w', place, hrun, ho.leads, (hg.changes ho₃.leads).leads ho₃.leads,
    ho₃.isolated hf₃ hserved hg hpaths, ho₃.summary hf₃ hserved hg hpaths⟩

/-- The files of a directory are isolated from one another. -/
theorem run_isolated {arguments : List String} {logVariable : Option String}
    (hparse : CommandLine.parse arguments = .run i)
    (hsettings : (w.tries
      (loadSettings (logger (filter i.verbose logVariable).1) i.config)).1 = .ok settings)
    (hd : w.tree.find w.current i.input = .ok (input, .directory))
    (hm : w.runs (Host.makeDirectories ((batch i settings).directoryBeside i.input)) =
      (.ok (), w₀))
    (hapart : ¬ w₀.Leads ((batch i settings).directoryBeside i.input) input)
    (hf : (batch i settings).Feasible w w₀ input
      ((batch i settings).directoryBeside i.input))
    (hserved : (batch i settings).Served w (w.runs (run arguments logVariable)).2 input) :
    ∃ w₁ w₂ s code w' place, w.Alike w₁ ∧
      w₁.tries (execute (logger (filter i.verbose logVariable).1) i) = (.ok s, w₂) ∧
      w.runs (run arguments logVariable) =
        w₂.runs (finish (logger (filter i.verbose logVariable).1) (.ok s)) ∧
      w.runs (run arguments logVariable) = (code, w') ∧
      w₀.Leads ((batch i settings).directoryBeside i.input) place ∧
      w'.Leads ((batch i settings).directoryBeside i.input) place ∧
      (batch i settings).Isolated w w' input place ∧
      (code = 0 ↔ ∀ name ∈ Batch.fileNames w.tree input, (batch i settings).Decodes w name) ∧
      s.decoded + s.failed = (Batch.fileNames w.tree input).length := by
  have hlog := moves_logger (filter i.verbose logVariable).1
  have hcomplaints : Moves Alike Alike
      ((filter i.verbose logVariable).2.forM Host.report : StateM World PUnit) :=
    .forM (fun _ ↦ .report _) _
  have hs := hcomplaints.moves w
  generalize hw₁ : (w.runs ((filter i.verbose logVariable).2.forM Host.report)).2 = w₁ at hs
  have hrun : w.runs (run arguments logVariable) =
      (w₁.tries (execute (logger (filter i.verbose logVariable).1) i)).2.runs
        (finish (logger (filter i.verbose logVariable).1)
          (w₁.tries (execute (logger (filter i.verbose logVariable).1) i)).1) := by
    rw [run, hparse, ← hw₁]
    rfl
  have hfinish := (moves_finish hlog
    (w₁.tries (execute (logger (filter i.verbose logVariable).1) i)).1).moves
    (w₁.tries (execute (logger (filter i.verbose logVariable).1) i)).2
  rw [← hrun] at hfinish
  obtain ⟨s, w₂, place, hexecute, hl₀, hl, hisolated, hcount, hall⟩ := execute_isolated hlog hs
    hsettings hd hm hapart hf (hserved.mono hfinish.sameFiles.toLater)
  rw [hexecute] at hrun hfinish
  have hcode : (w.runs (run arguments logVariable)).1 = 0 ↔
      ∀ name ∈ Batch.fileNames w.tree input, (batch i settings).Decodes w name := by
    rw [hrun, runs_finish, hall]
  exact ⟨w₁, w₂, s, _, _, place, hs, hexecute, hrun, rfl, hl₀, hfinish.sameFiles.extends.leads hl,
    hisolated.sameFiles hfinish.sameFiles, hcode, hcount⟩

/-! ## A run in which a file fails -/

/-- A world with a container, a file that is none, and a listing that has the name of the latter. -/
def mixed : World :=
  .calm ⟨[(["in"], .directory), (["in", "a.lua"], .file Batch.bare),
    (["in", "b.lua"], .file [0x1b]), (["out"], .directory), (["out", "b.json"], .file [1])],
    by decide⟩ []

/-- A request to decode a directory into another one. -/
def fromTo : CommandLine.Invocation := ⟨"in", some "out", none, false, false, false, false⟩

theorem fileNames_mixed : Batch.fileNames mixed.tree ["in"] = ["a.lua", "b.lua"] := by decide

theorem read_mixed : mixed.read (Path.join "in" "a.lua") = .ok Batch.bare ∧
    mixed.read (Path.join "in" "b.lua") = .ok [0x1b] := ⟨by rfl, by rfl⟩

theorem not_decodes_mixed : ¬ (batch fromTo .default).Decodes mixed "b.lua" := by
  rintro ⟨content, text, hr, ha⟩
  cases hr.symm.trans read_mixed.2
  have hfails : ((batch fromTo .default).alone "b.lua" [0x1b]).isOk = false := by decide +kernel
  rw [ha] at hfails
  cases hfails

theorem feasible_mixed : (batch fromTo .default).Feasible mixed mixed ["in"] "out" := by
  constructor
  case readable =>
    rw [fileNames_mixed, List.forall_mem_cons, List.forall_mem_singleton]
    exact ⟨⟨_, read_mixed.1⟩, ⟨_, read_mixed.2⟩⟩
  case distinct =>
    rw [fileNames_mixed]
    decide
  case writable =>
    have hl : mixed.Leads "out" ["out"] := by rfl
    rw [fileNames_mixed, List.forall_mem_cons, List.forall_mem_singleton]
    constructor
    · intro content text _ _
      exact (hl.creatable_join (by decide)).2 (by decide)
    · intro content text hr ha
      exact absurd ⟨content, text, hr, ha⟩ not_decodes_mixed

theorem served_mixed (w : World) : (batch fromTo .default).Served mixed w ["in"] where
  granted := granted_of_plain (fun _ ↦ rfl) w
  whole _ _ _ _ := .inr fun _ _ _ ↦ rfl

theorem run_isolated_mixed : ∃ code w' text,
    mixed.runs (run ["in", "out"] none) = (code, w') ∧ code ≠ 0 ∧
      (batch fromTo .default).alone "a.lua" Batch.bare = .ok text ∧
      w'.tree.content? ["out", "a.json"] = some (Utf8.encode text) ∧
      w'.tree.content? ["out", "b.json"] = some [1] := by
  obtain ⟨text, ha⟩ : ∃ text, (batch fromTo .default).alone "a.lua" Batch.bare = .ok text :=
    Batch.exists_alone (by decide +kernel)
  have hparse : CommandLine.parse ["in", "out"] = .run fromTo := by decide
  have hsettings : (mixed.tries
      (loadSettings (logger (filter fromTo.verbose none).1) fromTo.config)).1 =
        .ok .default := by rfl
  have hd : mixed.tree.find mixed.current fromTo.input = .ok (["in"], .directory) := by rfl
  have hm : mixed.runs (Host.makeDirectories
      ((batch fromTo .default).directoryBeside fromTo.input)) = (.ok (), mixed) := by rfl
  have hl : mixed.Leads ((batch fromTo .default).directoryBeside fromTo.input) ["out"] := by rfl
  have hapart : ¬ mixed.Leads ((batch fromTo .default).directoryBeside fromTo.input) ["in"] :=
    fun h ↦ absurd (h.unique hl) (by decide)
  obtain ⟨-, -, -, code, w', place, -, -, -, hrun, hplace, -, hisolated, hcode, -⟩ :=
    run_isolated hparse hsettings hd hm hapart feasible_mixed (served_mixed _)
  obtain rfl := hplace.unique hl
  have hmem : "a.lua" ∈ Batch.fileNames mixed.tree ["in"] := by decide
  have hmem' : "b.lua" ∈ Batch.fileNames mixed.tree ["in"] := by decide
  exact ⟨code, w', text, hrun, fun h ↦ not_decodes_mixed (hcode.1 h _ hmem'), ha,
    hisolated.listed _ hmem _ _ read_mixed.1 ha, hisolated.unlisted _ hmem' not_decodes_mixed⟩

end Program

end JitDump
