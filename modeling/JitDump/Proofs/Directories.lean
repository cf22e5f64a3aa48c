import JitDump.Proofs.Inputs

/-!
# Batches over a directory

The files of a directory are decoded one by one, and their listings go to
another directory.  Then every file is read as it was, whatever the files before
it have come to.  But files whose names agree up to the first point share a
listing: it is that of the last of them for which it is made, and of none of
them if that could not be written.
-/

namespace JitDump

open Files World

namespace Batch

variable {b : Batch} {w w₀ w₁ w' : World} {input place : Location} {directory name : String}
variable {outcomes before after : List (String × Outcome)} {content : Bytes}

/-- A batch goes over the files of a directory; its listings go to another one. -/
structure Over (b : Batch) (w w₀ : World) (input : Location) (directory : String)
    (place : Location) : Prop where
  found : w.tree.find w.current b.input = .ok (input, .directory)
  made : w.Extends w₀
  leads : w₀.Leads directory place
  apart : place ≠ input

theorem Over.sameFiles (ho : b.Over w w₀ input directory place) (hs : w₀.SameFiles w₁) :
    b.Over w w₁ input directory place :=
  ⟨ho.found, trans_of Extends ho.made hs.extends, hs.extends.leads ho.leads, ho.apart⟩

theorem fileName?_join (hm : name ∈ fileNames w.tree input) :
    Path.fileName? (Path.join b.input name) = some name :=
  Path.fileName?_join b.input (isName_of_mem_fileNames hm)

namespace Over

variable (ho : b.Over w w₀ input directory place)

include ho

/-- No listing takes the place of a file. -/
theorem ne_listingAt (name name' : String) : input ++ [name] ≠ listingAt place name' :=
  fun h ↦ ho.apart (List.append_inj' h rfl).1.symm

theorem not_lands (outcomes : List (String × Outcome)) (name : String) :
    ¬ ∃ e ∈ outcomes, Lands place (input ++ [name]) e :=
  fun ⟨_, _, _, name', _, h⟩ ↦ ho.ne_listingAt name name' h

/-- A file is read as it was. -/
theorem read_join (hg : b.Goes directory w₀ outcomes w₁)
    (hm : name ∈ fileNames w.tree input) :
    w₁.read (Path.join b.input name) = .ok content ↔
      w.read (Path.join b.input name) = .ok content := by
  have hl : w.Leads b.input input := Tree.leads_of_find ho.found
  have hdir := (Tree.find_eq_ok.1 ho.found).2.2
  have hc := hg.changes ho.leads
  have hdir' := hc.grows.directory (ho.made.grows.directory hdir)
  have hname := isName_of_mem_fileNames hm
  rw [(hc.leads (ho.made.leads hl)).read_join hname, hl.read_join hname,
    hc.content?_eq (ho.not_lands outcomes name), ho.made.content, hdir, hdir']

/-- A turn lies between the worlds of the batch, and the directory of the listings stays. -/
theorem of_append {path : String} {outcome : Outcome}
    (hg : b.Goes directory w₀ (before ++ (path, outcome) :: after) w') :
    ∃ w₁ w₂ w₃, b.Goes directory w₀ before w₁ ∧ b.Treats directory path w₁ outcome w₂ ∧
      w₂.SameFiles w₃ ∧ b.Goes directory w₃ after w' ∧
      w₁.Leads directory place ∧ w₃.Leads directory place ∧ w.Later w₁ ∧ w₂.Later w' := by
  obtain ⟨w₁, w₂, w₃, hbefore, ht, hs, hafter⟩ := hg.of_append
  have hch := hbefore.changes ho.leads
  have hl₁ := hch.leads ho.leads
  have hl₃ := hs.sameFiles.extends.leads ((ht.changes hl₁).leads hl₁)
  exact ⟨w₁, w₂, w₃, hbefore, ht, hs.sameFiles, hafter, hl₁, hl₃,
    trans_of Later ho.made.toLater hch.toLater,
    trans_of Later hs.sameFiles.toLater (hafter.changes hl₃).toLater⟩

/-- What comes of a file that is listed. -/
theorem listed {path listing : String}
    (hg : b.Goes directory w₀ (before ++ (path, .ok listing) :: after) w')
    (hm : name ∈ fileNames w.tree input) (hpath : path = Path.join b.input name) :
    listing = listingPath directory name ∧ ∃ content text n, w.read path = .ok content ∧
      w.requests ≤ n ∧ n < w'.requests ∧ ((w.answers n).source content).closing = .finished ∧
      b.comesTo name ((w.answers n).source content) = .ok text ∧
      ((∀ e ∈ after, created? e.2 ≠ some listing) → w'.read listing = .ok (Utf8.encode text)) := by
  subst hpath
  obtain ⟨w₁, w₂, w₃, hbefore, ht, hs, hafter, hl₁, hl₃, hstart, hend⟩ := ho.of_append hg
  obtain ⟨name', content, text, hn, rfl, hr, hc, hd, hlists⟩ := ht.read_of_created rfl
  obtain rfl : name' = name := Option.some.inj (hn.symm.trans (fileName?_join hm))
  have hname := isName_outputName (isName_of_mem_fileNames hm).noSlash
  rw [World.answer, hstart.answers] at hc hd
  refine ⟨rfl, content, text, w₁.requests, (ho.read_join hbefore hm).1 hr, hstart.requests,
    Nat.lt_of_lt_of_le (ht.requests_lt hn) hend.requests, hc, hd, fun hlast ↦ ?_⟩
  have hlisted := hlists.read_listing ((sameFiles_asked w₁).extends.leads hl₁) hname
  exact hafter.read_listing hl₃ hname ((hs.read_eq _).trans hlisted) hlast

end Over

/-- The directory of the listings is somewhere, once it is made. -/
theorem exists_over
    (hd : w.tree.find w.current b.input = .ok (input, .directory))
    (hm : w.runs (Host.makeDirectories directory) = (.ok (), w₀))
    (hapart : ¬ w₀.Leads directory input) : ∃ place, b.Over w w₀ input directory place := by
  have he := (Moves.makeDirectories directory).of_runs hm
  obtain ⟨place, hl⟩ := makeDirectories_leads hm
  refine ⟨place, hd, he, hl, ?_⟩
  rintro rfl
  exact hapart hl

theorem exists_name {path : String} (hpaths : outcomes.map (·.1) =
      (inOrder (fileNames w.tree input)).map (Path.join b.input))
    {outcome : Outcome} (he : (path, outcome) ∈ outcomes) :
    ∃ name ∈ fileNames w.tree input, path = Path.join b.input name := by
  have hmem := List.mem_map_of_mem (f := Prod.fst) he
  rw [hpaths] at hmem
  obtain ⟨name, hname, h⟩ := List.mem_map.1 hmem
  exact ⟨name, mem_inOrder.1 hname, h.symm⟩

theorem exists_entry (hpaths : outcomes.map (·.1) =
      (inOrder (fileNames w.tree input)).map (Path.join b.input))
    (hm : name ∈ fileNames w.tree input) :
    ∃ outcome, (Path.join b.input name, outcome) ∈ outcomes := by
  have hmem : Path.join b.input name ∈ outcomes.map (·.1) :=
    hpaths ▸ List.mem_map_of_mem (mem_inOrder.2 hm)
  obtain ⟨⟨path, outcome⟩, he, rfl⟩ := List.mem_map.1 hmem
  exact ⟨outcome, he⟩

/-- Listings are told apart by the names of their files up to the first point. -/
theorem listingPath_inj {name' : String} (hn : '/' ∉ name.toList) (hn' : '/' ∉ name'.toList) :
    listingPath directory name = listingPath directory name' ↔
      outputName name Listing.extension = outputName name' Listing.extension :=
  Path.join_inj (isName_outputName hn) (isName_outputName hn')

/-- Every file that is reported as decoded has been read to its end and comes to a listing alone,
which is in the directory of listings unless one is made in its place for a later file, whether or
not that could be written.  Files share a listing if their names agree up to the first point. -/
theorem listing_of_decoded {shown : Log.Filter} {heap : Heap}
    (hd : w.tree.find w.current b.input = .ok (input, .directory))
    (houtcomes : (w.tries (b.outcomes (Program.logger shown))).1 = .ok (outcomes, heap))
    (hrun : (w.tries (b.run (Program.logger shown))).2 = w')
    (hapart : ¬ w'.Leads (b.directoryBeside b.input) input) :
    (∀ before path listing after, outcomes = before ++ (path, .ok listing) :: after →
      ∃ name content source text, path = Path.join b.input name ∧
        listing = listingPath (b.directoryBeside b.input) name ∧ w.read path = .ok content ∧
        source.delivered = content ∧ source.closing = .finished ∧
        b.comesTo name source = .ok text ∧
        (content.length < Cursor.maxBuffer → b.alone name content = .ok text) ∧
        ((∀ e ∈ after, created? e.2 ≠ some listing) →
          w'.read listing = .ok (Utf8.encode text))) ∧
    ∀ name ∈ fileNames w.tree input, ∀ name' ∈ fileNames w.tree input,
      listingPath (b.directoryBeside b.input) name =
          listingPath (b.directoryBeside b.input) name' ↔
        outputName name Listing.extension = outputName name' Listing.extension := by
  obtain ⟨r, w'', houtcomes', hrun', hc⟩ := course_run (Program.moves_logger shown) b w
  obtain rfl : w'' = w' := (congrArg Prod.snd hrun').symm.trans hrun
  cases houtcomes'.symm.trans houtcomes
  cases hc with
  | @done _ directory w₀ _ hp hm hg =>
    have hplan := hp.symm.trans (plan_of_directory hd)
    obtain ⟨hpaths, rfl⟩ := Prod.mk.inj (Except.ok.inj (congrArg Prod.fst hplan))
    have hapart₀ : ¬ w₀.Leads (b.directoryBeside b.input) input :=
      fun hl ↦ hapart ((hg.changes hl).leads hl)
    obtain ⟨place, ho⟩ := exists_over hd hm hapart₀
    constructor
    · rintro before path listing after rfl
      obtain ⟨name, hname, hpath⟩ := exists_name hpaths (List.mem_append_right _ List.mem_cons_self)
      obtain ⟨hlisting, content, text, n, hr, -, -, hc, hd, hlast⟩ := ho.listed hg hname hpath
      exact ⟨name, content, _, text, hpath, hlisting, hr, Answer.delivered_source hc, hc, hd,
        fun hw ↦ (comesTo_source hc (.inl hw) b name).symm.trans hd, hlast⟩
    · intro name hname name' hname'
      exact listingPath_inj (isName_of_mem_fileNames hname).noSlash
        (isName_of_mem_fileNames hname').noSlash

/-! ## Files that share a listing -/

/-- A stripped container of one record with a string. -/
def worded : Bytes :=
  [0x1b, 0x4c, 0x4a, 2, 2, 14, 2, 2, 0, 0, 0, 1, 1, 0x32, 0xff, 1, 0, 7, 0x97, 0x97, 0]

/-- A batch over a directory. -/
def fromDirectory : Batch := ⟨"in", some "out", .default, false⟩

/-- A world with two containers whose names agree up to the first point. -/
def sameStem : World :=
  .calm ⟨[(["in"], .directory), (["in", "a.lua"], .file bare), (["in", "a.txt"], .file worded)],
    by decide⟩ []

/-- The same world once the directory of the listings is made. -/
def sameStemMade : World :=
  .calm ⟨sameStem.tree.nodes ++ [(["out"], .directory)], by decide⟩ []

theorem found_sameStem : sameStem.tree.find sameStem.current fromDirectory.input =
    .ok (["in"], .directory) := by rfl

/-- Both files are reported as decoded to one listing. -/
theorem outcomes_sameStem (shown : Log.Filter) : ∃ heap w',
    (sameStem.tries (fromDirectory.outcomes (Program.logger shown))).1 =
      .ok ([("in/a.lua", .ok "out/a.json"), ("in/a.txt", .ok "out/a.json")], heap) ∧
    (sameStem.tries (fromDirectory.run (Program.logger shown))).2 = w' ∧
    ¬ w'.Leads "out" ["in"] := by
  have hnames : inOrder (fileNames sameStem.tree ["in"]) = ["a.lua", "a.txt"] :=
    List.mergeSort_of_pairwise (by decide)
  have hp : sameStem.tries fromDirectory.plan =
      (.ok (["in/a.lua", "in/a.txt"], "out"), sameStem) := by
    rw [plan_of_directory found_sameStem, hnames]
    rfl
  have hm : sameStem.runs (Host.makeDirectories "out") = (.ok (), sameStemMade) := by rfl
  have hl : sameStemMade.Leads "out" ["out"] := by rfl
  have hc : sameStemMade.Creatable (listingPath "out" "a.lua") :=
    (hl.creatable_join (by decide)).2 (by decide)
  obtain ⟨outcomes, heap, w', houtcomes, hrun, hpaths, hg⟩ :=
    goes_run (Program.moves_logger shown) hp hm
  obtain ⟨text, ha⟩ : ∃ text, fromDirectory.alone "a.lua" bare = .ok text :=
    exists_alone (by decide +kernel)
  obtain ⟨text', ha'⟩ : ∃ text, fromDirectory.alone "a.txt" worded = .ok text :=
    exists_alone (by decide +kernel)
  have hl' := (hg.changes hl).leads hl
  refine ⟨heap, w', ?_, congrArg Prod.snd hrun, fun h ↦ absurd (h.unique hl') (by decide)⟩
  obtain ⟨⟨path, outcome⟩, rest, rfl, rfl, hrest⟩ := List.map_eq_cons_iff.1 hpaths
  obtain ⟨⟨path', outcome'⟩, rfl, rfl⟩ := List.map_eq_singleton_iff.1 hrest
  have hn : Path.fileName? "in/a.lua" = some "a.lua" := by rfl
  have hr : sameStemMade.read "in/a.lua" = .ok bare := by rfl
  have hn' : Path.fileName? "in/a.txt" = some "a.txt" := by rfl
  have hf' : sameStemMade.tree.find sameStemMade.current "in/a.txt" =
      .ok (["in", "a.txt"], .file worded) := by rfl
  cases hg with
  | @turn _ w₁ w₂ _ _ _ _ ht hs hg =>
    obtain rfl := ht.eq_ok hn hr (.inl (by decide)) ha (granted_of_plain (fun _ ↦ rfl) w₁) hc
    have hch := (ht.changes hl).trans (hs.sameFiles.changes _)
    have hr' : w₂.read "in/a.txt" = .ok worded := by
      refine read_eq_ok.2 ⟨_, hch.find_eq hf' ?_⟩
      rintro ⟨-, name, -, hat⟩
      exact absurd (List.cons.inj hat).1 (by decide)
    cases hg with
    | @turn _ w₃ _ _ _ _ _ ht' hs' hg' =>
      have hgranted := granted_of_plain (w := w₂) (congrFun hch.answers) w₃
      have hc' := hch.creatable_join hl (by decide) hc
      obtain rfl := ht'.eq_ok hn' hr' (.inl (by decide)) ha' hgranted hc'
      cases hg'
      exact houtcomes

theorem listing_of_decoded_sameStem : ∃ heap w',
    (sameStem.tries (fromDirectory.outcomes (Program.logger (Program.filter false none).1))).1 =
      .ok ([("in/a.lua", .ok "out/a.json"), ("in/a.txt", .ok "out/a.json")], heap) ∧
    (sameStem.tries (fromDirectory.run (Program.logger (Program.filter false none).1))).2 = w' ∧
    ∃ name content text, "in/a.txt" = Path.join "in" name ∧
      sameStem.read "in/a.txt" = .ok content ∧ fromDirectory.alone name content = .ok text ∧
      w'.read "out/a.json" = .ok (Utf8.encode text) := by
  obtain ⟨heap, w', houtcomes, hrun, hapart⟩ := outcomes_sameStem (Program.filter false none).1
  have h := (listing_of_decoded found_sameStem houtcomes hrun hapart).1
  obtain ⟨name, content, source, text, hpath, -, hr, -, -, -, ha, hlast⟩ :=
    h [("in/a.lua", .ok "out/a.json")] "in/a.txt" "out/a.json" [] rfl
  cases hr.symm.trans (show sameStem.read "in/a.txt" = .ok worded by rfl)
  exact ⟨heap, w', houtcomes, hrun, name, worded, text, hpath, hr, ha (by decide), hlast (by simp)⟩

/-- Two files may be reported as decoded to one listing. -/
theorem not_listings_distinct :
    ¬ ∀ (b : Batch) (shown : Log.Filter) (w w' : World) (input : Location)
      (outcomes : List (String × Outcome)) (heap : Heap),
      w.tree.find w.current b.input = .ok (input, .directory) →
      (w.tries (b.outcomes (Program.logger shown))).1 = .ok (outcomes, heap) →
      (w.tries (b.run (Program.logger shown))).2 = w' →
      ¬ w'.Leads (b.directoryBeside b.input) input →
      ∀ e ∈ outcomes, ∀ e' ∈ outcomes, e.1 ≠ e'.1 → ∀ listing, e.2 = .ok listing →
        e'.2 ≠ .ok listing := by
  intro hdistinct
  obtain ⟨heap, w', houtcomes, hrun, hapart⟩ := outcomes_sameStem (Program.filter false none).1
  exact hdistinct fromDirectory _ sameStem w' _ _ heap found_sameStem houtcomes hrun
    hapart ("in/a.lua", .ok "out/a.json") (by simp) ("in/a.txt", .ok "out/a.json") (by simp)
    (by decide) "out/a.json" rfl rfl

end Batch

end JitDump
