import JitDump.Proofs.Batches
import JitDump.Proofs.Styles
import JitDump.Proofs.Texts
import JitDump.Proofs.Verdicts

/-!
# What becomes of the inputs of a batch

A batch makes listings and writes them, and nothing else.  So a file that is an
input is lost only to a listing that was made for a file, itself perhaps: the
directory of the listings may be the one that the input is in, and the input may
have the name of a listing already.  It is lost as well if the listing could not
be written.  But no beginning of a listing is a container: what stands in the
place of a file that is lost before its turn is never taken for one, so that
listings are made of what the files held at first.
-/

namespace JitDump

open Files World

theorem Program.moves_logger (shown : Log.Filter) (l : Log.Line) :
    Moves Alike Alike (logger shown l : StateM World Unit) := by
  rw [logger]
  split_ifs
  · exact .report _
  · exact .pure _

namespace Batch

variable {b : Batch} {w w₁ w₂ w' : World} {directory path name text : String} {source : Source}
variable {place l : Location} {content held : Bytes} {outcome : Outcome}
variable {outcomes before : List (String × Outcome)}

/-! ## What stands in the place of a listing -/

/-- What comes to a listing opens as a container does. -/
theorem head?_of_comesTo (h : b.comesTo name source = .ok text) :
    source.delivered.head? = some Container.signature := by
  obtain ⟨p, hd, -⟩ := comesTo_eq_ok.1 h
  obtain ⟨ctx, ps, t, hpoint, -⟩ := Container.exists_point hd
  have hopens := hpoint.opens
  generalize source.delivered = input, ctx.flags = flags at hopens ⊢
  cases hopens
  rfl

/-- A listing opens with the bracket of its object. -/
theorem head?_encode_text (pretty : Bool) (p : Prototype) :
    (Utf8.encode (Listing.text pretty p)).head? = some 123 := by
  obtain ⟨⟩ := p
  rw [Utf8.encode_eq, Listing.toList_text, Prototype.toJson, Json.written]
  rfl

/-- No beginning of a listing opens as a container does. -/
theorem head?_ne_of_isPrefix (h : b.comesTo name source = .ok text)
    (hheld : held <+: Utf8.encode text) : held.head? ≠ some Container.signature := by
  obtain ⟨p, -, rfl⟩ := comesTo_eq_ok.1 h
  obtain ⟨rest, heq⟩ := hheld
  have hbrace := head?_encode_text b.pretty p
  rw [← heq] at hbrace
  cases held with
  | nil => simp
  | cons first held =>
    obtain rfl : first = 123 := Option.some.inj hbrace
    exact mt Option.some.inj (by decide)

/-- What a turn leaves of the listing that it makes is not a container. -/
theorem Treats.exists_held (hl : w.Leads directory place)
    (ht : b.Treats directory path w outcome w') (hlands : Lands place l (path, outcome)) :
    ∃ held, w'.tree.content? l = some held ∧ held.head? ≠ some Container.signature := by
  obtain ⟨hmade, name, hn, rfl⟩ := hlands
  obtain ⟨listing, hmade⟩ := Option.isSome_iff_exists.1 hmade
  obtain ⟨name', source, text, hn', rfl, -, hd, hlists⟩ := ht.of_created hmade
  obtain rfl : name = name' := Option.some.inj (hn.symm.trans hn')
  have hl' := (sameFiles_asked w).extends.leads hl
  cases hlists with
  | uncreated => cases hmade
  | broken hc _ _ _ hh htext =>
    rw [place_listing hl' hn (creatable_of_create hc).2] at hh
    exact ⟨_, hh, head?_ne_of_isPrefix hd htext⟩
  | listed hc _ hh =>
    rw [place_listing hl' hn (creatable_of_create hc).2] at hh
    exact ⟨_, hh, head?_ne_of_isPrefix hd (List.prefix_refl _)⟩

/-- So no container stands where a listing was made in some turns. -/
theorem Goes.exists_held (hg : b.Goes directory w outcomes w') (hl : w.Leads directory place)
    (h : ∃ e ∈ outcomes, Lands place l e) :
    ∃ held, w'.tree.content? l = some held ∧ held.head? ≠ some Container.signature := by
  induction hg with
  | done =>
    obtain ⟨e, he, -⟩ := h
    cases he
  | @turn w w₁ w₂ w' path outcome outcomes ht hs hg ih =>
    have hl₂ := ((ht.changes hl).trans (hs.sameFiles.changes _)).leads hl
    by_cases hrest : ∃ e ∈ outcomes, Lands place l e
    · exact ih hl₂ hrest
    · obtain ⟨e, he, hlands⟩ := h
      rcases List.mem_cons.1 he with rfl | he
      · obtain ⟨held, hheld, hhead⟩ := ht.exists_held hl hlands
        exact ⟨held, by rw [(hg.changes hl₂).content?_eq hrest, hs.tree, hheld], hhead⟩
      · exact absurd ⟨e, he, hlands⟩ hrest

/-- A file for which a listing is made stands where none was made before. -/
theorem Treats.not_lands (ht : b.Treats directory path w₁ outcome w₂)
    (hl : w.Leads directory place) (hbefore : b.Goes directory w before w₁)
    (hf : w.tree.find w.current path = .ok (l, .file content)) {listing : String}
    (hmade : created? outcome = some listing) : ∀ e ∈ before, ¬ Lands place l e := by
  intro e he hlands
  have hch := hbefore.changes hl
  obtain ⟨held, hheld, hhead⟩ := hbefore.exists_held hl ⟨e, he, hlands⟩
  obtain ⟨name, content', text, -, -, hr, hc, hd, -⟩ := ht.read_of_created hmade
  obtain ⟨l', hf'⟩ := read_eq_ok.1 hr
  obtain ⟨n, hf₁, -⟩ := hch.grows.find_eq hf
  rw [hch.current] at hf'
  cases hf₁.symm.trans hf'
  rw [Tree.content?_eq_some.2 (Tree.find_eq_ok.1 hf').2.2, Option.some_inj] at hheld
  rw [← Answer.delivered_source hc] at hheld
  exact hhead (hheld ▸ head?_of_comesTo hd)

/-! ## What becomes of the inputs -/

/-- The turn of an input that stands at `l`, after the turns of the files `before` it. -/
structure InTurn (b : Batch) (directory : String) (place l : Location) (path : String)
    (content : Bytes) (before : List (String × Outcome)) (outcome : Outcome) (w₁ : World) :
    Prop where
  /-- What is handed out is what it held, unless a listing was made in its place. -/
  handed : (∀ e ∈ before, ¬ Lands place l e) → w₁.read path = .ok content ∧
    ∀ source, w₁.openFile path = .ok source → source = w₁.answer.source content
  /-- A listing is made for it only if that has not happened, it was read to its end and what it
  held comes to a listing alone. -/
  listed : ∀ listing, created? outcome = some listing → (∀ e ∈ before, ¬ Lands place l e) ∧
    ∃ name text, Path.fileName? path = some name ∧ listing = listingPath directory name ∧
      (w₁.answer.source content).closing = .finished ∧
      b.comesTo name (w₁.answer.source content) = .ok text ∧
      (content.length < Cursor.maxBuffer → b.alone name content = .ok text)

/-- What a batch makes of its inputs, its listings being at a place in the world in which their
directory is made. -/
structure Sparing (b : Batch) (w w₀ w' : World) (directory : String) (place : Location)
    (outcomes : List (String × Outcome)) : Prop where
  planned : w.tries b.plan = (.ok (outcomes.map (·.1), directory), w)
  made : w.runs (Host.makeDirectories directory) = (.ok (), w₀)
  leads : w₀.Leads directory place
  /-- Listings are made for inputs only. -/
  inputs : ∀ e ∈ outcomes, (created? e.2).isSome → ∃ l content, b.Input w e.1 l content
  /-- An input is kept unless a listing is made in its place. -/
  kept : ∀ path l content, b.Input w path l content →
    (∀ e ∈ outcomes, ¬ Lands place l e) → w'.tree.content? l = some content
  /-- Every input has its turn. -/
  turns : ∀ path l content, b.Input w path l content → ∃ before outcome after w₁ w₂,
    outcomes = before ++ (path, outcome) :: after ∧ b.Goes directory w₀ before w₁ ∧
      b.Treats directory path w₁ outcome w₂ ∧
      b.InTurn directory place l path content before outcome w₁

/-- A batch that cannot start leaves all contents as they are.  Any other spares its inputs. -/
def Spares (b : Batch) (w : World) : Except Fatal (List (String × Outcome)) → World → Prop
  | .error _, w' => ∀ l, w'.tree.content? l = w.tree.content? l
  | .ok outcomes, w' => ∃ directory place w₀, b.Sparing w w₀ w' directory place outcomes

theorem Treats.inTurn (ht : b.Treats directory path w₁ outcome w₂)
    (hl : w.Leads directory place) (hbefore : b.Goes directory w before w₁)
    (hf : w.tree.find w.current path = .ok (l, .file content)) :
    b.InTurn directory place l path content before outcome w₁ := by
  have hread : (∀ e ∈ before, ¬ Lands place l e) → w₁.read path = .ok content := by
    intro hspared
    have hch : ¬ ∃ e ∈ before, Lands place l e := fun ⟨e, he, h⟩ ↦ hspared e he h
    exact read_eq_ok.2 ⟨l, (hbefore.changes hl).find_eq hf hch⟩
  constructor
  case handed =>
    exact fun hspared ↦ ⟨hread hspared, fun source ho ↦ source_of_read (hread hspared) ho⟩
  case listed =>
    intro listing hmade
    have hspared := ht.not_lands hl hbefore hf hmade
    obtain ⟨name, content', text, hn, hlisting, hr, hc, hd, -⟩ := ht.read_of_created hmade
    cases hr.symm.trans (hread hspared)
    exact ⟨hspared, name, text, hn, hlisting, hc, hd,
      fun hw ↦ (comesTo_source hc (.inl hw) b name).symm.trans hd⟩

theorem Goes.sparing {w₀ : World}
    (hp : w.tries b.plan = (.ok (outcomes.map (·.1), directory), w))
    (hm : w.runs (Host.makeDirectories directory) = (.ok (), w₀))
    (hl : w₀.Leads directory place) (hg : b.Goes directory w₀ outcomes w') :
    b.Sparing w w₀ w' directory place outcomes := by
  have he := (Moves.makeDirectories directory).of_runs hm
  constructor
  case planned => exact hp
  case made => exact hm
  case leads => exact hl
  case inputs =>
    intro e hmem hmade
    have hpath := List.mem_map_of_mem (f := Prod.fst) hmem
    obtain ⟨before, after, rfl⟩ := List.append_of_mem hmem
    obtain ⟨w₁, _, _, hbefore, ht, -, -⟩ := hg.of_append
    obtain ⟨listing, hmade⟩ := Option.isSome_iff_exists.1 hmade
    obtain ⟨_, content, _, -, -, hr, -⟩ := ht.read_of_created hmade
    have hch := hbefore.changes hl
    exact exists_input hp hpath (he.grows.trans hch.grows) (hch.current.trans he.current) hr
  case kept =>
    intro path l content hi hspared
    have hch : ¬ ∃ e ∈ outcomes, Lands place l e := fun ⟨e, he, h⟩ ↦ hspared e he h
    rw [(hg.changes hl).content?_eq hch, he.content, Tree.content?_eq_some]
    exact (Tree.find_eq_ok.1 hi.find).2.2
  case turns =>
    intro path l content hi
    obtain ⟨⟨path', outcome⟩, hmem, rfl⟩ := List.mem_map.1 (hi.mem_files hp)
    obtain ⟨before, after, rfl⟩ := List.append_of_mem hmem
    obtain ⟨w₁, w₂, _, hbefore, ht, -, -⟩ := hg.of_append
    exact ⟨before, outcome, after, w₁, w₂, rfl, hbefore, ht,
      ht.inTurn hl hbefore (he.find_eq hi.find)⟩

theorem Course.spares {r : Except Fatal (List (String × Outcome))} (hc : b.Course w r w') :
    b.Spares w r w' := by
  cases hc with
  | unplanned => exact fun _ ↦ rfl
  | @unmade files directory e w' hp hm =>
    exact ((Moves.makeDirectories directory).of_runs hm).content
  | @done outcomes directory w₀ w' hp hm hg =>
    obtain ⟨place, hl⟩ := makeDirectories_leads hm
    exact ⟨directory, place, w₀, hg.sparing hp hm hl⟩

/-- Nothing but the listings that are made for files takes the place of an input. -/
theorem run_spares_inputs (b : Batch) (shown : Log.Filter) (w : World) :
    ∃ r w', (w.tries (b.outcomes (Program.logger shown))).1 = r ∧
      w.tries (b.run (Program.logger shown)) = (r.map (Summary.ofOutcomes ·.1), w') ∧
      b.Spares w (r.map (·.1)) w' := by
  obtain ⟨r, w', houtcomes, hrun, hc⟩ := course_run (Program.moves_logger shown) b w
  exact ⟨r, w', houtcomes, hrun, hc.spares⟩

/-! ## An input that is lost -/

theorem exists_alone
    (h : (Container.decode b.options .new (.ofBytes content)
      ("@" ++ name)).result.toOption.isSome = true) :
    ∃ text, b.alone name content = .ok text := by
  obtain ⟨p, hp⟩ := Option.isSome_iff_exists.1 h
  exact ⟨_, comesTo_eq_ok.2 ⟨p, Container.Decoded.result_eq_ok hp, rfl⟩⟩

/-- A stripped container of one record. -/
def bare : Bytes :=
  [0x1b, 0x4c, 0x4a, 2, 2, 11, 3, 1, 3, 1, 0, 0, 1, 0x32, 0xff, 1, 0, 0]

/-- A batch whose listings go to its inputs. -/
def inPlace : Batch := ⟨"in", some "in", .default, false⟩

/-- A world with a container that has the name of a listing. -/
def listingNamed : World :=
  .calm ⟨[(["in"], .directory), (["in", "a.json"], .file bare)], by decide⟩ []

theorem found_listingNamed :
    listingNamed.tree.find listingNamed.current inPlace.input = .ok (["in"], .directory) := by rfl

theorem tries_plan_listingNamed :
    listingNamed.tries inPlace.plan = (.ok (["in/a.json"], "in"), listingNamed) := by
  have hnames : inOrder (fileNames listingNamed.tree ["in"]) = ["a.json"] :=
    List.mergeSort_singleton _
  rw [plan_of_directory found_listingNamed, hnames]
  rfl

/-- A run may put a listing in the place of its own input. -/
theorem not_run_keeps_inputs :
    ¬ ∀ (b : Batch) (shown : Log.Filter) (w w' : World) r,
      w.tries (b.run (Program.logger shown)) = (r, w') →
        ∀ path l content, b.Input w path l content → w'.tree.content? l = some content := by
  intro hkeep
  obtain ⟨text, ha⟩ : ∃ text, inPlace.alone "a.json" bare = .ok text :=
    exists_alone (by decide +kernel)
  have hm : listingNamed.runs (Host.makeDirectories "in") = (.ok (), listingNamed) := by rfl
  have hl : listingNamed.Leads "in" ["in"] := by rfl
  have hn : Path.fileName? "in/a.json" = some "a.json" := by rfl
  have hr : listingNamed.read "in/a.json" = .ok bare := by rfl
  have hname : Path.IsName (outputName "a.json" Listing.extension) := by decide
  have hc : listingNamed.Creatable (listingPath "in" "a.json") :=
    (hl.creatable_join hname).2 (by decide)
  obtain ⟨outcomes, heap, w', -, hrun, hpaths, hg⟩ :=
    goes_run (Program.moves_logger (Program.filter false none).1) tries_plan_listingNamed hm
  have hi : inPlace.Input listingNamed (Path.join "in" "a.json") ["in", "a.json"] bare :=
    .entry found_listingNamed (by decide) rfl
  have hkept := hkeep _ _ _ _ _ hrun _ _ _ hi
  obtain ⟨⟨path, outcome⟩, rfl, rfl⟩ := List.map_eq_singleton_iff.1 hpaths
  cases hg with
  | @turn _ w₁ _ _ _ _ _ ht hs hg =>
    cases hg with
    | done hs' =>
      have hgranted : listingNamed.Granted w₁ := granted_of_plain (fun _ ↦ rfl) w₁
      obtain rfl := ht.eq_ok hn hr (.inl (by decide)) ha hgranted hc
      obtain ⟨held, hheld, hhead⟩ := ht.exists_held hl ⟨rfl, "a.json", hn, rfl⟩
      rw [hs'.tree, hs.tree] at hkept
      obtain rfl : held = bare := Option.some.inj (hheld.symm.trans hkept)
      exact hhead rfl

end Batch

end JitDump
