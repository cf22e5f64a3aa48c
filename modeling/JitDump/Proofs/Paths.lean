import Mathlib.Tactic.Common
import JitDump.Files.Path

/-!
# Names behind paths

A path with a name behind it leads where the path leads and then to the name,
whether or not the path says that it is a directory.  The name is the last part
of the longer path, and names are told apart by it.
-/

namespace JitDump.Path

variable {p q name : String}

/-! ## Pieces -/

theorem pieces_of_noSlash (h : '/' ∉ name.toList) : pieces name = [name] := by
  rw [pieces, List.splitOn_eq_singleton h, List.map_singleton, String.ofList_toList]

theorem pieces_slash (p q : String) : pieces (p ++ "/" ++ q) = pieces p ++ pieces q := by
  have hslash : (p ++ "/" ++ q).toList = p.toList ++ '/' :: q.toList := by
    rw [String.toList_append, String.toList_append, List.append_assoc]
    rfl
  rw [pieces, hslash, List.splitOn_append_cons_self, List.map_append, pieces, pieces]

theorem steps_slash (p q : String) : steps (p ++ "/" ++ q) = steps p ++ steps q := by
  rw [steps, pieces_slash, List.filter_append, steps, steps]

theorem IsName.pieces_eq (h : IsName name) : pieces name = [name] := pieces_of_noSlash h.noSlash

theorem IsName.steps_eq (h : IsName name) : steps name = [name] := by
  simp [steps, h.pieces_eq, h.ne_empty]

theorem IsName.isAbsolute_eq (h : IsName name) : isAbsolute name = false := by
  rw [isAbsolute, beq_eq_false_iff_ne]
  exact fun hs ↦ h.noSlash (List.mem_of_mem_head? hs)

/-- The two halves of a path that says that it is a directory. -/
theorem exists_of_endsInSlash (h : endsInSlash p = true) : ∃ q, p = q ++ "/" := by
  rw [endsInSlash, beq_iff_eq, List.getLast?_eq_some_iff] at h
  obtain ⟨cs, h⟩ := h
  refine ⟨String.ofList cs, String.toList_inj.1 ?_⟩
  rw [h, String.toList_append, String.toList_ofList]
  rfl

/-- The first piece is told from the others, since a slash in front of it is not dropped. -/
theorem of_dropIdle_eq_nil {absolute : Bool} {ps : List String} (h : dropIdle absolute ps = []) :
    (∀ piece ∈ ps, piece = "" ∨ piece = ".") ∧
      ∀ piece ∈ ps.getLast?, piece = "" ∨ absolute = true ∧ piece = "." := by
  fun_induction dropIdle absolute ps with
  | case1 => simp
  | case2 piece hidle =>
    have hpiece : piece = "" ∨ absolute = true ∧ piece = "." := by simpa using hidle
    simpa using ⟨hpiece.imp_right And.right, hpiece⟩
  | case3 => cases h
  | case4 piece rest hrest hidle ih =>
    have hpiece : piece = "" ∨ piece = "." := by simpa using hidle
    obtain ⟨hall, hlast⟩ := ih h
    rw [List.getLast?_cons_of_ne_nil hrest]
    exact ⟨List.forall_mem_cons.2 ⟨hpiece, hall⟩, hlast⟩
  | case5 => cases h

theorem head?_pieces (h : p ≠ "") (ha : isAbsolute p = false) : (pieces p).head? ≠ some "" := by
  obtain ⟨c, cs, hc⟩ := List.exists_cons_of_ne_nil (mt String.toList_eq_nil_iff.1 h)
  rw [isAbsolute, hc, List.head?_cons, beq_eq_false_iff_ne, ne_eq, Option.some_inj] at ha
  rw [pieces, hc, List.splitOn, List.splitOnP_cons_eq_if_modifyHead, if_neg (by simpa using ha)]
  cases cs.splitOnP (· == '/') <;> simp [← String.toList_inj]

/-- A path without a last part has dots at most, and those only behind a slash. -/
theorem of_backwards_eq_nil (h : backwards p = []) (hname : name ∈ steps p) :
    isAbsolute p = true ∧ name = "." := by
  obtain ⟨hall, hlast⟩ := of_dropIdle_eq_nil h
  rw [steps, List.mem_filter, bne_iff_ne] at hname
  have hdot := (hall name (List.mem_reverse.2 hname.1)).resolve_left hname.2
  refine ⟨?_, hdot⟩
  by_contra habsolute
  rw [Bool.not_eq_true] at habsolute
  have hempty : p ≠ "" := by
    rintro rfl
    simp [pieces] at hname
  obtain ⟨first, hfirst⟩ : ∃ first, (pieces p).head? = some first :=
    Option.isSome_iff_exists.1 (List.isSome_head?.2 (List.ne_nil_of_mem hname.1))
  rw [List.getLast?_reverse] at hlast
  obtain rfl | ⟨h, -⟩ := hlast first hfirst
  · exact head?_pieces hempty habsolute hfirst
  · exact Bool.noConfusion (habsolute.symm.trans h)

theorem of_dropIdle_eq_cons {absolute : Bool} {ps rest : List String} {piece : String}
    (h : dropIdle absolute ps = piece :: rest) : piece ∈ ps ∧ piece ≠ "" := by
  fun_induction dropIdle absolute ps with
  | case1 => cases h
  | case2 => cases h
  | case3 piece' hidle =>
    cases h
    exact ⟨List.mem_singleton_self _, fun hempty ↦ hidle (by simp [hempty])⟩
  | case4 piece' rest' hrest hidle ih => exact (ih h).imp_left (List.mem_cons_of_mem _)
  | case5 piece' rest' hrest hidle =>
    cases h
    exact ⟨List.mem_cons_self, fun hempty ↦ hidle (by simp [hempty])⟩

/-- The last part of a path is a name. -/
theorem isName_of_fileName? (h : fileName? p = some name) : IsName name := by
  rw [fileName?] at h
  split at h
  · cases h
  · next piece rest hpieces =>
    obtain ⟨hmem, hempty⟩ := of_dropIdle_eq_cons hpieces
    split_ifs at h with hdots
    obtain rfl := Option.some.inj h
    rw [Bool.or_eq_true, beq_iff_eq, beq_iff_eq, not_or] at hdots
    exact ⟨hempty, hdots.1, hdots.2, noSlash_of_mem_pieces (List.mem_reverse.1 hmem)⟩

/-! ## A name behind a path -/

/-- A name alone, or a name behind a slash that is there or is put there. -/
theorem join_cases (p : String) (h : IsName name) :
    (p = "" ∧ join p name = name) ∨
      ∃ q, join p name = q ++ "/" ++ name ∧ (p = q ++ "/" ∨ p = q ∧ p ≠ "") := by
  rw [join, h.isAbsolute_eq, Bool.false_or]
  split_ifs with hempty hslash
  · exact .inl ⟨String.isEmpty_iff.1 hempty, rfl⟩
  · obtain ⟨q, rfl⟩ := exists_of_endsInSlash hslash
    exact .inr ⟨q, rfl, .inl rfl⟩
  · exact .inr ⟨p, rfl, .inr ⟨rfl, fun hp ↦ hempty (String.isEmpty_iff.2 hp)⟩⟩

theorem steps_join (p : String) (h : IsName name) : steps (join p name) = steps p ++ [name] := by
  rcases join_cases p h with ⟨rfl, hj⟩ | ⟨q, hj, rfl | ⟨rfl, -⟩⟩
  · rw [hj, h.steps_eq]
    rfl
  · have hslash := steps_slash q ""
    rw [String.append_empty] at hslash
    rw [hj, steps_slash, h.steps_eq, hslash]
    simp [steps, pieces]
  · rw [hj, steps_slash, h.steps_eq]

theorem isAbsolute_append (h : p ≠ "") (q : String) : isAbsolute (p ++ q) = isAbsolute p := by
  obtain ⟨c, cs, hc⟩ := List.exists_cons_of_ne_nil (mt String.toList_eq_nil_iff.1 h)
  rw [isAbsolute, isAbsolute, String.toList_append, hc]
  rfl

theorem isAbsolute_join (p : String) (h : IsName name) :
    isAbsolute (join p name) = isAbsolute p := by
  rcases join_cases p h with ⟨rfl, hj⟩ | ⟨q, hj, rfl | ⟨rfl, hp⟩⟩
  · rw [hj, h.isAbsolute_eq]
    rfl
  · rw [hj, isAbsolute_append (by simp)]
  · rw [hj, String.append_assoc, isAbsolute_append hp]

theorem endsInSlash_append (p : String) (h : IsName name) : endsInSlash (p ++ name) = false := by
  have hname : name.toList ≠ [] := mt String.toList_eq_nil_iff.1 h.ne_empty
  rw [endsInSlash, beq_eq_false_iff_ne, String.toList_append, List.getLast?_append,
    List.getLast?_eq_some_getLast hname, Option.some_or]
  exact fun hs ↦ h.noSlash (Option.some.inj hs ▸ List.getLast_mem hname)

theorem endsInSlash_join (p : String) (h : IsName name) : endsInSlash (join p name) = false := by
  rcases join_cases p h with ⟨-, hj⟩ | ⟨q, hj, -⟩
  · have hempty := endsInSlash_append "" h
    rwa [String.empty_append, ← hj] at hempty
  · rw [hj, endsInSlash_append _ h]

/-- The last part of a path is the name behind it. -/
theorem fileName?_join (p : String) (h : IsName name) : fileName? (join p name) = some name := by
  have hpieces : ∃ front, pieces (join p name) = front ++ [name] := by
    rcases join_cases p h with ⟨-, hj⟩ | ⟨q, hj, -⟩
    · exact ⟨[], by rw [hj, h.pieces_eq, List.nil_append]⟩
    · exact ⟨pieces q, by rw [hj, pieces_slash, h.pieces_eq]⟩
  obtain ⟨front, hpieces⟩ := hpieces
  have hlast : ∀ absolute rest, dropIdle absolute (name :: rest) = name :: rest := by
    rintro absolute (_ | _) <;> simp [dropIdle, h.ne_empty, h.ne_dot]
  rw [fileName?, backwards, hpieces, List.reverse_append, List.reverse_singleton,
    List.singleton_append, hlast]
  simp [h.ne_dot, h.ne_dots]

/-- Names behind one path are told apart by the paths that they make. -/
theorem join_inj {name' : String} (h : IsName name) (h' : IsName name') :
    join p name = join p name' ↔ name = name' := by
  refine ⟨fun hj ↦ ?_, congrArg (join p)⟩
  have hsome := fileName?_join p h
  rw [hj, fileName?_join p h'] at hsome
  exact (Option.some.inj hsome).symm

end JitDump.Path
