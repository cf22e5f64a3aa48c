import JitDump.Batch
import JitDump.Proofs.Moves
import JitDump.Proofs.Texts

/-!
# What comes of writing a listing

The listing of a file is made, written in two parts and flushed, and the system
may break off anywhere in between.  Then it holds a beginning of the text, and
what stood in its place is lost all the same.
-/

namespace JitDump

open Files World

namespace Batch

variable {b : Batch} {text : String} {w w' w₁ : World}

/-! ## Writing to a file -/

/-- What writing to a file comes to: the bytes stand behind its content, or a request was not
granted and it holds a beginning of that. -/
inductive Writes {ε : Type} (l : Location) (bytes : Bytes) (w : World) :
    Except ε Unit → World → Prop
  | all {w' : World} (hch : w.Changes (· = l) w') (hc : ∀ content,
      w.tree.content? l = some content → w'.tree.content? l = some (content ++ bytes)) :
      Writes l bytes w (.ok ()) w'
  | refused {e : ε} {w' : World} (hch : w.Changes (· = l) w') (hr : ¬ w.Granted w')
      (hc : ∀ content, w.tree.content? l = some content →
        ∃ held, w'.tree.content? l = some held ∧ held <+: content ++ bytes) :
      Writes l bytes w (.error e) w'

namespace Writes

variable {ε ε' : Type} {l : Location} {bytes : Bytes} {r : Except ε Unit}

theorem write (l : Location) (bytes : Bytes) (w : World) :
    Writes l bytes w (w.write l bytes).1 (w.write l bytes).2 := by
  have hch : w.Changes (· = l) (w.write l bytes).2 := write_changes (P := (· = l)) rfl bytes
  cases hr : (w.write l bytes).1 with
  | ok => exact .all hch fun content hc ↦ content?_of_write hc hr
  | error e =>
    refine .refused hch (fun hg ↦ ?_) fun content hc ↦ content?_of_write_error hc hr
    have hlt : w.requests < (w.write l bytes).2.requests := by
      rw [requests_write]
      exact Nat.lt_succ_self _
    rw [write_of_granted (hg.answer hlt)] at hr
    cases hr

theorem mapError (f : ε → ε') (h : Writes l bytes w r w') : Writes l bytes w (r.mapError f) w' := by
  cases h with
  | all hch hc => exact .all hch hc
  | refused hch hr hc => exact .refused hch hr hc

/-- What breaks off would not have come to more that is written behind it. -/
theorem append_error {e : ε} (h : Writes l bytes w (.error e) w') (more : Bytes) :
    Writes l (bytes ++ more) w (.error e) w' := by
  cases h with
  | refused hch hr hc =>
    refine .refused hch hr fun content h ↦ ?_
    obtain ⟨held, hheld, hprefix⟩ := hc content h
    rw [← List.append_assoc]
    exact ⟨held, hheld, hprefix.trans (List.prefix_append _ _)⟩

/-- What is written after something was written stands behind it. -/
theorem append {more : Bytes} {r' : Except ε' Unit} (h : Writes (ε := ε) l bytes w (.ok ()) w₁)
    (h' : Writes l more w₁ r' w') : Writes l (bytes ++ more) w r' w' := by
  obtain ⟨hch, hc⟩ := h
  cases h' with
  | all hch' hc' =>
    refine .all (hch.trans hch') fun content h ↦ ?_
    rw [hc' _ (hc content h), List.append_assoc]
  | refused hch' hr hc' =>
    refine .refused (hch.trans hch') (fun hg ↦ hr (hg.after hch.toLater)) fun content h ↦ ?_
    rw [← List.append_assoc]
    exact hc' _ (hc content h)

end Writes

theorem writes_put (l : Location) (bytes : Bytes) (w : World) :
    Writes l bytes w (w.runs (put l bytes)).1 (w.runs (put l bytes)).2 :=
  (Writes.write l bytes w).mapError SystemError.message

theorem writes_writeTo (l : Location) (pretty : Bool) (p : Prototype) (w : World) :
    Writes l (Utf8.encode (Listing.text pretty p)) w
      (w.runs (Listing.writeTo (put l) pretty p)).1
      (w.runs (Listing.writeTo (put l) pretty p)).2 := by
  have hdocument := writes_put l (Utf8.encode (Listing.document (Listing.style pretty) p)) w
  have htext : Utf8.encode (Listing.text pretty p) =
      Utf8.encode (Listing.document (Listing.style pretty) p) ++ [0x0a] := by
    rw [Listing.text, Utf8.encode_eq, Utf8.encode_eq, String.toList_append, List.flatMap_append]
    rfl
  rw [Listing.writeTo, Listing.putDocument, runs_bind, htext]
  generalize w.runs (put l (Utf8.encode (Listing.document (Listing.style pretty) p))) = r
    at hdocument ⊢
  obtain ⟨cause | ⟨⟩, w₁⟩ := r
  · exact (hdocument.mapError Listing.WriteError.document).append_error [0x0a]
  · have hnewline := writes_put l [0x0a] w₁
    dsimp only
    rw [runs_bind]
    generalize w₁.runs (put l [0x0a]) = r at hnewline ⊢
    rcases r with ⟨_ | _, w₂⟩ <;>
      exact hdocument.append (hnewline.mapError Listing.WriteError.newline)

/-! ## Making a listing -/

/-- What comes of making a listing, and of the world. -/
inductive Lists (listing text : String) (w : World) : Outcome → World → Prop
  | uncreated {e : SystemError} (hc : w.create listing = .error e) :
      Lists listing text w (.error (.uncreated listing e)) w.asked
  | broken {problem : Problem} {l : Location} {w₁ w' : World} {held : Bytes}
      (hc : w.create listing = .ok (l, w₁))
      (hp : created? (.error problem) = some listing) (hch : w.Changes (· = l) w')
      (hr : ¬ w.Granted w') (hh : w'.tree.content? l = some held)
      (ht : held <+: Utf8.encode text) : Lists listing text w (.error problem) w'
  | listed {l : Location} {w₁ w' : World} (hc : w.create listing = .ok (l, w₁))
      (hch : w.Changes (· = l) w') (ht : w'.tree.content? l = some (Utf8.encode text)) :
      Lists listing text w (.ok listing) w'

section

variable {ε : Type} {listing : String} {l : Location}

theorem changes_asked_of_create (hc : w.create listing = .ok (l, w₁)) :
    w.Changes (· = l) w₁.asked :=
  (create_changes (P := (· = l)) hc rfl).trans ((sameFiles_asked w₁).changes _)

/-- A listing that was made is lost if some part of it cannot be written. -/
theorem Lists.of_writes_error {e : ε} {problem : Problem} (hc : w.create listing = .ok (l, w₁))
    (hp : created? (.error problem) = some listing)
    (h : Writes l (Utf8.encode text) w₁.asked (.error e) w') :
    Lists listing text w (.error problem) w' := by
  have hempty : w₁.tree.content? l = some [] := content?_of_create hc
  have hmade := changes_asked_of_create hc
  cases h with
  | refused hch hr hheld =>
    obtain ⟨held, hh, ht⟩ := hheld [] hempty
    exact .broken hc hp (hmade.trans hch) (fun hg ↦ hr (hg.after hmade.toLater)) hh ht

theorem Lists.of_writes_ok (hc : w.create listing = .ok (l, w₁))
    (h : Writes (ε := ε) l (Utf8.encode text) w₁.asked (.ok ()) w') :
    Lists listing text w (.ok listing) w' := by
  have hempty : w₁.tree.content? l = some [] := content?_of_create hc
  obtain ⟨hch, ht⟩ := h
  exact .listed hc ((changes_asked_of_create hc).trans hch) (ht [] hempty)

end

theorem lists_list (b : Batch) (listing : String) (p : Prototype) (w : World) :
    Lists listing (Listing.text b.pretty p) w (w.runs (b.list listing p)).1
      (w.runs (b.list listing p)).2 := by
  rw [list, runs_bind, runs_create]
  cases hc : w.create listing with
  | error e => exact .uncreated hc
  | ok made =>
    obtain ⟨l, w₁⟩ := made
    have hwritten := writes_writeTo l b.pretty p w₁.asked
    dsimp only
    rw [runs_bind]
    generalize w₁.asked.runs (Listing.writeTo (put l) b.pretty p) = r at hwritten ⊢
    obtain ⟨e | ⟨⟩, w₂⟩ := r
    · exact .of_writes_error hc rfl hwritten
    · -- a flush puts nothing more into the file, but may be what is refused
      have hflushed := hwritten.append (Writes.write l [] w₂)
      rw [List.append_nil] at hflushed
      dsimp only
      rw [runs_bind, runs_flush]
      generalize w₂.write l [] = r at hflushed ⊢
      obtain ⟨e | ⟨⟩, w₃⟩ := r
      · exact .of_writes_error hc rfl hflushed
      · exact .of_writes_ok hc hflushed

theorem Lists.eq_ok_of_granted {listing : String} {outcome : Outcome}
    (h : Lists listing text w outcome w') (hg : w.Granted w') (hc : w.Creatable listing) :
    outcome = .ok listing := by
  cases h with
  | uncreated he =>
    obtain ⟨l, w₁, hmade⟩ := exists_create (hg.answer (Nat.lt_succ_self _)).refusal hc
    cases hmade.symm.trans he
  | broken _ _ _ hr _ _ => exact absurd hg hr
  | listed => rfl

theorem Lists.changes {listing : String} {outcome : Outcome}
    (h : Lists listing text w outcome w') : w.Changes (fun l ↦ created? outcome = some listing ∧
      w.tree.place w.current listing .isDirectory = .ok l) w' := by
  cases h with
  | uncreated => exact (sameFiles_asked w).changes _
  | broken hc hp hch _ _ _ => exact hch.mono fun l h ↦ h ▸ ⟨hp, (creatable_of_create hc).2⟩
  | listed hc hch _ => exact hch.mono fun l h ↦ h ▸ ⟨rfl, (creatable_of_create hc).2⟩

end Batch

end JitDump
