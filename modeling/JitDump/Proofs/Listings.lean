import JitDump.Listing
import JitDump.Proofs.Canonical

/-!
# Listings show strings by their bytes

A listing does not show which object a string is, so trees that agree in all but
the identity of their strings have one listing, in either style.
-/

namespace JitDump

theorem Str.SameBytes.toJson_eq {a b : Str} (h : a.SameBytes b) : a.toJson = b.toJson := by
  rw [Str.toJson, Str.toJson, Str.text, Str.text, h]

theorem map_eq_map_of_forall₂ {α β γ : Type} {R : α → β → Prop} {f : α → γ} {f' : β → γ}
    {as : List α} {bs : List β} (h : List.Forall₂ R as bs)
    (hf : ∀ a ∈ as, ∀ b, R a b → f a = f' b) : as.map f = bs.map f' := by
  induction h with
  | nil => rfl
  | @cons a b as bs hr h ih =>
    rw [List.forall_mem_cons] at hf
    rw [List.map_cons, List.map_cons, hf.1 b hr, ih hf.2]

theorem forall₂_of_map_eq_map {α β γ : Type} {R : α → β → Prop} {f : α → γ} {f' : β → γ}
    {as : List α} {bs : List β} (h : as.map f = bs.map f')
    (hR : ∀ a ∈ as, ∀ b ∈ bs, f a = f' b → R a b) : List.Forall₂ R as bs := by
  induction as generalizing bs with
  | nil =>
    rw [List.map_nil, eq_comm, List.map_eq_nil_iff] at h
    exact h ▸ .nil
  | cons a as ih =>
    cases bs with
    | nil => cases h
    | cons b bs =>
      obtain ⟨hab, hrest⟩ := List.cons.inj h
      exact .cons (hR a List.mem_cons_self b List.mem_cons_self hab) (ih hrest fun x hx y hy ↦
        hR x (List.mem_cons_of_mem _ hx) y (List.mem_cons_of_mem _ hy))

namespace Template

theorem Value.Alike.toJson_eq {v w : Value} (h : v.Alike w) : v.toJson = w.toJson := by
  cases h with
  | str h => exact congrArg (Json.tagged "Str") (Str.SameBytes.toJson_eq h)
  | _ => rfl

theorem Key.toJson_toValue (k : Key) : k.toValue.toJson = k.toJson := by cases k <;> rfl

theorem Alike.toJson_eq {t u : Template} (h : t.Alike u) : t.toJson = u.toJson := by
  have harray := map_eq_map_of_forall₂ h.array fun _ _ _ hv ↦ hv.toJson_eq
  have hhash := map_eq_map_of_forall₂ h.hash fun a _ b hab ↦
    show Json.array [a.1.toJson, a.2.toJson] = Json.array [b.1.toJson, b.2.toJson] by
      rw [← a.1.toJson_toValue, ← b.1.toJson_toValue, hab.1.toJson_eq, hab.2.toJson_eq]
  exact congrArg₂ (fun array hash ↦ Json.object [("array", .array array), ("hash", .array hash)])
    harray hhash

end Template

theorem Constant.Alike.toJson_eq {R : Prototype → Prototype → Prop} {o o' : Constant Prototype}
    (h : Constant.Alike R o o') (hc : ∀ p q, o = .child p → R p q → p.toJson = q.toJson) :
    o.toJson = o'.toJson := by
  cases h with
  | str h => rw [Constant.toJson, Constant.toJson, Str.SameBytes.toJson_eq h]
  | table h => rw [Constant.toJson, Constant.toJson, h.toJson_eq]
  | child h => rw [Constant.toJson, Constant.toJson, hc _ _ rfl h]
  | _ => rfl

theorem objectsToJson_eq (done : List Json) (objects : List (Constant Prototype)) :
    objectsToJson done objects = done.reverse ++ objects.map Constant.toJson := by
  induction objects generalizing done with
  | nil => rw [objectsToJson, List.map_nil, List.append_nil]
  | cons o objects ih =>
    rw [objectsToJson, ih, List.reverse_cons, List.map_cons, List.append_assoc]
    rfl

theorem Prototype.Alike.toJson_eq {p q : Prototype} (h : p.Alike Str.SameBytes q) :
    p.toJson = q.toJson := by
  induction p using Prototype.induction generalizing q with
  | h p ih =>
    obtain ⟨hflags, hparams, hframe, hcount, hcode, hup, hnum, hobj, hdebug, hname⟩ := h
    have hobjects : p.objects.map Constant.toJson = q.objects.map Constant.toJson := by
      apply map_eq_map_of_forall₂ hobj
      intro o ho o' hoo
      refine hoo.toJson_eq ?_
      rintro c c' rfl hcc
      exact ih c (Prototype.mem_children.2 ho) hcc
    obtain ⟨⟩ := p
    obtain ⟨⟩ := q
    simp_all only [Prototype.toJson, objectsToJson_eq, hname.toJson_eq]

/-- Trees that agree in all but the identity of their strings are listed as one. -/
theorem Prototype.Alike.text_eq {p q : Prototype} (h : p.Alike Str.SameBytes q) (pretty : Bool) :
    Listing.text pretty p = Listing.text pretty q := by
  rw [Listing.text, Listing.text, Listing.document, Listing.document, h.toJson_eq]

end JitDump
