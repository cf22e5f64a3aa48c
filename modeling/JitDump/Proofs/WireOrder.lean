import Mathlib.Data.List.Nodup
import Mathlib.Data.List.Range
import JitDump.Proofs.Records
import JitDump.Prototype.Tree

/-!
# Wire order

Records come children first, and a record takes its children from the top of the
stack while its objects are read.  Three reversals meet there: the latest record
is on top of the stack, the objects of a record stand on the wire in the order
opposite to their addressing order, and the pool is built from its end.  Together
they cancel, so that the stack, read from its bottom in post-order, is always the
list of the records so far.  The tree of an accepted container therefore holds
every record once, in wire order.
-/

namespace JitDump

theorem Decoding.pop?_eq (s : Container.Session) :
    Decoding.pop? s = .ok s.stack.head? { s with stack := s.stack.tail } := by
  obtain ⟨_, _, stack, _⟩ := s
  cases stack <;> rfl

namespace Container

/-! ## What a record does to the stack -/

namespace Session

/-- The prototypes that no parent has claimed, the latest first. -/
def unclaimed (s : Session) : List Prototype := s.stack.map (·.1)

/-- The trees on the stack from its bottom, each in post-order. -/
def forest (s : Session) : List Prototype := s.unclaimed.reverse.flatMap Prototype.postorder

@[simp] theorem unclaimed_push (s : Session) (p : Prototype) (d : Nat) :
    (s.push p d).unclaimed = p :: s.unclaimed := rfl

end Session

/-- Operations that leave the stack as it is. -/
def Still {α : Type} (x _y : Decoding α) : Prop := ∀ s a t, x s = .ok a t → t.stack = s.stack

/-- Nothing is asked of a reading to leave the stack alone. -/
def anyReading : ReadingCongruence where
  rel _ _ := True
  offsets _ _ := True
  offsets_add _ _ := trivial
  pure _ := trivial
  bind _ _ := trivial
  failAt _ _ _ := trivial
  block _ := trivial
  groups := trivial
  position _ := trivial
  rejects _ _ _ _ := trivial

/-- The congruence of leaving the stack alone. -/
def stillness : DecodingCongruence anyReading where
  rel := Still
  offsets _ _ := True
  offsets_add _ _ := trivial
  pure a := by
    rintro s _ _ ⟨⟩
    rfl
  bind h h' := by
    intro s b t hb
    obtain ⟨a, r, hx, hf⟩ := Fallible.bind_eq_ok.1 hb
    exact (h' a r b t hf).trans (h s a r hx)
  failAt := by rintro _ _ _ _ _ _ _ _ _ ⟨⟩
  ofReading := by
    intro _ x _ _ s a t h
    obtain ⟨c, -, rfl⟩ := Decoding.ofReading_eq_ok_iff.1 h
    rfl
  position h := fun s ↦ h s.cursor.position s.cursor.position trivial s
  intern text := by
    rintro s _ _ ⟨⟩
    rfl

variable {ctx : Context} {s t r : Session}

theorem Still.stack_eq {α : Type} {x : Decoding α} {a : α} (hx : Still x x) (h : x s = .ok a t) :
    t.stack = s.stack := hx s a t h

/-- What an object does to the stack: a child is taken from its top, with one more level of nesting,
and any other object leaves it alone. -/
inductive Claim (s : Session) : Constant Prototype → Nat → Session → Prop
  | other {o : Constant Prototype} {t : Session} (ho : o.child? = none) (hs : t.stack = s.stack) :
      Claim s o 0 t
  | child {p : Prototype} {d : Nat} {t : Session} (hs : s.stack = (p, d) :: t.stack)
      (hd : d + 1 ≤ maxNesting) : Claim s (.child p) (d + 1) t

theorem claim_of_object {o : Constant Prototype} {d : Nat} (h : object s = .ok (o, d) t) :
    Claim s o d t := by
  obtain ⟨start, _, hp, h⟩ := Fallible.bind_eq_ok.1 h
  cases hp
  obtain ⟨kind, r, hk, h⟩ := Fallible.bind_eq_ok.1 h
  have hr := stillness.varint.stack_eq hk
  split at h
  · obtain ⟨top, r', hpop, h⟩ := Fallible.bind_eq_ok.1 h
    rw [Decoding.pop?_eq, hr] at hpop
    cases hst : s.stack with
    | nil =>
      simp only [hst, List.head?_nil] at hpop
      cases hpop
      cases h
    | cons top stack =>
      simp only [hst, List.head?_cons, List.tail_cons] at hpop
      cases hpop
      by_cases hd : maxNesting < top.2 + 1
      · simp only [hd, if_true] at h
        cases h
      · simp only [hd, if_false] at h
        cases h
        exact .child hst (Nat.not_lt.1 hd)
  · obtain ⟨v, r', hv, h⟩ := Fallible.bind_eq_ok.1 h
    cases h
    exact .other rfl ((stillness.template.stack_eq hv).trans hr)
  · obtain ⟨v, r', hv, h⟩ := Fallible.bind_eq_ok.1 h
    cases h
    exact .other rfl ((stillness.wide.stack_eq hv).trans hr)
  · obtain ⟨v, r', hv, h⟩ := Fallible.bind_eq_ok.1 h
    cases h
    exact .other rfl ((stillness.wide.stack_eq hv).trans hr)
  · obtain ⟨v, r', hv, h⟩ := Fallible.bind_eq_ok.1 h
    obtain ⟨w, r'', hw, h⟩ := Fallible.bind_eq_ok.1 h
    cases h
    exact .other rfl ((stillness.wide.stack_eq hw).trans ((stillness.wide.stack_eq hv).trans hr))
  · obtain ⟨v, r', hv, h⟩ := Fallible.bind_eq_ok.1 h
    cases h
    exact .other rfl (((stillness.maskedString _).stack_eq hv).trans hr)

theorem Claim.unclaimed {o : Constant Prototype} {d : Nat} (h : Claim s o d t) :
    s.unclaimed = o.child?.toList ++ t.unclaimed := by
  cases h with
  | other ho hs => simp [Session.unclaimed, ho, hs]
  | child hs => simp [Session.unclaimed, Constant.child?, hs]

/-- The objects of a pool take its children, the last one first. -/
theorem unclaimed_objectsFrom {pool objects : List (Constant Prototype)} {depth d n : Nat}
    (h : objectsFrom pool depth n s = .ok (objects, d) t) :
    ∃ added, objects = added ++ pool ∧
      s.unclaimed = (added.filterMap Constant.child?).reverse ++ t.unclaimed := by
  induction n generalizing pool depth s with
  | zero =>
    cases h
    exact ⟨[], rfl, rfl⟩
  | succ n ih =>
    obtain ⟨⟨o, d'⟩, r, ho, h⟩ := Fallible.bind_eq_ok.1 h
    obtain ⟨added, rfl, hr⟩ := ih h
    refine ⟨added ++ [o], by simp, ?_⟩
    rw [(claim_of_object ho).unclaimed, hr]
    cases hc : o.child? <;> simp [hc]

/-- A record takes its children from the top of the stack, the last one first. -/
theorem unclaimed_record {p : Prototype} {d : Nat} (h : record ctx s = .ok (p, d) t) :
    s.unclaimed = p.children.reverse ++ t.unclaimed := by
  obtain ⟨f, s₁, hf, h⟩ := Fallible.bind_eq_ok.1 h
  obtain ⟨c, -, rfl⟩ := Decoding.ofReading_eq_ok_iff.1 hf
  obtain ⟨⟨objects, depth⟩, s₂, ho, h⟩ := Fallible.bind_eq_ok.1 h
  obtain ⟨_, s₃, hnote, h⟩ := Fallible.bind_eq_ok.1 h
  cases hnote
  obtain ⟨debug, s₄, hd, h⟩ := Fallible.bind_eq_ok.1 h
  obtain ⟨c', -, rfl⟩ := Decoding.ofReading_eq_ok_iff.1 hd
  cases h
  obtain ⟨added, rfl, hs⟩ := unclaimed_objectsFrom ho
  simpa [Prototype.children, Front.prototype, Session.unclaimed] using hs

/-- A round that reads a record takes its children from the top of the stack. -/
theorem Round.unclaimed {p : Prototype} {d : Nat} (h : Round ctx s (some (p, d)) t) :
    s.unclaimed = p.children.reverse ++ t.unclaimed := by
  cases h with
  | record h hr hn =>
    have hs := unclaimed_record hr
    exact hs

/-- A round that stops leaves the stack as it is. -/
theorem Round.unclaimed_of_stop (h : Round ctx s none t) : t.unclaimed = s.unclaimed := by
  cases h with
  | stop h => rfl

/-! ## The forest of a run -/

/-- One more record goes to the end of the forest, with its children below it. -/
theorem Round.forest_push {p : Prototype} {d : Nat} (h : Round ctx s (some (p, d)) t) :
    (t.push p d).forest = s.forest ++ [p] := by
  have hs := h.unclaimed
  simp only [Session.forest, Session.unclaimed_push, hs, List.reverse_append, List.reverse_reverse,
    List.reverse_cons, List.flatMap_append, List.flatMap_cons, List.flatMap_nil,
    List.append_nil, p.postorder_eq_children, List.append_assoc]

/-- Between two records the stack holds exactly the records so far, in wire order. -/
theorem Steps.forest_eq {ps : List Prototype} (h : Steps (nextRecord ctx) s ps t) :
    t.forest = s.forest ++ ps := by
  induction h with
  | refl => simp
  | snoc _ hn ih =>
    rw [(nextRecord_eq_ok_iff.1 hn).forest_push, ih, List.append_assoc]

/-! ## Which record owns which

A record is known by its place on the wire.  Replaying the claims over places instead of prototypes
tells which places the child references of each record own. -/

/-- What has been claimed after some records: `own j` are the places that the children of record `j`
stand at, in addressing order, and no parent has claimed the places `free`, the latest first. -/
structure Claims (ps : List Prototype) (own : Nat → List Nat) (free : List Nat) : Prop where
  children {j : Nat} {p : Prototype} (h : ps[j]? = some p) :
    (own j).map (ps[·]?) = p.children.map some
  earlier {i j : Nat} (h : i ∈ own j) : i < j ∧ j < ps.length
  once : ((List.range ps.length).flatMap own ++ free).Perm (List.range ps.length)

namespace Claims

variable {ps qs rest : List Prototype} {p : Prototype} {own : Nat → List Nat} {free : List Nat}

theorem nil : Claims [] (fun _ ↦ []) [] := ⟨by simp, by simp, .refl _⟩

/-- Places that hold prototypes hold them still when more records follow. -/
theorem map_append (h : free.map (ps[·]?) = qs.map some) :
    free.map ((ps ++ rest)[·]?) = qs.map some := by
  rw [← h]
  apply List.map_congr_left
  intro i hi
  have hm : ps[i]? ∈ qs.map some := h ▸ List.mem_map_of_mem hi
  obtain ⟨q, -, hq⟩ := List.mem_map.1 hm
  obtain ⟨hl, -⟩ := List.getElem?_eq_some_iff.1 hq.symm
  exact List.getElem?_append_left hl

/-- A record claims the latest free places and is free itself. -/
theorem snoc (h : Claims ps own free)
    (hf : free.map (ps[·]?) = (p.children.reverse ++ rest).map some) :
    ∃ own' free', Claims (ps ++ [p]) own' free' ∧
      free'.map ((ps ++ [p])[·]?) = (p :: rest).map some := by
  rw [List.map_append] at hf
  obtain ⟨claimed, free', rfl, hclaimed, hfree'⟩ := List.map_eq_append_iff.1 hf
  have hlt : ∀ i ∈ claimed, i < ps.length := fun i hi ↦
    List.mem_range.1 (h.once.subset (by simp [hi]))
  have hold : (List.range ps.length).flatMap
      (fun j ↦ if j = ps.length then claimed.reverse else own j) =
        (List.range ps.length).flatMap own := by
    apply List.flatMap_congr
    intro j hj
    rw [if_neg (Nat.ne_of_lt (List.mem_range.1 hj))]
  refine ⟨fun j ↦ if j = ps.length then claimed.reverse else own j, ps.length :: free',
    ⟨?_, ?_, ?_⟩, ?_⟩
  · intro j q hj
    rcases Nat.lt_trichotomy j ps.length with hl | rfl | hl
    · rw [List.getElem?_append_left hl] at hj
      rw [if_neg (Nat.ne_of_lt hl)]
      exact map_append (h.children hj)
    · simp only [List.getElem?_concat_length, Option.some.injEq] at hj
      subst hj
      rw [if_pos rfl]
      refine map_append ?_
      rw [List.map_reverse, hclaimed]
      simp
    · rw [List.getElem?_eq_none (by simp; omega)] at hj
      cases hj
  · intro i j hi
    rw [List.length_append, List.length_singleton]
    by_cases hj : j = ps.length
    · rw [if_pos hj, List.mem_reverse] at hi
      have := hlt i hi
      omega
    · rw [if_neg hj] at hi
      have := h.earlier hi
      omega
  · rw [List.length_append, List.length_singleton, List.range_succ, List.flatMap_append, hold]
    have hm : ((List.range ps.length).flatMap own ++ claimed.reverse ++ free').Perm
        (List.range ps.length) := by
      refine .trans ?_ h.once
      rw [List.append_assoc]
      exact ((List.reverse_perm claimed).append_right free').append_left _
    calc
      _ = (List.range ps.length).flatMap own ++ claimed.reverse ++ ps.length :: free' := by simp
      List.Perm _ (ps.length :: ((List.range ps.length).flatMap own ++ claimed.reverse ++ free')) :=
        List.perm_middle
      List.Perm _ (ps.length :: List.range ps.length) := hm.cons _
      List.Perm _ _ := (List.perm_append_singleton _ _).symm
  · simp only [List.map_cons, List.getElem?_concat_length, List.cons.injEq, true_and]
    exact map_append hfree'

end Claims

/-- Along a run the stack holds the prototypes at the free places. -/
theorem Steps.claims {ps : List Prototype} (h : Steps (nextRecord ctx) s ps t)
    (hs : s.unclaimed = []) :
    ∃ own free, Claims ps own free ∧ free.map (ps[·]?) = t.unclaimed.map some := by
  induction h with
  | refl => exact ⟨_, [], .nil, by simp [hs]⟩
  | snoc _ hn ih =>
    obtain ⟨own, free, hc, hf⟩ := ih
    rw [(nextRecord_eq_ok_iff.1 hn).unclaimed] at hf
    exact hc.snoc hf

/-- Every child reference owns one earlier record, and every record but the last has one parent. -/
structure Ownership (ps : List Prototype) (own : Nat → List Nat) : Prop where
  /-- `own j` are the places of the records that the child references of record `j` own. -/
  children {j : Nat} {p : Prototype} (h : ps[j]? = some p) :
    (own j).map (ps[·]?) = p.children.map some
  earlier {i j : Nat} (h : i ∈ own j) : i < j ∧ j < ps.length
  /-- No two references of a record own the same place. -/
  nodup (j : Nat) : (own j).Nodup
  parent {i : Nat} (h : i + 1 < ps.length) : ∃! j, i ∈ own j

/-- When one prototype is left, every other record has been claimed once. -/
theorem Claims.ownership {ps : List Prototype} {own : Nat → List Nat} {i : Nat}
    (h : Claims ps own [i]) : Ownership ps own := by
  have hnodup := h.once.nodup_iff.2 List.nodup_range
  obtain ⟨hown, -, -⟩ := List.nodup_append.1 hnodup
  obtain ⟨heach, hdisjoint⟩ := List.nodup_flatMap.1 hown
  -- no record is claimed by a later one than the last, so the last is the free one
  have hlast : ∀ k, k + 1 < ps.length → k ≠ i := by
    rintro k hk rfl
    have hm : ps.length - 1 ∈ (List.range ps.length).flatMap own ++ [k] :=
      h.once.symm.subset (List.mem_range.2 (by omega))
    rcases List.mem_append.1 hm with hm | hm
    · obtain ⟨j, -, hj⟩ := List.mem_flatMap.1 hm
      have := h.earlier hj
      omega
    · have := List.mem_singleton.1 hm
      omega
  refine ⟨h.children, h.earlier, fun j ↦ ?_, fun {k} hk ↦ ?_⟩
  · by_cases hj : j < ps.length
    · exact heach j (List.mem_range.2 hj)
    · rw [List.eq_nil_iff_forall_not_mem.2 fun k hk ↦ hj (h.earlier hk).2]
      exact List.nodup_nil
  · have hm : k ∈ (List.range ps.length).flatMap own ++ [i] :=
      h.once.symm.subset (List.mem_range.2 (by omega))
    rcases List.mem_append.1 hm with hm | hm
    · obtain ⟨j, hj, hkj⟩ := List.mem_flatMap.1 hm
      refine ⟨j, hkj, fun j' hkj' ↦ ?_⟩
      by_contra hne
      have hj' := List.mem_range.2 (h.earlier hkj').2
      have : Std.Symm (Function.onFun List.Disjoint own) := ⟨fun _ _ h ↦ List.disjoint_symm h⟩
      exact hdisjoint.forall hj' hj hne hkj' hkj
    · exact absurd (List.mem_singleton.1 hm) (hlast k hk)

/-! ## Whole decodes -/

/-- A point of a decode between two records: the head gives the context, and `ps` are the records so
far, in wire order. -/
inductive Point (options : Options) (heap : Heap) (source : Source) (name : String) :
    Context → List Prototype → Session → Prop
  | mk {h : Header} {s t : Session} {ps : List Prototype}
      (hh : header options (Utf8.encode name) (.start heap source) = .ok h s)
      (hs : Steps (nextRecord (h.context options)) (s.opened h) ps t) :
      Point options heap source name (h.context options) ps t

variable {options : Options} {heap : Heap} {source : Source} {name : String}
variable {ps : List Prototype}

/-- The head of a container leaves the stack empty. -/
theorem unclaimed_header {h : Header} {bytes : Bytes}
    (hh : header options bytes (.start heap source) = .ok h s) : (s.opened h).unclaimed = [] := by
  have hs := (stillness.header trivial options bytes).stack_eq hh
  simp [Session.unclaimed, Session.opened, hs, Session.start]

theorem Point.forest_eq (h : Point options heap source name ctx ps t) : t.forest = ps := by
  cases h with
  | @mk h s t ps hh hs =>
    rw [hs.forest_eq, Session.forest, unclaimed_header hh]
    rfl

theorem Point.claims (h : Point options heap source name ctx ps t) :
    ∃ own free, Claims ps own free ∧ free.map (ps[·]?) = t.unclaimed.map some := by
  cases h with
  | mk hh hs => exact hs.claims (unclaimed_header hh)

/-- An accepted container leaves its root alone on the stack, where a round stops. -/
theorem exists_point {p : Prototype} (h : (decode options heap source name).result = .ok p) :
    ∃ ctx ps t, Point options heap source name ctx ps t ∧ (∃ r, nextRecord ctx t = .ok none r) ∧
      t.unclaimed = [p] := by
  obtain ⟨u, hu⟩ := Decoded.ofRun_eq_ok.1 h
  obtain ⟨hd, s₁, s₂, hh, hr, hroot⟩ := containerBy_eq_ok_iff.1 hu
  obtain ⟨ps, t, hs, hn, -⟩ := records_eq_ok_iff.1 hr
  obtain ⟨-, d, hd⟩ := of_root_eq_ok hroot
  refine ⟨_, ps, t, .mk hh hs, ⟨s₂, hn⟩, ?_⟩
  rw [← (nextRecord_eq_ok_iff.1 hn).unclaimed_of_stop, Session.unclaimed, hd]
  rfl

/-- Between two records the stack, from its bottom and in post-order, holds exactly the records so
far in wire order.  So the post-order of an accepted tree is the list of all records of its
container, of which each but the last has one parent. -/
theorem postorder_eq_wire_order (options : Options) (heap : Heap) (source : Source)
    (name : String) :
    (∀ ctx ps t, Point options heap source name ctx ps t → t.forest = ps) ∧
      ∀ p, (decode options heap source name).result = .ok p →
        ∃ ctx ps t, Point options heap source name ctx ps t ∧
          (∃ r, nextRecord ctx t = .ok none r) ∧ p.postorder = ps ∧
          ∃ own, Ownership ps own := by
  refine ⟨fun _ _ _ h ↦ h.forest_eq, fun p h ↦ ?_⟩
  obtain ⟨ctx, ps, t, hp, hn, hu⟩ := exists_point h
  refine ⟨ctx, ps, t, hp, hn, ?_, ?_⟩
  · have hf := hp.forest_eq
    simpa [Session.forest, hu] using hf
  · obtain ⟨own, free, hc, hf⟩ := hp.claims
    have hl := congrArg List.length hf
    simp only [hu, List.length_map, List.length_singleton] at hl
    obtain ⟨i, rfl⟩ := List.length_eq_one_iff.1 hl
    exact ⟨own, hc.ownership⟩

/-- A stripped container of an empty record and of its parent, which owns it. -/
theorem wire_order_of_child :
    ∃ p, (decode .default (.ofMask 0) (.ofBytes [0x1b, 0x4c, 0x4a, 2, 2, 7, 0, 0, 0, 0, 0, 0, 0,
        8, 0, 0, 0, 0, 0, 1, 0, 0, 0]) "a").result = .ok p ∧
      p.postorder.length = 2 ∧ ∃ own, Ownership p.postorder own := by
  have h : (decode .default (.ofMask 0) (.ofBytes [0x1b, 0x4c, 0x4a, 2, 2, 7, 0, 0, 0, 0, 0, 0, 0,
      8, 0, 0, 0, 0, 0, 1, 0, 0, 0]) "a").result.toOption.map (·.postorder.length) = some 2 := by
    decide +kernel
  obtain ⟨p, hp, hl⟩ := Option.map_eq_some_iff.1 h
  have hd := Decoded.result_eq_ok hp
  obtain ⟨_, _, _, -, -, rfl, hown⟩ := (postorder_eq_wire_order _ _ _ _).2 p hd
  exact ⟨p, hd, hl, hown⟩

end Container

end JitDump
