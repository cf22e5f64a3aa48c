import JitDump.Proofs.Verdicts

/-!
# How deep a stack nests

A decode never looks into the trees on its stack: it keeps a depth beside each of
them and adds up depths as children are claimed.  That depth is always the height
of the tree, so the limit on it is a limit on trees, and exact: a decode is turned
away for nesting where it refers to a tree that is as high as a tree may be, and
nowhere else.
-/

namespace JitDump

theorem Cursor.shortage_ne_nestingTooDeep (c : Cursor) (n levels : Nat) :
    c.shortage n ≠ .nestingTooDeep levels := by
  rw [shortage]
  split
  · exact Fault.noConfusion
  · split <;> exact Fault.noConfusion

namespace Container

open Fallible

variable {ctx : Context} {s t : Session}

/-! ## Depths are heights -/

/-- The depth beside each tree on the stack is its height, and within the limit. -/
def Session.Measured (s : Session) : Prop :=
  ∀ top ∈ s.stack, top.2 = top.1.height ∧ top.2 ≤ maxNesting

/-- Claiming a child brings one more level than the child has, any other object none. -/
theorem Claim.measured {o : Constant Prototype} {d : Nat} (h : Claim s o d t) (hs : s.Measured) :
    t.Measured ∧ d = o.depth ∧ d ≤ maxNesting := by
  cases h with
  | other ho hstack =>
    refine ⟨fun top ht ↦ hs top (hstack ▸ ht), ?_, Nat.zero_le _⟩
    cases o with
    | child p => cases ho
    | _ => rw [Constant.depth]
  | @child p d _ hstack hd =>
    have htop : d = p.height := (hs (p, d) (hstack ▸ List.mem_cons_self ..)).1
    refine ⟨fun top ht ↦ hs top (hstack ▸ List.mem_cons_of_mem _ ht), ?_, hd⟩
    rw [Constant.depth, htop]

/-- The running maximum over the objects of a pool is how deep the pool nests. -/
theorem Objects.measured {pool : List (Constant Prototype)} {depth : Nat}
    (h : Objects s pool depth t) (hs : s.Measured) :
    t.Measured ∧ depth = Constant.nesting pool ∧ depth ≤ maxNesting := by
  induction h with
  | nil =>
    refine ⟨hs, ?_, Nat.zero_le _⟩
    rw [Constant.nesting]
  | cons _ ho ih =>
    obtain ⟨ht, hdepth, hle⟩ := ih
    obtain ⟨hr, hd, hle'⟩ := (claim_of_object ho).measured ht
    refine ⟨hr, ?_, Nat.max_le.2 ⟨hle, hle'⟩⟩
    rw [Constant.nesting, hdepth, hd, Nat.max_comm]

/-- What a record brings with its prototype is the height of the tree. -/
theorem measured_of_record {p : Prototype} {d : Nat} (h : record ctx s = .ok (p, d) t)
    (hs : s.Measured) : t.Measured ∧ d = p.height ∧ d ≤ maxNesting := by
  obtain ⟨f, c, pool, t', debug, c', -, ho, -, -, rfl, rfl⟩ := record_eq_ok_iff.1 h
  obtain ⟨ht, hd, hle⟩ := ho.measured hs
  refine ⟨ht, ?_, hle⟩
  rw [Prototype.height_eq, hd]
  rfl

theorem Round.measured {p : Prototype} {d : Nat} (h : Round ctx s (some (p, d)) t)
    (hs : s.Measured) : (t.push p d).Measured := by
  cases h with
  | record hl hr hn =>
    obtain ⟨ht, hd⟩ := measured_of_record hr hs
    exact List.forall_mem_cons.2 ⟨hd, ht⟩

theorem Steps.measured {ps : List Prototype} (h : Steps (nextRecord ctx) s ps t)
    (hs : s.Measured) : t.Measured := by
  induction h with
  | refl => exact hs
  | snoc _ hn ih => exact (nextRecord_eq_ok_iff.1 hn).measured ih

/-! ## Every place of a decode -/

variable {options : Options} {heap : Heap} {source : Source} {name : String}

theorem Point.measured {ps : List Prototype} (hp : Point options heap source name ctx ps t) :
    t.Measured := by
  cases hp with
  | @mk h s t ps hh hs =>
    have hempty : (s.opened h).stack = [] := List.map_eq_nil_iff.1 (unclaimed_header hh)
    refine hs.measured fun top ht ↦ ?_
    rw [hempty] at ht
    cases ht

theorem AtRecord.measured {n : Nat} (ha : AtRecord options heap source name ctx n s) :
    s.Measured := by
  cases ha with
  | mk hp hl => exact hp.measured

theorem Amid.measured {f : Front} {left : Nat} (ha : Amid options heap source name ctx f left t) :
    t.Measured := by
  cases ha with
  | mk ha hf ho hl => exact (ho.measured ha.measured).1

theorem height_le_of_decode {p : Prototype}
    (h : (decode options heap source name).result = .ok p) : p.height ≤ maxNesting := by
  obtain ⟨ctx, ps, t, hp, -, hu⟩ := exists_point h
  obtain ⟨⟨q, d⟩, hstack, hq⟩ := List.map_eq_singleton_iff.1 hu
  obtain ⟨hd, hle⟩ := hp.measured (q, d) (hstack ▸ List.mem_singleton_self _)
  have hheight : d = p.height := hq ▸ hd
  rwa [← hheight]

/-! ## Where nesting is refused -/

/-- The next object refers to a child, and `p` is the tree that it takes. -/
def Session.Refers (s : Session) (p : Prototype) : Prop := s.AtChild ∧ s.unclaimed.head? = some p

/-- On a measured stack a reference is refused for its nesting exactly when the tree that it takes
is as high as a tree may be. -/
theorem Session.Refers.fails_iff {p : Prototype} (h : s.Refers p) (hs : s.Measured) {e : Failure} :
    Fails object s e ↔
      p.height = maxNesting ∧ e = s.cursor.failure (.nestingTooDeep (maxNesting + 1)) := by
  obtain ⟨hchild, hp⟩ := h
  obtain ⟨⟨q, d⟩, stack, hstack⟩ : ∃ top stack, s.stack = top :: stack := by
    refine List.exists_cons_of_ne_nil fun hnil ↦ ?_
    rw [unclaimed, hnil] at hp
    cases hp
  obtain ⟨hd, hle⟩ := hs (q, d) (hstack ▸ List.mem_cons_self ..)
  have hq : q = p := by
    rw [unclaimed, hstack] at hp
    exact Option.some.inj hp
  subst hq
  dsimp only at hd hle
  rw [fails_object_iff_of_child hchild, hstack]
  constructor
  · rintro (⟨⟨⟩, -⟩ | ⟨top, stack', heq, hlt, rfl⟩)
    cases heq
    have hmax : d = maxNesting := Nat.le_antisymm hle (Nat.lt_succ_iff.1 hlt)
    exact ⟨hd.symm.trans hmax, by rw [← hmax]⟩
  · rintro ⟨hheight, rfl⟩
    have hmax : d = maxNesting := hd.trans hheight
    exact .inr ⟨(q, d), stack, rfl, by omega, by rw [← hmax]⟩

/-- No other reference is refused for nesting. -/
theorem Session.AtChild.of_fails (h : s.AtChild) (hs : s.Measured) {e : Failure} {levels : Nat}
    (he : Fails object s e) (hlevels : e.fault = .nestingTooDeep levels) :
    levels = maxNesting + 1 ∧ e.offset = s.cursor.position ∧
      ∃ p, s.Refers p ∧ p.height = maxNesting := by
  cases hu : s.unclaimed.head? with
  | none =>
    -- nothing is there to be taken, which is another fault
    rw [unclaimed, List.head?_eq_none_iff, List.map_eq_nil_iff] at hu
    rw [fails_object_iff_of_child h, hu] at he
    rcases he with ⟨-, rfl⟩ | ⟨_, _, ⟨⟩, -⟩
    cases hlevels
  | some p =>
    have hp : s.Refers p := ⟨h, hu⟩
    obtain ⟨hh, rfl⟩ := (hp.fails_iff hs).1 he
    cases hlevels
    exact ⟨rfl, rfl, p, hp, hh⟩

/-- A place of a decode, at an offset of its source, where the next object refers to a tree that is
as high as a tree may be. -/
inductive DeepReference (options : Options) (heap : Heap) (source : Source) (name : String)
    (i : Nat) : Prop
  | mk {ctx : Context} {f : Front} {left : Nat} {t : Session} {p : Prototype}
      (ha : Amid options heap source name ctx f (left + 1) t) (hi : t.cursor.position = i)
      (hp : t.Refers p) (hh : p.height = maxNesting)

/-- A failure for nesting is told of a reference to a highest tree; nothing is said of others. -/
def nestingVerdict (options : Options) (heap : Heap) (source : Source) (name : String) :
    Verdict options heap source name where
  within _ := True
  holds e := ∀ levels, e.fault = .nestingTooDeep levels →
    levels = maxNesting + 1 ∧ DeepReference options heap source name e.offset
  start := trivial
  advance _ _ := trivial
  short _ n levels h := absurd h (Cursor.shortage_ne_nestingTooDeep _ n levels)
  badMagic := nofun
  badFlags _ _ := nofun
  unexpectedDebugInfo _ _ _ := nofun
  badOpcode _ _ _ _ := nofun
  invalidKey _ _ := nofun
  child ha _ hc he levels hlevels := by
    obtain ⟨rfl, hi, p, hp, hh⟩ := hc.of_fails ha.measured he hlevels
    exact ⟨rfl, .mk ha hi.symm hp hh⟩
  lengthMismatch _ _ _ _ := nofun
  unsplit _ _ _ _ _ := nofun
  trailingData _ _ _ := nofun

/-- Nesting is bounded exactly.  At every place of a decode, between two records and amid the
objects of one, the stack keeps the height of each of its trees, which is within the limit; so
accepted trees are.  A reference to a child is refused for its nesting exactly when the tree that it
takes is as high as a tree may be, and a decode fails for nesting exactly at such a reference, with
one level more than the limit. -/
theorem nesting_bounded_exactly (options : Options) (heap : Heap) (source : Source)
    (name : String) :
    (∀ ctx ps t, Point options heap source name ctx ps t → t.Measured) ∧
    (∀ ctx f left t, Amid options heap source name ctx f left t → t.Measured) ∧
    (∀ p, (decode options heap source name).result = .ok p → p.height ≤ maxNesting) ∧
    (∀ ctx f left t p, Amid options heap source name ctx f (left + 1) t → t.Refers p →
      ∀ e, Fails object t e ↔
        p.height = maxNesting ∧ e = t.cursor.failure (.nestingTooDeep (maxNesting + 1))) ∧
    ∀ i levels, (decode options heap source name).result =
        .error ⟨chunkDisplayName name, i, .nestingTooDeep levels⟩ ↔
      levels = maxNesting + 1 ∧ DeepReference options heap source name i := by
  refine ⟨fun _ _ _ hp ↦ hp.measured, fun _ _ _ _ ha ↦ ha.measured, fun _ h ↦ height_le_of_decode h,
    fun _ _ _ _ _ ha hp _ ↦ hp.fails_iff ha.measured, fun i levels ↦ ⟨fun h ↦ ?_, ?_⟩⟩
  · obtain ⟨⟨chunk, i', fault⟩, hv, heq⟩ :=
      (nestingVerdict options heap source name).of_decode h
    cases heq
    exact hv levels rfl
  · rintro ⟨rfl, ha, rfl, hp, hh⟩
    have hfails := (hp.fails_iff ha.measured).2 ⟨hh, rfl⟩
    exact decode_eq_error_iff.2 ⟨_, .object ha hfails, rfl⟩

end Container

end JitDump
