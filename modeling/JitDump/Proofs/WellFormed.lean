import JitDump.Proofs.Independence
import JitDump.Proofs.Returns

/-!
# Accepted trees are well-formed

Whatever a decode is given, the tree that it accepts is well-formed at every
level. Every prototype of the tree was returned by `record`, and every table in
it by `template` on a heap that came from the first one by interning alone; so
it is enough to know what these two return.
-/

namespace JitDump

open Container Fallible

/-! ## Tables -/

namespace Template

variable {k : Key} {v : Value} {t : Template}

/-- The key of a value is the key of the value that it stands for. -/
theorem Value.key?_toValue (h : v.key? = some k) : k.toValue.key? = some k := by
  cases v with
  | nil => cases h
  | num d =>
    rw [Value.key?] at h
    cases hd : d.toInt32? with
    | none =>
      simp only [hd, Option.some.injEq] at h
      subst h
      rw [Key.toValue, Value.key?, hd]
    | some i =>
      simp only [hd, Option.some.injEq] at h
      subst h
      rfl
  | _ => cases h; rfl

/-- The keys of the hash part, in the order of their first insertion. -/
def keys (t : Template) : List Key := t.hash.toList.map Prod.fst

/-- The hash part of a table as it is built: every key is one that a value is as an index, none
addresses the array part, and no two are the same. -/
structure Tidy (t : Template) : Prop where
  sound : t.hash.Sound
  key : ∀ k ∈ t.keys, k.toValue.key? = some k
  slot : ∀ k ∈ t.keys, k.arraySlot? t.array.size = none
  distinct : t.keys.Pairwise fun k l ↦ (k == l) = Bool.false

theorem tidy_of_array (values : Array Value) : (⟨values, .empty⟩ : Template).Tidy where
  sound := Pairs.sound_empty
  key := by simp [keys]
  slot := by simp [keys]
  distinct := .nil

/-- An insertion keeps the hash part tidy, whether the key addresses the array part, is known or is
new. -/
theorem Tidy.insert (ht : t.Tidy) (hk : k.toValue.key? = some k) (v : Value) :
    (t.insert k v).Tidy := by
  obtain ⟨values, pairs⟩ := t
  obtain ⟨hs, hkey, hslot, hd⟩ := ht
  simp only [keys] at hkey hslot hd
  simp only [Template.insert]
  cases hi : k.arraySlot? values.size with
  | some i =>
    refine ⟨hs, hkey, ?_, hd⟩
    rwa [Array.size_setIfInBounds]
  | none =>
    have hkeys := Pairs.keys_place k v pairs.toList
    cases hany : pairs.toList.any (·.1 == k) with
    | true =>
      rw [hany, if_pos rfl] at hkeys
      constructor
      case sound => exact hs.insert k v
      all_goals
        simp only [keys, hs.toList_insert, hkeys]
        assumption
    | false =>
      have hnew : ∀ l ∈ pairs.toList.map Prod.fst, (l == k) = Bool.false := by
        simpa using hany
      rw [hany, if_neg Bool.false_ne_true] at hkeys
      refine ⟨hs.insert k v, ?_, ?_, ?_⟩
      all_goals simp only [keys, hs.toList_insert, hkeys]
      · exact List.forall_mem_append.2 ⟨hkey, List.forall_mem_singleton.2 hk⟩
      · exact List.forall_mem_append.2 ⟨hslot, List.forall_mem_singleton.2 hi⟩
      · refine List.pairwise_append.2 ⟨hd, List.pairwise_singleton _ _, ?_⟩
        intro l hl k' hk'
        rw [List.mem_singleton.1 hk']
        exact hnew l hl

/-- What the hash part of a table never holds: an integer that addresses the array part, nil, a
double with the value of a 32-bit integer, the same key twice. -/
structure WellFormed (t : Template) : Prop where
  slot : ∀ i : Int32, .int i ∈ t.keys → ¬ (0 ≤ i.toInt ∧ i.toInt < t.array.size)
  nil : ∀ k ∈ t.keys, k.toValue ≠ .nil
  float : ∀ d, .num d ∈ t.keys → ∀ n, d.toInt? = some n → ¬ (-2 ^ 31 ≤ n ∧ n < 2 ^ 31)
  distinct : t.keys.Pairwise fun k l ↦ (k == l) = Bool.false

theorem Tidy.wellFormed (ht : t.Tidy) : t.WellFormed where
  slot i hi := by
    rintro ⟨h0, hlt⟩
    obtain ⟨n, hn⟩ := Int.eq_ofNat_of_zero_le h0
    have hslot := ht.slot _ hi
    simp only [Key.arraySlot?, hn] at hslot
    rw [hn] at hlt
    rw [if_pos (Int.ofNat_lt.1 hlt)] at hslot
    cases hslot
  nil k _ := by cases k <;> simp [Key.toValue]
  float d hd n hn := by
    rintro ⟨h0, hlt⟩
    have hkey := ht.key _ hd
    have hi : d.toInt32? = some (Int32.ofInt n) := by
      rw [Double.toInt32?, hn, Option.bind_some, if_pos ⟨h0, hlt⟩]
    rw [Key.toValue, Value.key?, hi] at hkey
    cases hkey
  distinct := ht.distinct

end Template

namespace Container

theorem returns_templatePairs {u : Template} (hu : u.Tidy) (n : Nat) :
    Returns (templatePairs u n) Template.Tidy := by
  induction n generalizing u with
  | zero => exact returns_pure hu
  | succ n ih =>
    have hpair : Returns (templatePair u) Template.Tidy := by
      refine returns_bind fun start ↦ returns_bind fun v ↦ ?_
      cases hv : v.key? with
      | none => exact returns_failAt _ _
      | some k => exact returns_bind fun w ↦ returns_pure (hu.insert (v.key?_toValue hv) w)
    exact hpair.bind fun t ht ↦ ih ht

theorem returns_template : Returns template Template.Tidy :=
  returns_bind fun _ ↦ returns_bind fun _ ↦ returns_bind fun values ↦
    returns_templatePairs (Template.tidy_of_array values.toArray) _

/-! ## Where tables are read -/

variable {ctx : Context} {s t r : Session} {u : Template}

/-- A table was read on a heap that is sound if `h` is. -/
def ReadFrom (h : Heap) (u : Template) : Prop :=
  ∃ s t, template s = .ok u t ∧ (h.Sound → s.heap.Sound)

theorem ReadFrom.of_sound {g h : Heap} (hu : ReadFrom h u) (hg : g.Sound → h.Sound) :
    ReadFrom g u := by
  obtain ⟨s, t, ht, hs⟩ := hu
  exact ⟨s, t, ht, fun hg' ↦ hs (hg hg')⟩

theorem readFrom_of_object {d : Nat} (h : object s = .ok (.table u, d) t) : ReadFrom s.heap u := by
  obtain ⟨start, _, hp, h⟩ := bind_eq_ok.1 h
  cases hp
  obtain ⟨kind, _, hk, h⟩ := bind_eq_ok.1 h
  obtain ⟨c, -, rfl⟩ := Decoding.ofReading_eq_ok_iff.1 hk
  split at h
  · obtain ⟨top, _, -, h⟩ := bind_eq_ok.1 h
    split at h
    · cases h
    · split at h <;> cases h
  · obtain ⟨u', _, hu, h⟩ := bind_eq_ok.1 h
    cases h
    exact ⟨_, _, hu, id⟩
  · obtain ⟨_, _, -, h⟩ := bind_eq_ok.1 h
    cases h
  · obtain ⟨_, _, -, h⟩ := bind_eq_ok.1 h
    cases h
  · obtain ⟨_, _, -, h⟩ := bind_eq_ok.1 h
    obtain ⟨_, _, -, h⟩ := bind_eq_ok.1 h
    cases h
  · obtain ⟨_, _, -, h⟩ := bind_eq_ok.1 h
    cases h

theorem readFrom_of_objectsFrom {pool objects : List (Constant Prototype)} {depth d n : Nat}
    (h : objectsFrom pool depth n s = .ok (objects, d) t) (hu : .table u ∈ objects) :
    .table u ∈ pool ∨ ReadFrom s.heap u := by
  induction n generalizing pool depth s with
  | zero =>
    cases h
    exact .inl hu
  | succ n ih =>
    obtain ⟨⟨o, d'⟩, r, ho, h⟩ := bind_eq_ok.1 h
    rcases ih h with hm | hr
    · rcases List.mem_cons.1 hm with rfl | hm
      · exact .inr (readFrom_of_object ho)
      · exact .inl hm
    · exact .inr (hr.of_sound (soundness.object.of_eq_ok ho))

/-! ## One record -/

/-- Debug info as a prototype of an accepted tree carries it. -/
structure WellFormedDebug (ctx : Context) (p : Prototype) (d : DebugInfo) : Prop where
  unstripped : ctx.flags.isStripped = false
  allowed : ctx.options.allowDebugInfo = true
  lines : d.lines.length = p.instructions.tail.length
  upvalueNames : d.upvalueNames.length = p.upvalues.length
  names : ∀ name ∈ d.upvalueNames, 0 ∉ name
  size : d.size.toNat = DebugBlock.lineWidth d.lineCount * d.lines.length +
    (d.upvalueNames.map (·.length + 1)).sum + d.variableInfo.length

/-- What is known of every prototype of an accepted tree whose records share `ctx`. -/
structure WellFormed (ctx : Context) (p : Prototype) : Prop where
  /-- The first instruction is the entry, which tells the variadic functions from the others. -/
  entry : ∃ i code, p.instructions = i :: code ∧
    i.op = (if p.isVariadic then Opcode.variadicEntry else Opcode.fixedEntry) ∧
    i.a = p.frameSize ∧ i.d = 0
  opcodes : ∀ i ∈ p.instructions.tail, i.op.toNat < 97
  upvalues : p.upvalues.length = p.upvalueCount.toNat ∧ p.upvalueCount.toNat ≤ 255
  tables : ∀ t, .table t ∈ p.objects → t.WellFormed
  debug : ∀ d ∈ p.debug, WellFormedDebug ctx p d
  chunkName : p.chunkName = ctx.chunkName

/-- The parts that a record returns make a prototype. -/
theorem Front.Checked.wellFormed {f : Front} (hf : f.Checked ctx)
    {objects : List (Constant Prototype)} {debug : Option DebugInfo}
    (ht : ∀ t, .table t ∈ objects → t.WellFormed) (hd : ∀ d ∈ debug, f.Carries ctx d) :
    WellFormed ctx (f.prototype objects debug ctx.chunkName) where
  entry := by
    refine ⟨_, _, rfl, ?_⟩
    rw [Instruction.entry_eq_ofABC]
    exact ⟨Instruction.op_ofABC .., Instruction.a_ofABC .., Instruction.d_ofABC_zero ..⟩
  opcodes := hf.opcodes
  upvalues := by
    show f.upvalues.length = f.head.upvalueCount.toUInt16.toNat ∧
      f.head.upvalueCount.toUInt16.toNat ≤ 255
    rw [UInt8.toNat_toUInt16]
    exact ⟨hf.length_upvalues, Nat.le_of_lt_succ f.head.upvalueCount.toNat_lt⟩
  tables := ht
  debug d hm := by
    obtain ⟨hs, ha, hc⟩ := hd d hm
    refine ⟨hs, ha, hc.lineEntries, hc.upvalueNames, hc.names, ?_⟩
    rw [hc.size, DebugBlock.length_encode]
  chunkName := rfl

theorem of_record_eq_ok {p : Prototype} {d : Nat} (h : record ctx s = .ok (p, d) t) :
    WellFormed ctx p ∧ ∀ u, .table u ∈ p.objects → ReadFrom s.heap u := by
  obtain ⟨f, s₁, hf, h⟩ := bind_eq_ok.1 h
  obtain ⟨⟨objects, depth⟩, s₂, ho, h⟩ := bind_eq_ok.1 h
  obtain ⟨_, s₃, -, h⟩ := bind_eq_ok.1 h
  obtain ⟨debug, s₄, hd, h⟩ := bind_eq_ok.1 h
  cases h
  have hfront := Decoding.returns_ofReading (returns_front ctx) _ _ _ hf
  have hdebug := Decoding.returns_ofReading (returns_debugInfo hfront) _ _ _ hd
  obtain ⟨c, -, rfl⟩ := Decoding.ofReading_eq_ok_iff.1 hf
  have hread : ∀ u, .table u ∈ objects → ReadFrom s.heap u := fun u hu ↦
    (readFrom_of_objectsFrom ho hu).resolve_left List.not_mem_nil
  refine ⟨hfront.wellFormed (fun u hu ↦ ?_) hdebug, hread⟩
  obtain ⟨_, _, ht, -⟩ := hread u hu
  exact (returns_template _ _ _ ht).wellFormed

/-- Keys that a sound heap tells apart have different content. A table is its own twin, so the heap
that it was read on holds its keys. -/
theorem ReadFrom.distinct {h : Heap} (hu : ReadFrom h u) (hs : h.Sound) :
    u.keys.Pairwise fun k l ↦ ¬ k.toValue.Alike l.toValue := by
  obtain ⟨s, t, ht, hsound⟩ := hu
  have hagree := together_template (Session.twin_self (hsound hs))
  rw [ht] at hagree
  obtain ⟨hst, -, -, hv⟩ | _ := hagree
  have hheld : ∀ k ∈ u.keys, k.toValue.HeldBy t.heap := by
    intro k hk
    obtain ⟨item, hi, rfl⟩ := List.mem_map.1 hk
    exact (List.forall₂_same.1 hv.hash item hi).1.left
  have hdistinct := (returns_template _ _ _ ht).distinct
  refine hdistinct.imp_of_mem fun {k l} hk hl hne halike ↦ ?_
  rw [Template.Key.beq_of_alike hst.left (hheld k hk) (hheld l hl) halike] at hne
  cases hne

/-! ## Whole trees -/

/-- Every prototype of a run was returned by `record`, on a heap that is sound if the first one
was. -/
theorem Steps.exists_record {ps : List Prototype} (h : Steps (nextRecord ctx) s ps t) :
    (s.heap.Sound → t.heap.Sound) ∧ ∀ p ∈ ps, ∃ r d r', record ctx r = .ok (p, d) r' ∧
      (s.heap.Sound → r.heap.Sound) := by
  induction h with
  | refl => exact ⟨id, by simp⟩
  | @snoc ps t r p d _ hn ih =>
    have hsound (hs : s.heap.Sound) : r.heap.Sound :=
      (soundness.nextRecord trivial (fun _ _ h ↦ h) ctx).of_eq_ok hn (ih.1 hs)
    refine ⟨hsound, List.forall_mem_append.2 ⟨ih.2, ?_⟩⟩
    rw [List.forall_mem_singleton]
    cases nextRecord_eq_ok_iff.1 hn with
    | record _ hr _ => exact ⟨_, _, _, hr, ih.1⟩

variable {options : Options} {heap : Heap} {source : Source} {name : String} {p : Prototype}

/-- Every tree that a decode accepts is well-formed at every level, and its prototypes share one
chunk name. On a heap that has served a host, no two keys of a table have the same content. -/
theorem wellFormed_of_decode (h : (decode options heap source name).result = .ok p) :
    ∃ head t, header options (Utf8.encode name) (.start heap source) = .ok head t ∧
      ∀ q ∈ p.postorder, WellFormed (head.context options) q ∧
        (heap.Serving → ∀ u, .table u ∈ q.objects →
          u.keys.Pairwise fun k l ↦ ¬ k.toValue.Alike l.toValue) := by
  obtain ⟨_, ps, t, hp, -, hu⟩ := exists_point h
  have hps : p.postorder = ps := by
    have hf := hp.forest_eq
    simpa [Session.forest, hu] using hf
  cases hp with
  | @mk head s _ _ hh hsteps =>
  refine ⟨head, s, hh, fun q hq ↦ ?_⟩
  obtain ⟨r, d, r', hr, hsound⟩ := hsteps.exists_record.2 q (hps ▸ hq)
  obtain ⟨hwf, hread⟩ := of_record_eq_ok hr
  refine ⟨hwf, fun hserving u hmem ↦ (hread u hmem).distinct (hsound ?_)⟩
  show s.heap.Sound
  exact (soundness.header trivial options _).of_eq_ok hh hserving.reachable.sound

/-- A container of one variadic function with debug info, an upvalue and a table. -/
def annotated : Bytes :=
  [0x1b, 0x4c, 0x4a, 2, 0, 1, 0x6d, 28, 2, 0, 2, 1, 0, 1, 1, 4, 1, 3, 0, 0xff, 0, 0, 1, 0,
    1, 1, 1, 3, 7, 6, 0x94, 2, 1, 0x75, 0, 9, 0]

theorem wellFormed_of_annotated : ∃ p ctx,
    (decode ⟨true, true⟩ .new (.ofBytes annotated) "a").result = .ok p ∧
      p.debug.isSome = true ∧ p.objects.length = 1 ∧ WellFormed ctx p := by
  have h : (decode ⟨true, true⟩ .new (.ofBytes annotated) "a").result.toOption.map
      (fun p ↦ (p.debug.isSome, p.objects.length)) = some (true, 1) := by
    decide +kernel
  obtain ⟨p, hp, heq⟩ := Option.map_eq_some_iff.1 h
  obtain ⟨hdebug, hobjects⟩ := Prod.mk.inj heq
  have hd := Decoded.result_eq_ok hp
  obtain ⟨head, -, -, hall⟩ := wellFormed_of_decode hd
  exact ⟨p, _, hd, hdebug, hobjects, (hall p p.mem_postorder_self).1⟩

end Container

end JitDump
