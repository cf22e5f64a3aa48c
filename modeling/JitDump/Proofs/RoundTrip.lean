import JitDump.Proofs.Heads
import JitDump.Proofs.Refusals

/-!
# Decoding undoes encoding

The container of a canonical tree is decoded to the tree, but for the identity of
its strings, as long as the tree nests no deeper than a decode allows; a deeper one
is refused for its nesting.
-/

namespace JitDump.Container

open Cursor Decoding

variable {f : Flags} {options : Options} {p : Prototype} {s : Session} {c : Cursor} {rest : Bytes}

/-! ## Whole containers -/

variable {heap : Heap} {source : Source}

/-- The end mark stops a round. -/
theorem nextRecord_eq_stop (ctx : Context) (hc : s.cursor.closing = .finished)
    (hp : s.cursor.pending = [0]) :
    ∃ c, nextRecord ctx s = .ok none { s with cursor := c } ∧ s.cursor.Advances [0] c := by
  rw [← List.append_nil [0]] at hp
  obtain ⟨c, hl, ha⟩ := nextLength_eq_ok hc hp (.last rfl) (by decide)
    (by simp [announcedLength_zero])
  rw [announcedLength_zero] at hl
  exact ⟨c, nextRecord_eq_ok_iff.2 (.stop hl), ha⟩

theorem faces_start {u : Bytes} (hheap : heap.Reachable) (hs : source.delivered = u)
    (hc : source.closing = .finished) : (Session.start heap source).Faces u where
  pending := hs
  closing := hc
  shallow := shallow_ofSource source
  heap := hheap.sound

/-- The head of the container of a tree is read, and the records of the tree come next. -/
theorem exists_opened (name : String) (h : CanonicalTree f options p)
    (hname : f.isStripped = false → p.chunkName.bytes.length ≤ maxBuffer)
    (hf : (Session.start heap source).Faces (encode f p)) :
    ∃ head t, header options (Utf8.encode name) (.start heap source) = .ok head t ∧
      head.flags = f ∧ head.chunkName.bytes = givenName f p.chunkName.bytes (Utf8.encode name) ∧
      (t.opened head).Faces (Encode.records f p.postorder ++ [0]) ∧ t.stack = [] := by
  rw [encode, List.append_assoc] at hf
  obtain ⟨head, t, hhead, rfl, hgiven, hf', hstack⟩ :=
    header_eq_ok (Utf8.encode name) h.accepted hname hf
  exact ⟨head, t, hhead, rfl, hgiven, ⟨hf'.pending, hf'.closing, hf'.shallow, hf'.heap⟩, hstack⟩

theorem decode_encode_of_fits (name : String) (h : CanonicalTree f options p)
    (hfits : FitsBuffer f p) (hd : p.height ≤ maxNesting)
    (hf : (Session.start heap source).Faces (encode f p)) :
    ∃ q, (decode options heap source name).result = .ok q ∧
      p.Alike (fun _ given ↦ given.bytes = givenName f p.chunkName.bytes (Utf8.encode name)) q := by
  obtain ⟨head, s₁, hhead, rfl, hname, hf₁, hstack⟩ := exists_opened name h hfits.chunkName hf
  have haccept : Acceptable (head.context options) p :=
    ⟨fun q hq ↦ CanonicalTree.readable h hq (hfits.records q hq), hd⟩
  obtain ⟨top, s₂, hpiles, hfin⟩ := readsBack (N := fun _ given ↦ given.bytes =
    givenName head.flags p.chunkName.bytes (Utf8.encode name)) haccept (fun _ ↦ hname) _ _ hf₁
  have hf₂ := hpiles.faces hf₁
  obtain ⟨c, hstop, ha⟩ := nextRecord_eq_stop (head.context options) hf₂.closing hf₂.pending
  have hp : c.pending = [] := ha.pending_of_append hf₂.pending
  obtain ⟨ps, hps⟩ := hpiles.steps
  have hrecords := records_eq_ok_iff.2 ⟨ps, s₂, hps, hstop, hps.length_lt_rounds⟩
  obtain ⟨c', hroot⟩ := root_eq_ok (s := { s₂ with cursor := c }) (p := top.1) (d := top.2)
    (ha.closing.trans hf₂.closing) hp (by rw [hpiles.stack, Session.opened, hstack]; rfl)
  refine ⟨top.1, ?_, hfin.1⟩
  exact Decoded.ofRun_eq_ok.2 ⟨_, containerBy_eq_ok_iff.2 ⟨head, s₁, _, hhead, hrecords, hroot⟩⟩

/-- What keeps a decode from taking the container of a tree, as the fault that it then reports. -/
inductive Obstacle (f : Flags) (p : Prototype) : Fault → Prop
  | nesting (h : maxNesting < p.height) : Obstacle f p (.nestingTooDeep (maxNesting + 1))
  | record {q : Prototype} (hq : q ∈ p.postorder)
      (h : maxBuffer < (Encode.record f q).length) :
      Obstacle f p (.bufferLimit (Encode.record f q).length)
  | chunkName (hs : f.isStripped = false) (h : maxBuffer < p.chunkName.bytes.length) :
      Obstacle f p (.bufferLimit p.chunkName.bytes.length)

theorem decode_encode_of_obstacle (name : String) (h : CanonicalTree f options p)
    (hannounced : Announced f p) (hbad : ¬ (FitsBuffer f p ∧ p.height ≤ maxNesting))
    (hf : (Session.start heap source).Faces (encode f p)) :
    ∃ e, (decode options heap source name).result = .error e ∧ Obstacle f p e.fault := by
  by_cases hname : f.isStripped = false ∧ maxBuffer < p.chunkName.bytes.length
  · obtain ⟨hs, hlong⟩ := hname
    rw [encode, List.append_assoc] at hf
    obtain ⟨e, t, he, hfault⟩ := header_eq_bufferLimit (Utf8.encode name) h.accepted hs hlong
      (hannounced.chunkName hs) hf
    refine ⟨_, Decoded.ofRun_eq_error (containerBy_eq_error_of_header he), ?_⟩
    exact hfault ▸ .chunkName hs hlong
  · have hfits : f.isStripped = false → p.chunkName.bytes.length ≤ maxBuffer := fun hs ↦
      Nat.not_lt.1 fun hlong ↦ hname ⟨hs, hlong⟩
    obtain ⟨head, s₁, hhead, rfl, -, hf₁, -⟩ := exists_opened name h hfits hf
    have hnot : ¬ Acceptable (head.context options) p := fun ha ↦
      hbad ⟨⟨fun q hq ↦ (ha.readable q hq).fits, hfits⟩, ha.height⟩
    have hrefuses : Refuses (head.context options) (s₁.opened head) (Obstacle head.flags p) :=
      refuses_tree hnot (fun q hq ↦ CanonicalTree.readable h hq) hannounced.records
        (fun q hq ↦ .record hq) .nesting hf₁
    obtain ⟨ps, t, e, r, hps, he, hfault⟩ := hrefuses
    have hrecords := hps.records_eq_error he hps.length_lt_rounds
    exact ⟨_, Decoded.ofRun_eq_error (containerBy_eq_error hhead hrecords), hfault⟩

/-! ## Small trees, deep ones and long ones -/

/-- A function of no code that has a name and some objects. -/
def holder (name : Str) (objects : List (Constant Prototype)) : Prototype :=
  ⟨0, 0, 0, 0, [.entry false 0], [], [], objects, none, name⟩

variable {name : Str} {objects : List (Constant Prototype)}

theorem postorder_holder (h : ∀ q, .child q ∉ objects) :
    (holder name objects).postorder = [holder name objects] := by
  have hc : (holder name objects).children = [] :=
    List.eq_nil_iff_forall_not_mem.2 fun q hq ↦ h q (Prototype.mem_children.1 hq)
  rw [Prototype.postorder_eq_children, hc]
  rfl

theorem canonical_holder (f : Flags) (h : ∀ t, .table t ∈ objects → t.Canonical) :
    Canonical f (holder name objects) where
  entry := by
    have hv : Prototype.hasFlag 0 Prototype.variadicFlag = false := by decide
    exact ⟨[], by rw [Prototype.isVariadic, holder, hv]⟩
  opcodes := by simp [holder]
  upvalueCount := rfl
  upvalues := Nat.zero_le _
  tables := h
  debug := by simp [holder]

/-- A tree of such functions is canonical if its tables are. -/
theorem canonicalTree_of_holder (hf : f.accepted .default) (h : ∀ q ∈ p.postorder,
    ∃ name objects, q = holder name objects ∧ ∀ t, .table t ∈ objects → t.Canonical) :
    CanonicalTree f .default p where
  accepted := hf
  prototypes q hq := by
    obtain ⟨name, objects, rfl, ht⟩ := h q hq
    exact canonical_holder f ht
  debug q hq hd := by
    obtain ⟨name, objects, rfl, -⟩ := h q hq
    cases hd

theorem length_record_holder (f : Flags) (h : objects.length < 128) :
    (Encode.record f (holder name objects)).length ≤
      8 + (objects.reverse.flatMap Encode.object).length := by
  have hzero : (Varint.encodeNat 0).length ≤ 1 := Varint.length_encodeNat_le (by decide)
  have hcount : (Varint.encodeNat objects.length).length ≤ 1 := Varint.length_encodeNat_le h
  have hdebug : (if f.isStripped then [] else Encode.debugHeader none).length ≤ 1 := by
    split <;> simp [Encode.debugHeader]
  simp only [Encode.record, Encode.front, holder, RecordHead.chain, List.length_append,
    Encode.words, List.tail_cons, List.flatMap_nil, List.length_nil, Option.map_none,
    Option.getD_none, List.length_cons]
  omega

/-- A table with an array part and one pair. -/
def registry : Template := ⟨#[.nil, .int 5], Pairs.empty.insert (.str ⟨1, 0, [107]⟩) .true⟩

theorem toList_registry : registry.hash.toList = [(.str ⟨1, 0, [107]⟩, .true)] :=
  Pairs.sound_empty.toList_insert _ _

theorem canonical_registry : registry.Canonical := by
  constructor <;> simp [toList_registry, Template.Key.toValue, Template.Key.arraySlot?]

theorem object_registry :
    Encode.object (.table registry) = [1, 1, 2, 0, 3, 5, 6, 148, 2] := by
  have hsize : registry.hash.size = 1 := congrArg List.length toList_registry
  rw [Encode.object, Encode.template, toList_registry, hsize]
  decide +kernel

/-- A function with a child, between a string and a table. -/
def family : Prototype :=
  holder ⟨2, 0, [109]⟩ [.str ⟨1, 0, [107]⟩, .child (holder .empty []), .table registry]

theorem postorder_family : family.postorder = [holder .empty [], family] := by
  have hc : family.children = [holder .empty []] := rfl
  rw [Prototype.postorder_eq_children, hc, List.flatMap_singleton, postorder_holder (by simp)]
  rfl

theorem canonicalTree_family : CanonicalTree ⟨5⟩ .default family := by
  apply canonicalTree_of_holder (by decide)
  rw [postorder_family, List.forall_mem_cons, List.forall_mem_singleton]
  refine ⟨⟨_, _, rfl, by simp⟩, ⟨_, _, rfl, fun t ht ↦ ?_⟩⟩
  obtain rfl : t = registry := by simpa using ht
  exact canonical_registry

theorem fitsBuffer_family : FitsBuffer ⟨5⟩ family := by
  refine ⟨?_, fun _ ↦ by decide⟩
  rw [postorder_family, List.forall_mem_cons, List.forall_mem_singleton]
  refine ⟨(length_record_holder ⟨5⟩ (by simp)).trans (by decide),
    (length_record_holder ⟨5⟩ (by simp)).trans ?_⟩
  simp only [List.reverse_cons, List.reverse_nil, List.nil_append, List.cons_append,
    List.flatMap_cons, List.flatMap_nil, object_registry]
  decide +kernel

/-- Prototypes one in the other, the longest chain of children being of some length. -/
def chain : Nat → Prototype
  | 0 => holder .empty []
  | n + 1 => holder .empty [.child (chain n)]

theorem height_chain (n : Nat) : (chain n).height = n := by
  induction n with
  | zero => rfl
  | succ n ih => rw [chain, Prototype.height_eq, holder, Constant.nesting, Constant.nesting,
      Constant.depth, ih, Nat.max_zero]

theorem exists_of_mem_chain {n : Nat} {q : Prototype} (hq : q ∈ (chain n).postorder) :
    ∃ k, q = chain k := by
  induction n with
  | zero =>
    rw [chain, postorder_holder (by simp)] at hq
    exact ⟨0, List.mem_singleton.1 hq⟩
  | succ n ih =>
    have hc : (chain (n + 1)).children = [chain n] := rfl
    rw [Prototype.postorder_eq_children, hc, List.flatMap_singleton] at hq
    rcases List.mem_append.1 hq with hq | hq
    · exact ih hq
    · exact ⟨n + 1, List.mem_singleton.1 hq⟩

theorem canonicalTree_chain (n : Nat) : CanonicalTree ⟨2⟩ .default (chain n) := by
  apply canonicalTree_of_holder rfl
  intro q hq
  obtain ⟨k, rfl⟩ := exists_of_mem_chain hq
  cases k <;> exact ⟨_, _, rfl, by simp⟩

theorem fitsBuffer_chain (n : Nat) : FitsBuffer ⟨2⟩ (chain n) := by
  refine ⟨fun q hq ↦ ?_, fun h ↦ absurd h (by decide)⟩
  obtain ⟨k, rfl⟩ := exists_of_mem_chain hq
  cases k
  · exact (length_record_holder ⟨2⟩ (by simp)).trans (by decide)
  · exact (length_record_holder ⟨2⟩ (by simp)).trans (by simp [Encode.object, maxBuffer])

/-- A text of some length. -/
def letters (n : Nat) : Str := ⟨1, 0, List.replicate n 109⟩

theorem canonicalTree_leaf (hf : f.accepted .default) (hc : ∀ q, .child q ∉ objects)
    (ht : ∀ t, .table t ∉ objects) : CanonicalTree f .default (holder name objects) := by
  apply canonicalTree_of_holder hf
  rw [postorder_holder hc, List.forall_mem_singleton]
  exact ⟨_, _, rfl, fun t h ↦ absurd h (ht t)⟩

/-- A name can be announced far beyond what fits in the buffer. -/
theorem announced_name {n : Nat} (hn : n < 2 ^ 32) : Announced f (holder (letters n) []) where
  records := by
    rw [postorder_holder (by simp), List.forall_mem_singleton]
    exact Nat.lt_of_le_of_lt (length_record_holder f (by simp)) (by decide)
  chunkName _ := by
    rw [holder, letters, List.length_replicate]
    exact hn

/-- And so can a text. -/
theorem announced_text {n : Nat} (hn : n + 13 < 2 ^ 32) :
    Announced ⟨2⟩ (holder .empty [.str (letters n)]) where
  records := by
    rw [postorder_holder (by simp), List.forall_mem_singleton]
    apply Nat.lt_of_le_of_lt (length_record_holder _ (by simp))
    have hlt : 5 + n < 128 ^ (4 + 1) := by omega
    have := Varint.length_encodeNat_le hlt
    simp only [List.reverse_singleton, List.flatMap_singleton, Encode.object, Encode.string,
      letters, List.length_append, List.length_replicate, Bytes.length_unmask]
    omega
  chunkName h := absurd h (by decide)

theorem length_text_lt (f : Flags) (n : Nat) :
    n < (Encode.record f (holder .empty [.str (letters n)])).length := by
  have hpos : 0 < (Varint.encodeNat (5 + n)).length :=
    List.length_pos_iff.2 (Varint.whole_encodeNat _).ne_nil
  simp only [Encode.record, holder, List.reverse_singleton, List.flatMap_singleton, Encode.object,
    Encode.string, letters, List.length_append, List.length_replicate, Bytes.length_unmask]
  omega

/-- A function whose name is longer by a byte than the buffer may be. -/
def longNamed : Prototype := holder (letters (maxBuffer + 1)) []

/-- A function with a text that leaves no room in the buffer for the rest of its record. -/
def longTexted : Prototype := holder .empty [.str (letters maxBuffer)]

theorem canonicalTree_longNamed : CanonicalTree ⟨0⟩ .default longNamed :=
  canonicalTree_leaf (by decide) (by simp) (by simp)

theorem canonicalTree_longTexted : CanonicalTree ⟨2⟩ .default longTexted :=
  canonicalTree_leaf (by decide) (by simp) (by simp)

theorem not_decoded (h : CanonicalTree f .default p) (hannounced : Announced f p)
    (hbad : ¬ (FitsBuffer f p ∧ p.height ≤ maxNesting)) :
    ¬ ∃ q, (decode .default .new (.ofBytes (encode f p)) "a").result = .ok q := by
  rintro ⟨q, hq⟩
  obtain ⟨e, he, -⟩ := decode_encode_of_obstacle "a" h hannounced hbad
    (faces_start (.ofMask _) (Source.delivered_ofBytes _) (Source.closing_ofBytes _))
  cases he.symm.trans hq

/-! ## Decoding undoes encoding -/

/-- Decoding undoes encoding.  However the container of a canonical tree is delivered, it is decoded
to a tree with the same content, unless it has no room in the buffer or nests too deep, and then the
decode says which. -/
theorem decode_encode (name : String) (h : CanonicalTree f options p) (hheap : heap.Reachable)
    (hs : source.delivered = encode f p) (hc : source.closing = .finished) :
    (FitsBuffer f p → p.height ≤ maxNesting →
      ∃ q, (decode options heap source name).result = .ok q ∧ p.Alike
        (fun _ given ↦ given.bytes = givenName f p.chunkName.bytes (Utf8.encode name)) q) ∧
    (Announced f p → ¬ (FitsBuffer f p ∧ p.height ≤ maxNesting) →
      ∃ e, (decode options heap source name).result = .error e ∧ Obstacle f p e.fault) := by
  have hf := faces_start hheap hs hc
  constructor
  · intro hfits hd
    exact decode_encode_of_fits name h hfits hd hf
  · intro hannounced hbad
    exact decode_encode_of_obstacle name h hannounced hbad hf

/-- The name that the container embeds is that of every prototype. -/
theorem decode_encode_family : ∃ q,
    (decode .default .new (.ofBytes (encode ⟨5⟩ family)) "a").result = .ok q ∧
      family.Alike (fun _ given ↦ given.bytes = [109]) q := by
  have hn : givenName ⟨5⟩ family.chunkName.bytes (Utf8.encode "a") = [109] := by decide +kernel
  have hnew : Heap.new.Reachable := .ofMask _
  have h := decode_encode "a" canonicalTree_family hnew (Source.delivered_ofBytes _)
    (Source.closing_ofBytes _)
  rw [hn] at h
  exact h.1 fitsBuffer_family (by decide +kernel)

/-- A tree that nests one level too deep is not decoded, and neither is one whose name, or one of
whose texts, has no room in the buffer. -/
theorem deep_or_long_not_decoded :
    (CanonicalTree ⟨2⟩ .default (chain 201) ∧ FitsBuffer ⟨2⟩ (chain 201) ∧
      ¬ ∃ q, (decode .default .new (.ofBytes (encode ⟨2⟩ (chain 201))) "a").result = .ok q) ∧
    (CanonicalTree ⟨0⟩ .default longNamed ∧ longNamed.height = 0 ∧
      ¬ ∃ q, (decode .default .new (.ofBytes (encode ⟨0⟩ longNamed)) "a").result = .ok q) ∧
    (CanonicalTree ⟨2⟩ .default longTexted ∧ longTexted.height = 0 ∧
      ¬ ∃ q, (decode .default .new (.ofBytes (encode ⟨2⟩ longTexted)) "a").result = .ok q) := by
  refine ⟨⟨canonicalTree_chain 201, fitsBuffer_chain 201, ?_⟩,
    ⟨canonicalTree_longNamed, rfl, ?_⟩, ⟨canonicalTree_longTexted, rfl, ?_⟩⟩
  · apply not_decoded (canonicalTree_chain 201) (fitsBuffer_chain 201).announced
    rintro ⟨-, hd⟩
    rw [height_chain] at hd
    exact absurd hd (by decide)
  · apply not_decoded canonicalTree_longNamed (announced_name (by decide))
    rintro ⟨hfits, -⟩
    have h := hfits.chunkName (by decide)
    rw [longNamed, holder, letters, List.length_replicate] at h
    exact absurd h (by decide)
  · apply not_decoded canonicalTree_longTexted (announced_text (by decide))
    rintro ⟨hfits, -⟩
    have h := hfits.records _ (Prototype.mem_postorder_self _)
    exact absurd h (Nat.not_le.2 (length_text_lt ⟨2⟩ maxBuffer))

end JitDump.Container
