import JitDump.Container
import JitDump.Proofs.Delivery

/-!
# Congruences on the operations of a record

Much of what is said about a decode relates two runs of it, or holds of every
run: that two sources give the same tree, that an operation depends only on the
bytes it consumes, that it leaves the stack alone.  Each of these is a relation
between operations, and each has to be carried through every operation that a
record is read with.  That passage is the same for all of them, so it is done
here once: a relation that the primitive operations respect relates every
operation built from them to itself.
-/

namespace JitDump

/-- A fault that an operation finds in what it has read.  Want of input, an oversized requirement and
a failing source are met by the cursor alone. -/
def Fault.Found : Fault → Prop
  | .truncatedInput | .bufferLimit _ | .io _ => False
  | _ => True

/-- A relation between operations on a state that sequences respect.  `offsets` relates the
positions at which two related operations may fail. -/
structure Congruence (σ : Type) where
  rel {α : Type} : Fallible σ α → Fallible σ α → Prop
  offsets : Nat → Nat → Prop
  offsets_add {i j : Nat} (h : offsets i j) (k : Nat) : offsets (i + k) (j + k)
  pure {α : Type} (a : α) : rel (Pure.pure a) (Pure.pure a)
  bind {α β : Type} {x y : Fallible σ α} {f g : α → Fallible σ β} (h : rel x y)
    (h' : ∀ a, rel (f a) (g a)) : rel (x >>= f) (y >>= g)
  failAt {α : Type} {i j : Nat} (h : offsets i j) {fault : Fault} (hf : fault.Found) :
    rel (Fallible.failAt i fault : Fallible σ α) (Fallible.failAt j fault)

namespace Congruence

/-- Offsets of operations that are to fail at the same positions. -/
theorem eq_add {i j : Nat} (h : i = j) (k : Nat) : i + k = j + k := by rw [h]

variable {σ α β : Type} (C : Congruence σ) {x y : Fallible σ α}

theorem map (f : α → β) (h : C.rel x y) : C.rel (f <$> x) (f <$> y) :=
  C.bind h fun a ↦ C.pure (f a)

theorem timesFrom (h : C.rel x y) (done : List α) (n : Nat) :
    C.rel (x.timesFrom done n) (y.timesFrom done n) := by
  induction n generalizing done with
  | zero => exact C.pure done.reverse
  | succ n ih =>
    rw [Fallible.timesFrom_succ, Fallible.timesFrom_succ]
    exact C.bind h fun a ↦ ih (a :: done)

theorem times (h : C.rel x y) (n : Nat) : C.rel (x.times n) (y.times n) := C.timesFrom h [] n

end Congruence

/-! ## Readings -/

namespace Reading

/-- A block is as long as was asked for, so no word is cut short. -/
theorem word16_eq (order : ByteOrder) :
    word16 order = (fun u ↦ order.word16 (u.getD 0 0) (u.getD 1 0)) <$> block 2 := by
  funext c
  simp only [word16, Functor.map, EStateM.map, bind, EStateM.bind]
  cases h : block 2 c with
  | ok u c' =>
    match u, (of_block_eq_ok h).1 with
    | [_, _], _ => rfl
  | error e c' => rfl

/-- Nor is the head of a record. -/
theorem headBytes_eq : Container.headBytes =
    (fun u ↦ .unchain (u.getD 0 0) (u.getD 1 0) (u.getD 2 0) (u.getD 3 0)) <$> block 4 := by
  funext c
  simp only [Container.headBytes, Functor.map, EStateM.map, bind, EStateM.bind]
  cases h : block 4 c with
  | ok u c' =>
    match u, (of_block_eq_ok h).1 with
    | [_, _, _, _], _ => rfl
  | error e c' => rfl

end Reading

/-- A congruence that the primitive readings of a record respect.  A position may only be used to
fail at.  Readings that fail in any case are related whatever they do before. -/
structure ReadingCongruence extends Congruence Cursor where
  block (n : Nat) : rel (Reading.block n) (Reading.block n)
  groups : rel Reading.groups Reading.groups
  position {α : Type} {f g : Nat → Reading α} (h : ∀ i j, offsets i j → rel (f i) (g j)) :
    rel (Reading.position >>= f) (Reading.position >>= g)
  rejects {α : Type} {x y : Reading α} {i j : Nat} {fault : Fault} (h : offsets i j)
    (hx : ∀ c, ∃ c', x c = .error ⟨"", i, fault⟩ c')
    (hy : ∀ c, ∃ c', y c = .error ⟨"", j, fault⟩ c') (hf : fault.Found) : rel x y

namespace ReadingCongruence

open Container

variable (C : ReadingCongruence)

theorem varint : C.rel Reading.varint Reading.varint := C.map _ C.groups

theorem taggedVarint : C.rel Reading.taggedVarint Reading.taggedVarint := C.map _ C.groups

theorem word16 (order : ByteOrder) : C.rel (Reading.word16 order) (Reading.word16 order) := by
  rw [Reading.word16_eq]
  exact C.map _ (C.block 2)

theorem headBytes : C.rel Container.headBytes Container.headBytes := by
  rw [Reading.headBytes_eq]
  exact C.map _ (C.block 4)

/-- Stepping over an announcement that must not be there ends in one failure. -/
theorem reject_eq_error (start : Nat) (c : Cursor) :
    ∃ c', (do
      Fallible.attempt (Reading.skip 4)
      let _ ← Fallible.times 5 (Fallible.attempt Reading.varint)
      Fallible.failAt start .unexpectedDebugInfo : Reading (Option DebugHeader)) c =
        .error ⟨"", start, .unexpectedDebugInfo⟩ c' := by
  have attempt : ∀ {α : Type} (x : Reading α) c, ∃ c', Fallible.attempt x c = .ok () c' := by
    intro α x c
    simp only [Fallible.attempt]
    split <;> exact ⟨_, rfl⟩
  have repeated : ∀ (n : Nat) done c,
      ∃ us c', Fallible.timesFrom (Fallible.attempt Reading.varint) done n c = .ok us c' := by
    intro n
    induction n with
    | zero => exact fun done c ↦ ⟨_, _, rfl⟩
    | succ n ih =>
      intro done c
      obtain ⟨c₁, h⟩ := attempt Reading.varint c
      simp only [Fallible.timesFrom, h]
      exact ih _ _
  obtain ⟨c₁, h₁⟩ := attempt (Reading.skip 4) c
  obtain ⟨us, c₂, h₂⟩ := repeated 5 [] c₁
  refine ⟨c₂, ?_⟩
  simp only [bind, EStateM.bind, h₁, Fallible.times, h₂]
  rfl

theorem debugHeader (options : Options) :
    C.rel (Container.debugHeader options) (Container.debugHeader options) := by
  refine C.position fun i j h ↦ C.bind C.varint fun size ↦ ?_
  split
  · exact C.pure none
  · split
    · exact C.bind C.varint fun _ ↦ C.bind C.varint fun _ ↦ C.pure _
    · exact C.rejects h (reject_eq_error i) (reject_eq_error j) trivial

theorem announced (ctx : Context) :
    C.rel (Container.announced ctx) (Container.announced ctx) := by
  unfold Container.announced
  split
  · exact C.pure none
  · exact C.debugHeader _

theorem instructions (order : ByteOrder) (count : Nat) :
    C.rel (Container.instructions order count) (Container.instructions order count) := by
  refine C.position fun i j h ↦ C.bind (C.block _) fun u ↦ ?_
  cases restoreFrom [] 0 (order.words32 u) with
  | ok code => exact C.pure code
  | error e => exact C.failAt (C.offsets_add h (4 * e.1)) trivial

theorem wide : C.rel Container.wide Container.wide :=
  C.bind C.varint fun _ ↦ C.bind C.varint fun _ ↦ C.pure _

theorem number : C.rel Container.number Container.number := by
  refine C.bind C.taggedVarint fun u ↦ ?_
  obtain ⟨low, isFloat⟩ := u
  cases isFloat with
  | true => exact C.bind C.varint fun _ ↦ C.pure _
  | false => exact C.pure _

theorem front (ctx : Context) : C.rel (Container.front ctx) (Container.front ctx) :=
  C.bind C.headBytes fun _ ↦ C.bind C.varint fun _ ↦ C.bind C.varint fun _ ↦
    C.bind C.varint fun _ ↦ C.bind (C.announced ctx) fun _ ↦ C.bind (C.instructions _ _) fun _ ↦
    C.bind (C.times (C.word16 _) _) fun _ ↦ C.bind (C.times C.number _) fun _ ↦ C.pure _

theorem debugBlock (order : ByteOrder) (header : DebugHeader) (lineEntries upvalues : Nat) :
    C.rel (Container.debugBlock order header lineEntries upvalues)
      (Container.debugBlock order header lineEntries upvalues) := by
  refine C.position fun i j h ↦ C.bind (C.block _) fun u ↦ ?_
  split
  · exact C.pure _
  · exact C.failAt h trivial

theorem debugInfo (order : ByteOrder) (f : Front) :
    C.rel (Container.debugInfo order f) (Container.debugInfo order f) := by
  unfold Container.debugInfo
  split
  · exact C.pure none
  · exact C.map _ (C.debugBlock _ _ _ _)

theorem flags (options : Options) :
    C.rel (Container.flags options) (Container.flags options) := by
  refine C.position fun i j h ↦ C.bind C.varint fun bits ↦ ?_
  dsimp only
  split
  · exact C.pure _
  · exact C.failAt h trivial

/-- The head of a container behind the bytes that open it. -/
theorem behindPrologue (options : Options) : C.rel
    (do
      let f ← Container.flags options
      if f.isStripped then return (f, none)
      else
        let length ← Reading.varint
        return (f, some (← Reading.block length.toNat)) : Reading (Flags × Option Bytes))
    (do
      let f ← Container.flags options
      if f.isStripped then return (f, none)
      else
        let length ← Reading.varint
        return (f, some (← Reading.block length.toNat))) := by
  refine C.bind (C.flags options) fun f ↦ ?_
  split
  · exact C.pure _
  · exact C.bind C.varint fun _ ↦ C.bind (C.block _) fun _ ↦ C.pure _

theorem opening (h : C.rel prologue prologue) (options : Options) :
    C.rel (Container.opening options) (Container.opening options) :=
  C.bind h fun _ ↦ C.behindPrologue options

end ReadingCongruence

/-! ## Operations that intern strings -/

/-- A congruence of a decode that respects interning, above one of its readings. -/
structure DecodingCongruence (R : ReadingCongruence) extends Congruence Container.Session where
  ofReading {α : Type} {x y : Reading α} (h : R.rel x y) :
    rel (Decoding.ofReading x) (Decoding.ofReading y)
  position {α : Type} {f g : Nat → Decoding α} (h : ∀ i j, offsets i j → rel (f i) (g j)) :
    rel (Decoding.ofReading Reading.position >>= f) (Decoding.ofReading Reading.position >>= g)
  intern (text : Bytes) : rel (Decoding.intern text) (Decoding.intern text)

namespace DecodingCongruence

open Container

variable {R : ReadingCongruence} (C : DecodingCongruence R)

theorem varint : C.rel (Decoding.ofReading Reading.varint) (Decoding.ofReading Reading.varint) :=
  C.ofReading R.varint

theorem wide : C.rel (Decoding.ofReading Container.wide) (Decoding.ofReading Container.wide) :=
  C.ofReading R.wide

theorem maskedString (length : Nat) :
    C.rel (Container.maskedString length) (Container.maskedString length) :=
  C.bind (C.ofReading (R.block length)) fun _ ↦ C.intern _

theorem templateValue : C.rel Container.templateValue Container.templateValue := by
  refine C.bind C.varint fun kind ↦ ?_
  split
  · exact C.pure _
  · exact C.pure _
  · exact C.pure _
  · exact C.bind C.varint fun _ ↦ C.pure _
  · exact C.bind C.wide fun _ ↦ C.pure _
  · exact C.bind (C.maskedString _) fun _ ↦ C.pure _

theorem templatePair (t : Template) :
    C.rel (Container.templatePair t) (Container.templatePair t) := by
  refine C.position fun i j h ↦ C.bind C.templateValue fun v ↦ ?_
  cases v.key? with
  | none => exact C.failAt h trivial
  | some key => exact C.bind C.templateValue fun _ ↦ C.pure _

theorem templatePairs (t : Template) (n : Nat) :
    C.rel (Container.templatePairs t n) (Container.templatePairs t n) := by
  induction n generalizing t with
  | zero => exact C.pure t
  | succ n ih => exact C.bind (C.templatePair t) fun t ↦ ih t

theorem header (h : R.rel prologue prologue) (options : Options) (name : Bytes) :
    C.rel (Container.header options name) (Container.header options name) :=
  C.bind (C.ofReading (R.opening h options)) fun _ ↦ C.bind (C.intern _) fun _ ↦ C.pure _

theorem template : C.rel Container.template Container.template :=
  C.bind C.varint fun _ ↦ C.bind C.varint fun _ ↦ C.bind (C.times C.templateValue _) fun _ ↦
    C.templatePairs _ _

end DecodingCongruence

/-! ## Operations on the stack -/

/-- A congruence of a decode that also respects the claims of finished prototypes. -/
structure StackCongruence (R : ReadingCongruence) extends DecodingCongruence R where
  pop? : rel Decoding.pop? Decoding.pop?
  note (e : Container.Event) : rel (Decoding.note e) (Decoding.note e)

namespace StackCongruence

open Container

variable {R : ReadingCongruence} (C : StackCongruence R)

theorem object : C.rel Container.object Container.object := by
  refine C.position fun i j h ↦ C.bind C.varint fun kind ↦ ?_
  split
  · refine C.bind C.pop? fun top ↦ ?_
    split
    · exact C.failAt h trivial
    · split
      · exact C.failAt h trivial
      · exact C.pure _
  · exact C.bind C.template fun _ ↦ C.pure _
  · exact C.bind C.wide fun _ ↦ C.pure _
  · exact C.bind C.wide fun _ ↦ C.pure _
  · exact C.bind C.wide fun _ ↦ C.bind C.wide fun _ ↦ C.pure _
  · exact C.bind (C.maskedString _) fun _ ↦ C.pure _

theorem objectsFrom (pool : List (Constant Prototype)) (depth n : Nat) :
    C.rel (Container.objectsFrom pool depth n) (Container.objectsFrom pool depth n) := by
  induction n generalizing pool depth with
  | zero => exact C.pure _
  | succ n ih => exact C.bind C.object fun _ ↦ ih _ _

/-- Every relation that the primitive operations respect relates a record to itself. -/
theorem record (ctx : Context) : C.rel (Container.record ctx) (Container.record ctx) :=
  C.bind (C.ofReading (R.front ctx)) fun _ ↦ C.bind (C.objectsFrom _ _ _) fun _ ↦
    C.bind (C.note _) fun _ ↦ C.bind (C.ofReading (R.debugInfo _ _)) fun _ ↦ C.pure _

/-- A round notes where it stands, so a relation that it respects has to keep positions. -/
theorem nextRecord (h : R.rel nextLength nextLength) (hi : ∀ i j, C.offsets i j → i = j)
    (ctx : Context) : C.rel (Container.nextRecord ctx) (Container.nextRecord ctx) := by
  refine C.bind (C.ofReading h) fun length? ↦ ?_
  cases length? with
  | none => exact C.pure none
  | some length =>
    refine C.position fun i j hij ↦ C.bind (C.record ctx) fun r ↦ C.position fun k l hkl ↦ ?_
    obtain rfl := hi k l hkl
    obtain rfl := hi i j hij
    dsimp only
    split
    · exact C.bind (C.note _) fun _ ↦ C.pure _
    · exact C.failAt hij trivial

end StackCongruence

end JitDump
