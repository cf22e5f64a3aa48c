import JitDump.Proofs.Interning
import JitDump.Proofs.WireOrder

/-!
# Heaps in service

A heap serves decodes one after another, and some of them fail. All that a
decode does to the heap it is given is to intern strings, so what interning
keeps, a decode keeps, however it ends. Hence every heap that a host can come to
by decoding is one that it can come to by interning.
-/

namespace JitDump

open Container

variable {P : Heap → Prop} {α β : Type}

/-- Operations that keep a property of the heap, also when they fail. -/
def Decoding.Keeps (P : Heap → Prop) (x _y : Decoding α) : Prop := ∀ s, P s.heap →
  match x s with
  | .ok _ t | .error _ t => P t.heap

namespace Decoding.Keeps

theorem of_eq_ok {x : Decoding α} {s t : Session} {a : α} (h : Keeps P x x) (hx : x s = .ok a t)
    (hs : P s.heap) : P t.heap := by
  have hk := h s hs
  rwa [hx] at hk

theorem pure (a : α) : Keeps P (Pure.pure a) (Pure.pure a) := fun _ h ↦ h

theorem bind {x y : Decoding α} {f g : α → Decoding β} (h : Keeps P x y)
    (h' : ∀ a, Keeps P (f a) (g a)) : Keeps P (x >>= f) (y >>= g) := by
  intro s hs
  have hx := h s hs
  simp only [Bind.bind, EStateM.bind]
  cases hr : x s with
  | ok a t =>
    rw [hr] at hx
    exact h' a t hx
  | error e t =>
    rw [hr] at hx
    exact hx

theorem ofReading (x y : Reading α) :
    Keeps P (Decoding.ofReading x) (Decoding.ofReading y) := by
  intro s hs
  simp only [Decoding.ofReading]
  cases x s.cursor <;> exact hs

theorem get {f g : Session → Decoding β} (h : ∀ s, Keeps P (f s) (g s)) :
    Keeps P (MonadState.get >>= f) (MonadState.get >>= g) := fun s hs ↦ h s s hs

theorem pop? : Keeps P Decoding.pop? Decoding.pop? := by
  intro s hs
  rw [Decoding.pop?_eq]
  exact hs

end Decoding.Keeps

open Decoding (Keeps)

/-- The congruence of keeping what interning keeps. -/
def keeping (hP : ∀ h text, P h → P (h.intern text).2) : StackCongruence anyReading where
  rel := Keeps P
  offsets := Eq
  offsets_add := Congruence.eq_add
  pure := Keeps.pure
  bind := Keeps.bind
  failAt _ _ _ := fun _ hs ↦ hs
  ofReading _ := Keeps.ofReading _ _
  position h := fun s ↦ h s.cursor.position s.cursor.position rfl s
  intern text := fun s hs ↦ hP s.heap text hs
  pop? := Keeps.pop?
  note _ := fun _ hs ↦ hs

/-- Interning keeps a heap sound, and so does all that a record does to it. -/
def soundness : StackCongruence anyReading :=
  keeping (P := Heap.Sound) fun _ text h ↦ (h.intern text).2.2.sound

theorem keeps_records {next : Decoding (Option (Prototype × Nat))} (h : Keeps P next next)
    (rounds : Nat) : Keeps P (records next rounds) (records next rounds) := by
  induction rounds with
  | zero => exact Keeps.ofReading (Reading.fail .truncatedInput) (Reading.fail .truncatedInput)
  | succ rounds ih =>
    refine Keeps.bind h fun r ↦ ?_
    rcases r with _ | ⟨p, d⟩
    · exact Keeps.pure ()
    · exact Keeps.bind (fun _ hs ↦ hs) fun _ ↦ ih

theorem keeps_root : Keeps P root root := by
  refine Keeps.bind (Keeps.ofReading _ _) fun _ ↦ Keeps.get fun s ↦ ?_
  split
  · exact Keeps.pure _
  · exact Keeps.ofReading _ _

theorem keeps_container (hP : ∀ h text, P h → P (h.intern text).2) (options : Options)
    (name : Bytes) : Keeps P (container options name) (container options name) :=
  Keeps.bind ((keeping hP).header trivial options name) fun _ ↦
    Keeps.bind ((keeping hP).note _) fun _ ↦ Keeps.get fun _ ↦
      Keeps.bind (keeps_records ((keeping hP).nextRecord trivial (fun _ _ h ↦ h) _) _) fun _ ↦
        keeps_root

variable {options : Options} {h : Heap} {source : Source} {name : String}

/-- What interning keeps of a heap, a decode keeps, whether it gives a tree or fails. -/
theorem keeps_decode (hP : ∀ h text, P h → P (h.intern text).2) (hh : P h) :
    P (decode options h source name).heap := by
  have hk := keeps_container hP options (Utf8.encode name) (.start h source) hh
  simp only [decode]
  cases hr : container options (Utf8.encode name) (.start h source) with
  | ok p t =>
    rw [hr] at hk
    exact hk
  | error e t =>
    rw [hr] at hk
    exact hk

namespace Heap

theorem Reachable.decode (hr : h.Reachable) :
    (Container.decode options h source name).heap.Reachable :=
  keeps_decode (fun _ text hr ↦ hr.intern text) hr

/-- The heaps that have served a host: it interned strings, started cycles, and decoded, with or
without success. -/
inductive Serving : Heap → Prop
  | ofMask (mask : UInt32) : Serving (ofMask mask)
  | intern {h : Heap} (hs : Serving h) (s : Bytes) : Serving (h.intern s).2
  | beginCycle {h : Heap} (hs : Serving h) : Serving h.beginCycle
  | decode {h : Heap} (hs : Serving h) (options : Options) (source : Source) (name : String) :
      Serving (Container.decode options h source name).heap

theorem Serving.reachable (hs : h.Serving) : h.Reachable := by
  induction hs with
  | ofMask mask => exact .ofMask mask
  | intern _ s ih => exact ih.intern s
  | beginCycle _ ih => exact ih.beginCycle
  | decode _ _ _ _ ih => exact ih.decode

end Heap

end JitDump
