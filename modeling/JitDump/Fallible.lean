import JitDump.Fault

/-! # Operations that may fail

An operation works on a state, and a failure keeps what it has done to the state so far. -/

namespace JitDump

abbrev Fallible (σ : Type) := EStateM Failure σ

namespace Fallible

variable {σ α : Type}

def failAt (offset : Nat) (fault : Fault) : Fallible σ α :=
  fun s => .error ⟨"", offset, fault⟩ s

/-- Goes on after an operation whether or not it failed. -/
def attempt (x : Fallible σ α) : Fallible σ Unit := fun s =>
  match x s with
  | .ok _ s | .error _ s => .ok () s

/-- Repeats an operation and collects what it returns behind what is already collected, which is
in reverse. -/
def timesFrom (step : Fallible σ α) (done : List α) : Nat → Fallible σ (List α)
  | 0 => fun s => .ok done.reverse s
  | n + 1 => fun s =>
    match step s with
    | .ok a s => timesFrom step (a :: done) n s
    | .error e s => .error e s

def times (n : Nat) (step : Fallible σ α) : Fallible σ (List α) := timesFrom step [] n

theorem timesFrom_succ (step : Fallible σ α) (done : List α) (n : Nat) :
    timesFrom step done (n + 1) = step >>= fun a => timesFrom step (a :: done) n := by
  funext s
  simp only [timesFrom, bind, EStateM.bind]
  cases step s <;> rfl

section Bind

variable {β : Type} {x : Fallible σ α} {f : α → Fallible σ β} {s t : σ} {a : α} {e : Failure}

theorem bind_of_ok (h : x s = .ok a t) : (x >>= f) s = f a t := by
  simp only [bind, EStateM.bind, h]

theorem bind_of_error (h : x s = .error e t) : (x >>= f) s = .error e t := by
  simp only [bind, EStateM.bind, h]

end Bind

/-- What a sequence of two operations returns comes from what each returns. -/
theorem bind_eq_ok {β : Type} {x : Fallible σ α} {f : α → Fallible σ β} {s t : σ} {b : β} :
    (x >>= f) s = .ok b t ↔ ∃ a r, x s = .ok a r ∧ f a r = .ok b t := by
  simp only [bind, EStateM.bind]
  constructor
  · intro h
    cases hx : x s with
    | ok a r => rw [hx] at h; exact ⟨a, r, rfl, h⟩
    | error e r => rw [hx] at h; cases h
  · rintro ⟨a, r, hx, h⟩
    rw [hx]
    exact h

/-! ## Following -/

section Follows

variable {τ β : Type} {f : σ → τ} {x : Fallible σ α} {y : Fallible τ α} {a : α} {e : Failure}
variable {s t : σ}

/-- A result with the view of the state that it leaves. -/
def image (f : σ → τ) : EStateM.Result Failure σ α → EStateM.Result Failure τ α
  | .ok a s => .ok a (f s)
  | .error e s => .error e (f s)

/-- `x` does to a state what `y` does to the view of it. -/
def Follows (f : σ → τ) (x : Fallible σ α) (y : Fallible τ α) : Prop :=
  ∀ s, image f (x s) = y (f s)

theorem Follows.of_ok (h : Follows f x y) (hx : x s = .ok a t) : y (f s) = .ok a (f t) := by
  rw [← h, hx]
  rfl

theorem Follows.of_error (h : Follows f x y) (hx : x s = .error e t) :
    y (f s) = .error e (f t) := by
  rw [← h, hx]
  rfl

theorem Follows.bind {g : α → Fallible σ β} {g' : α → Fallible τ β} (h : Follows f x y)
    (h' : ∀ a, Follows f (g a) (g' a)) : Follows f (x >>= g) (y >>= g') := by
  intro s
  cases hx : x s with
  | ok a t =>
    rw [bind_of_ok hx, bind_of_ok (h.of_ok hx)]
    exact h' a t
  | error e t =>
    rw [bind_of_error hx, bind_of_error (h.of_error hx)]
    rfl

theorem Follows.map (h : Follows f x y) (g : α → β) : Follows f (g <$> x) (g <$> y) :=
  h.bind fun _ _ => rfl

end Follows

end Fallible

end JitDump
