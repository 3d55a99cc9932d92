import Intensional.Fault

/-!
# Actions

An action works on a state and answers a value or a fault. The state that was reached is kept
in either case: a request that fails half-way leaves behind what it has already done, such as
the dimensions it has interned.
-/

namespace Intensional

/-- A computation on a state `σ` that answers an `α` or a fault. -/
def Action (σ α : Type) : Type := σ → Except Fault α × σ

namespace Action

variable {σ τ α β : Type}

instance : Monad (Action σ) where
  pure a := fun s => (.ok a, s)
  bind m f := fun s =>
    match m s with
    | (.ok a, s') => f a s'
    | (.error e, s') => (.error e, s')

def fault (e : Fault) : Action σ α := fun s => (.error e, s)

def ofExcept (r : Except Fault α) : Action σ α := fun s => (r, s)

def read (f : σ → α) : Action σ α := fun s => (.ok (f s), s)

def update (f : σ → σ) : Action σ Unit := fun s => (.ok (), f s)

/-- Run an action and answer its result, a fault included. This never fails. -/
def attempt (m : Action σ α) : Action σ (Except Fault α) := fun s =>
  let ran := m s
  (.ok ran.1, ran.2)

/-- Run an action on a part of the state. -/
def within (part : σ → τ) (put : τ → σ → σ) (m : Action τ α) : Action σ α := fun s =>
  let ran := m (part s)
  (ran.1, put ran.2 s)

/-- Reword the fault of an action. -/
def mapFault (f : Fault → Fault) (m : Action σ α) : Action σ α := fun s =>
  match m s with
  | (.ok a, s') => (.ok a, s')
  | (.error e, s') => (.error (f e), s')

/-- Run an action for each element, in order, up to the first fault. -/
def each (f : α → Action σ β) : List α → Action σ (List β)
  | [] => pure []
  | a :: as => do
    let b ← f a
    let bs ← each f as
    pure (b :: bs)

/-! ## Equations -/

theorem bind_apply (m : Action σ α) (f : α → Action σ β) (s : σ) :
    (m >>= f) s =
      match m s with
      | (.ok a, s') => f a s'
      | (.error e, s') => (.error e, s') := rfl

theorem bind_of_ok {m : Action σ α} {s s' : σ} {a : α} (h : m s = (.ok a, s'))
    (f : α → Action σ β) : (m >>= f) s = f a s' := by
  rw [bind_apply, h]

theorem bind_of_error {m : Action σ α} {s s' : σ} {e : Fault} (h : m s = (.error e, s'))
    (f : α → Action σ β) : (m >>= f) s = (.error e, s') := by
  rw [bind_apply, h]

theorem map_apply (f : α → β) (m : Action σ α) (s : σ) :
    (f <$> m) s = ((m s).1.map f, (m s).2) := by
  show (m >>= fun a => pure (f a)) s = _
  rw [bind_apply]
  rcases m s with ⟨_ | _, _⟩ <;> rfl

theorem of_bind_ok {m : Action σ α} {f : α → Action σ β} {s t : σ} {b : β}
    (h : (m >>= f) s = (.ok b, t)) : ∃ a s', m s = (.ok a, s') ∧ f a s' = (.ok b, t) := by
  rw [bind_apply] at h
  rcases hm : m s with ⟨e | a, s'⟩
  · rw [hm] at h
    cases h
  · rw [hm] at h
    exact ⟨a, s', rfl, h⟩

instance : LawfulMonad (Action σ) :=
  LawfulMonad.mk' _
    (fun m => by
      funext s
      change (match m s with | (.ok a, s') => (.ok a, s') | (.error e, s') => (.error e, s')) = m s
      split <;> simp_all)
    (fun _ _ => rfl)
    (fun m f g => by
      funext s
      simp only [bind_apply]
      rcases m s with ⟨_ | _, _⟩ <;> rfl)

end Action
end Intensional
