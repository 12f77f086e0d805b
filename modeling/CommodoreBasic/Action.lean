import CommodoreBasic.Error

/-!
# Actions

Computations that change a state and may fail. A failure keeps the state that was reached, since a
program's variables outlive its errors.
-/

namespace CommodoreBasic

/-- A computation on states `σ` that gives an `α` or an error, and a new state in either case. -/
def Action (σ α : Type) : Type := σ → Except Error α × σ

namespace Action

variable {σ α β : Type}

/-- Gives a value and leaves the state as it is. -/
@[inline] protected def pure (a : α) : Action σ α := fun s => (.ok a, s)

/-- One action after another. An error ends both, with the state that the first left. -/
@[inline] protected def bind (x : Action σ α) (f : α → Action σ β) : Action σ β := fun s =>
  match x s with
  | (.ok a, s) => f a s
  | (.error e, s) => (.error e, s)

instance : Monad (Action σ) where
  pure := Action.pure
  bind := Action.bind

instance : MonadExceptOf Error (Action σ) where
  throw e := fun s => (.error e, s)
  tryCatch x handle := fun s =>
    match x s with
    | (.error e, s) => handle e s
    | result => result

/-- A result as an action that leaves the state alone. -/
@[inline] def ofExcept (r : Except Error α) : Action σ α := fun s => (r, s)

/-- Changes the state and cannot fail. -/
@[inline] def modify (f : σ → σ) : Action σ Unit := fun s => (.ok (), f s)

/-- A sequence goes on from the state that its first action leaves, unless that fails. -/
theorem bind_apply (x : Action σ α) (f : α → Action σ β) (s : σ) :
    (x >>= f) s = match x s with
      | (.ok a, s) => f a s
      | (.error e, s) => (.error e, s) := rfl

instance : LawfulMonad (Action σ) :=
  LawfulMonad.mk' (Action σ)
    (fun x => by
      funext s
      change (match x s with
        | (.ok a, s) => (Except.ok a, s)
        | (.error e, s) => (.error e, s)) = x s
      rcases x s with ⟨_ | _, _⟩ <;> rfl)
    (fun _ _ => rfl)
    (fun x f g => by
      funext s
      simp only [bind_apply]
      rcases x s with ⟨_ | _, _⟩ <;> rfl)

end Action

end CommodoreBasic
