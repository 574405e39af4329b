/-!
# Statements and transactions

A statement changes a store or fails and leaves it as it was. In a sequence of
them the first failure ends the sequence, and what the statements before it did
stays: only a transaction undoes it, by dropping the copy they worked on.

A sequence is specified by when, and where, it `Succeeds`; what a failing one
leaves behind is not observable once it runs in a transaction
(`transaction_cases`).
-/

/-- Statements over a store `σ`, failing with `ε`. -/
abbrev Statements (ε σ : Type) : Type → Type := ExceptT ε (StateM σ)

namespace Statements

variable {ε σ : Type}

/-- One statement. -/
def execute (f : σ → Except ε σ) : Statements ε σ Unit := fun s =>
  match f s with
  | .ok s' => (.ok (), s')
  | .error e => (.error e, s)

/-- The outcome of a sequence, and the store it leaves behind. -/
def runFrom (body : Statements ε σ Unit) (s : σ) : Except ε Unit × σ :=
  (ExceptT.run body).run s

/-- `commit` publishes the working copy, and an error drops it. -/
def transaction (body : Statements ε σ Unit) (s : σ) : Except ε Unit × σ :=
  match body.runFrom s with
  | (.ok (), working) => (.ok (), working)
  | (.error e, _) => (.error e, s)

/-- From `s` the statements all succeed and lead to `s'`. -/
def Succeeds (body : Statements ε σ Unit) (s s' : σ) : Prop :=
  body.runFrom s = (.ok (), s')

/-- The outcome of a transaction: everything, or an error and nothing. -/
theorem transaction_cases (body : Statements ε σ Unit) (s : σ) :
    (∃ s', Succeeds body s s' ∧ transaction body s = (.ok (), s'))
      ∨ (¬∃ s', Succeeds body s s') ∧ ∃ e, transaction body s = (.error e, s) := by
  unfold Succeeds transaction
  rcases body.runFrom s with ⟨outcome, working⟩
  cases outcome with
  | ok u => exact Or.inl ⟨working, rfl, rfl⟩
  | error e =>
      refine Or.inr ⟨?_, e, rfl⟩
      rintro ⟨s', h⟩
      cases h

theorem succeeds_pure {s s' : σ} :
    Succeeds (pure () : Statements ε σ Unit) s s' ↔ s' = s := by
  show (Except.ok (), s) = (Except.ok (), s') ↔ s' = s
  simp [eq_comm]

theorem runFrom_execute (f : σ → Except ε σ) (s : σ) :
    (execute f).runFrom s
      = match f s with
        | .ok s' => (.ok (), s')
        | .error e => (.error e, s) := rfl

theorem succeeds_execute {f : σ → Except ε σ} {s s' : σ} :
    Succeeds (execute f) s s' ↔ f s = .ok s' := by
  rw [Succeeds, runFrom_execute]
  cases f s <;> simp

theorem runFrom_bind (first second : Statements ε σ Unit) (s : σ) :
    (first >>= fun _ => second).runFrom s
      = match first.runFrom s with
        | (.ok _, mid) => second.runFrom mid
        | (.error e, mid) => (.error e, mid) := by
  unfold runFrom
  rw [ExceptT.run_bind, StateT.run_bind]
  rcases (ExceptT.run first).run s with ⟨outcome, mid⟩
  cases outcome <;> rfl

theorem succeeds_bind {first second : Statements ε σ Unit} {s s' : σ} :
    Succeeds (first >>= fun _ => second) s s'
      ↔ ∃ mid, Succeeds first s mid ∧ Succeeds second mid s' := by
  unfold Succeeds
  rw [runFrom_bind]
  rcases first.runFrom s with ⟨outcome, mid⟩
  cases outcome with
  | ok u => simp
  | error e => simp

end Statements
