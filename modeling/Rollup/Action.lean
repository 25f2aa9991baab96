/-!
# Actions

A step over a state that may fail.  What was done before a failure stays done, so a caller sees the
state in which the step stopped as well as the reason.
-/

namespace Rollup

/-- A step over `σ` that yields an `α` or stops with an `ε`; the state survives either way. -/
abbrev Action (σ ε α : Type) : Type := ExceptT ε (StateM σ) α

namespace Action

variable {σ τ ε ε' α β : Type}

/-- The answer of a step and the state it leaves. -/
def exec (step : Action σ ε α) (s : σ) : Except ε α × σ := step.run.run s

/-- A step given by what it does to the state. -/
def ofExec (f : σ → Except ε α × σ) : Action σ ε α := ExceptT.mk fun s => f s

/-- A settled answer as a step that leaves the state alone. -/
def lift (answer : Except ε α) : Action σ ε α := ExceptT.mk (pure answer)

/-- Runs a step on a part of the state, and renames its failure. -/
def within (part : σ → τ) (put : τ → σ → σ) (rename : ε' → ε) (step : Action τ ε' α) :
    Action σ ε α :=
  ofExec fun s =>
    let (answer, t) := step.exec (part s)
    (answer.mapError rename, put t s)

/-- Runs a step `n` times and lists its answers. -/
def times : Nat → Action σ ε α → Action σ ε (List α)
  | 0, _ => pure []
  | n + 1, step => do
    let first ← step
    let rest ← times n step
    return first :: rest

end Action

end Rollup
