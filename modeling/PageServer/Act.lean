import PageServer.Failure
import PageServer.Log

/-!
# Actions

An action runs on a state: it may change it, make log records, and end with a
value or with a failure. A failure does not take back what was done before it,
neither the changes nor the records.
-/

namespace PageServer

/-- What an action leaves behind. -/
structure Outcome (σ α : Type) where
  result : Except Failure α
  state : σ
  log : List Log.Record := []

/-- An action on states of type `σ` with values of type `α`. -/
def Act (σ α : Type) : Type := σ → Outcome σ α

namespace Act

variable {σ τ α β : Type}

/-- Runs the action. -/
def run (a : Act σ α) (s : σ) : Outcome σ α := a s

/-- The action that does nothing. -/
def done (a : α) : Act σ α := fun s => ⟨.ok a, s, []⟩

/-- The action that fails. -/
def fail (e : Failure) : Act σ α := fun s => ⟨.error e, s, []⟩

/-- Goes on with the value of an action, unless it failed. -/
def andThen (a : Act σ α) (f : α → Act σ β) : Act σ β := fun s =>
  match a s with
  | ⟨.error e, s', log⟩ => ⟨.error e, s', log⟩
  | ⟨.ok v, s', log⟩ =>
    let next := f v s'
    ⟨next.result, next.state, log ++ next.log⟩

/-- Goes on with the failure of an action, if it failed. -/
def recover (a : Act σ α) (f : Failure → Act σ α) : Act σ α := fun s =>
  match a s with
  | ⟨.ok v, s', log⟩ => ⟨.ok v, s', log⟩
  | ⟨.error e, s', log⟩ =>
    let next := f e s'
    ⟨next.result, next.state, log ++ next.log⟩

instance : Monad (Act σ) where
  pure := done
  bind := andThen

instance : MonadExcept Failure (Act σ) where
  throw := fail
  tryCatch := recover

/-- The state. -/
def get : Act σ σ := fun s => ⟨.ok s, s, []⟩

/-- Changes the state. -/
def modify (f : σ → σ) : Act σ Unit := fun s => ⟨.ok (), f s, []⟩

/-- Makes a log record. -/
def record (level : Log.Level) (message : Bytes) : Act σ Unit := fun s =>
  ⟨.ok (), s, [⟨level, message⟩]⟩

/-- Takes over a value and its records. -/
def report (r : Reported α) : Act σ α := fun s => ⟨.ok r.value, s, r.log⟩

/-- Takes over a value or a failure. -/
def ofExcept (r : Except Failure α) : Act σ α := fun s => ⟨r, s, []⟩

/-- The result of an action as a value: the action itself does not fail. -/
def attempt (a : Act σ α) : Act σ (Except Failure α) := fun s =>
  let o := a s
  ⟨.ok o.result, o.state, o.log⟩

end Act

/-- A part of a state: how to read and how to replace it. -/
structure Part (σ τ : Type) where
  get : σ → τ
  set : τ → σ → σ

namespace Act

variable {σ τ α : Type}

/-- Runs an action on a part of the state. -/
def within (part : Part σ τ) (a : Act τ α) : Act σ α := fun s =>
  let o := a (part.get s)
  ⟨o.result, part.set o.state s, o.log⟩

end Act

end PageServer
