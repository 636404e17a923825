import PageServer.Act

/-!
# Planned faults

To see how the server takes it, calls on a path can be made to fail, and one
call can be held up: a *gate* stands before the `n`-th call from now on, and the
work waits there until the gate is opened. A failure planned for one kind of
call goes before one planned for any kind, and a later plan replaces an earlier
one.
-/

namespace PageServer.Bench

/-- The kinds of calls that can be planned for. -/
inductive CallKind
  | list
  | status
  | openFile
  | read
  | write
  deriving DecidableEq, Repr

/-- A gate before a call on a path. -/
structure Gate where
  kind : CallKind
  path : Bytes
  /-- How many calls from now on it stands; that many less one pass freely. -/
  calls : Nat
  deriving DecidableEq, Repr

/-- A failure of the calls of one kind, or of every kind, on a path. -/
structure PlannedFailure where
  kind : Option CallKind
  path : Bytes
  failure : Failure
  deriving DecidableEq, Repr

/-- What is planned. -/
structure Faults where
  /-- The failures, the latest first. -/
  failures : List PlannedFailure := []
  gate : Option Gate := none
  deriving DecidableEq, Repr

namespace Faults

/-- Plans a failure. -/
def plan (f : Faults) (p : PlannedFailure) : Faults := { f with failures := p :: f.failures }

/-- The failure planned for a kind of calls on a path. -/
def planned? (f : Faults) (kind : Option CallKind) (path : Bytes) : Option Failure :=
  (f.failures.find? fun p => p.kind == kind && p.path == path).map (·.failure)

/-- How a call on a path fails. -/
def failure? (f : Faults) (kind : CallKind) (path : Bytes) : Option Failure :=
  (f.planned? (some kind) path).or (f.planned? none path)

/-- Whether the gate stands right before a call. -/
def holds (f : Faults) (kind : CallKind) (path : Bytes) : Bool :=
  match f.gate with
  | none => false
  | some g => g.kind == kind && g.path == path && g.calls ≤ 1

/-- The plan after a call. -/
def after (f : Faults) (kind : CallKind) (path : Bytes) : Faults :=
  match f.gate with
  | none => f
  | some g =>
    if g.kind = kind ∧ g.path = path then { f with gate := some { g with calls := g.calls - 1 } }
    else f

end Faults

/-- The action of a call, counted for the gate. -/
def counted {σ α : Type} (part : Part σ Faults) (kind : CallKind) (path : Bytes) (a : Act σ α) :
    Act σ α := do
  Act.within part (Act.modify (·.after kind path))
  a

/-- The action of a call, counted for the gate and failing as planned. -/
def planned {σ α : Type} (part : Part σ Faults) (kind : CallKind) (path : Bytes) (a : Act σ α) :
    Act σ α :=
  counted part kind path do
    match (← Act.within part Act.get).failure? kind path with
    | some e => throw e
    | none => a

end PageServer.Bench
