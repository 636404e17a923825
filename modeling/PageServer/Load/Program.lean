import PageServer.Pages.Store

/-!
# Programs of a load

A load runs beside the requests, one call at a time: it asks the file system or
the page store for something, or looks at its own job or changes it, and goes on
with the reply. A program is this chain of calls and replies. It says nothing of
when a call is made, so that other things can happen between two of them.

* `Program.ofCall`: the program of one call;
* `Program.andThen`, `Program.recover`: programs in a row.
-/

namespace PageServer.Load

/-- How far a load is. -/
structure Tally where
  filesTotal : Int := 0
  filesProcessed : Int := 0
  filesSkipped : Int := 0
  bytesLoaded : Int := 0
  /-- The files that failed, and why. -/
  failures : List (Bytes × Bytes) := []
  /-- Why the load as a whole failed, if it did. -/
  error : Bytes := []
  deriving DecidableEq, Repr

/-- What a load asks for. -/
inductive Call
  | status (path : Bytes)
  | list (path : Bytes)
  | openFile (path : Bytes)
  | read (file : OpenFile) (position length : Int)
  /-- Whether a page is there. -/
  | isCached (id : Bytes) (index : Int)
  | writePage (id : Bytes) (index : Int) (data : Bytes)
  /-- Whether the load was told to stop. -/
  | isStopped
  | update (f : Tally → Tally)
  /-- Makes a record. -/
  | warn (message : Bytes)

/-- What the reply to a call is. -/
abbrev Call.Reply : Call → Type
  | status _ => FileStatus
  | list _ => List FileStatus
  | openFile _ => OpenFile
  | read _ _ _ => Option Bytes
  | isCached _ _ => Bool
  | writePage _ _ _ => Bool
  | isStopped => Bool
  | update _ => Unit
  | warn _ => Unit

/-- A program that ends with a value or with a failure. -/
inductive Program (α : Type)
  | done (result : Except Failure α)
  | call (c : Call) (next : Except Failure c.Reply → Program α)

namespace Program

variable {α β : Type}

/-- The program of one call. -/
def ofCall (c : Call) : Program c.Reply := .call c .done

/-- Goes on with the value of a program, unless it failed. -/
def andThen : Program α → (α → Program β) → Program β
  | done (.ok a), f => f a
  | done (.error e), _ => done (.error e)
  | call c next, f => call c fun r => (next r).andThen f

/-- Goes on with the failure of a program, if it failed. -/
def recover : Program α → (Failure → Program α) → Program α
  | done (.ok a), _ => done (.ok a)
  | done (.error e), f => f e
  | call c next, f => call c fun r => (next r).recover f

instance : Monad Program where
  pure a := done (.ok a)
  bind := andThen

/-- The program that fails. -/
def fail (e : Failure) : Program α := done (.error e)

/-- Makes the calls of a program one after the other. -/
def run {σ : Type} (perform : (c : Call) → Act σ c.Reply) : Program α → Act σ α
  | done r => Act.ofExcept r
  | call c next => fun s =>
    let o := perform c s
    let o' := run perform (next o.result) o.state
    ⟨o'.result, o'.state, o.log ++ o'.log⟩

end Program

end PageServer.Load
