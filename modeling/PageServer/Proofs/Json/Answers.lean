import PageServer.Load.Job
import PageServer.Pages.Store
import PageServer.Proofs.Json.Written

/-!
# Answers read back

A client that reads the JSON it is answered has what the server had: entries of a listing
(`FileEntry.ofValue`), the outcome of a write (`WriteOutcome.ofValue`) and the report of a load
(`Load.Report.ofValue`). No text in them makes a difference, whatever its bytes are
(`Json.answers_read_back`).
-/

namespace PageServer

namespace Json.Value

/-- The value of the first member with the name. -/
def member? (name : Bytes) : Value → Option Value
  | object members => members.lookup name
  | _ => none

def string? : Value → Option Bytes
  | string s => some s
  | _ => none

def integer? : Value → Option Int
  | number n 0 => some n
  | _ => none

def bool? : Value → Option Bool
  | bool b => some b
  | _ => none

/-- What each value of an array is read as. -/
def each? {α : Type} (f : Value → Option α) : Value → Option (List α)
  | array values => values.mapM f
  | _ => none

theorem each?_array {α : Type} {f : Value → Option α} {value : α → Value}
    (h : ∀ a, f (value a) = some a) (l : List α) : each? f (array (l.map value)) = some l := by
  induction l with
  | nil => rfl
  | cons a l ih =>
    rw [each?] at ih ⊢
    rw [List.map_cons, List.mapM_cons, h, ih]
    rfl

end Json.Value

open Json

/-! ### Entries -/

namespace FileEntry

/-- The entry that a value tells of. -/
def ofValue (v : Value) : Option FileEntry := do
  let type ← (← v.member? "type").string?
  let name ← (← v.member? "name").string?
  let path ← (← v.member? "logicalPath").string?
  let backing ← (← v.member? "backingPath").string?
  let modified ← (← v.member? "lastModifiedMillis").integer?
  let length ← (← v.member? "lengthBytes").integer?
  return { type, name, path, backing, modified, length }

/-- The members of an entry. -/
def members (e : FileEntry) : List Member :=
  [.ofString "type" e.type, .ofString "name" e.name, .ofString "logicalPath" e.path,
    .ofString "backingPath" e.backing, .ofInt "lastModifiedMillis" e.modified,
    .ofInt "lengthBytes" e.length]

/-- The entry as a value. -/
def value (e : FileEntry) : Value := .object (e.members.map fun m => (m.name, m.value))

theorem gives_json (e : FileEntry) : Gives e.json (some e.value) := gives_object e.members

theorem ofValue_value (e : FileEntry) : ofValue e.value = some e := rfl

theorem read_jsonArray (l : List FileEntry) :
    (read (jsonArray l)).bind (Value.each? ofValue) = some l := by
  rw [jsonArray, (gives_values l fun e _ => e.gives_json).read_eq]
  exact Value.each?_array ofValue_value l

end FileEntry

/-! ### Outcomes of writes -/

namespace WriteOutcome

/-- The outcome that a value tells of. -/
def ofValue (v : Value) : Option WriteOutcome := do
  let success ← (← v.member? "success").bool?
  let message ← (← v.member? "message").string?
  return { success, message }

theorem read_json (w : WriteOutcome) : (read w.json).bind ofValue = some w := by
  have hgives : Gives w.json _ :=
    gives_object [.ofBool "success" w.success, .ofString "message" w.message]
  rw [hgives.read_eq]
  rfl

end WriteOutcome

/-! ### Reports of loads -/

namespace Load

/-- What the report of a load tells. -/
structure Report where
  path : Bytes
  state : Bytes
  filesProcessed : Int
  filesTotal : Int
  filesSkipped : Int
  bytesLoaded : Int
  failureCount : Int
  /-- Why the load as a whole failed, if it did. -/
  error : Bytes
  /-- The files that failed, and why, if that was asked for. -/
  failures : Option (List (Bytes × Bytes))

namespace Report

/-- What is to be told of a job. -/
def ofJob (job : Job) (verbose : Bool) : Report where
  path := job.path
  state := job.state.name
  filesProcessed := job.tally.filesProcessed
  filesTotal := job.tally.filesTotal
  filesSkipped := job.tally.filesSkipped
  bytesLoaded := job.tally.bytesLoaded
  failureCount := job.tally.failures.length
  error := job.tally.error
  failures := if verbose then some job.tally.failures else none

/-- The failure that a value tells of. -/
def failureOfValue (v : Value) : Option (Bytes × Bytes) := do
  let path ← (← v.member? "path").string?
  let message ← (← v.member? "message").string?
  return (path, message)

/-- The failures that a value tells of, if it does. -/
def failuresOfValue (v : Value) : Option (Option (List (Bytes × Bytes))) :=
  match v.member? "failures" with
  | none => some none
  | some l => (l.each? failureOfValue).map some

/-- The report that a value tells of. There is no member for an error that there is none of. -/
def ofValue (v : Value) : Option Report := do
  let path ← (← v.member? "path").string?
  let state ← (← v.member? "state").string?
  let filesProcessed ← (← v.member? "filesProcessed").integer?
  let filesTotal ← (← v.member? "filesTotal").integer?
  let filesSkipped ← (← v.member? "filesSkipped").integer?
  let bytesLoaded ← (← v.member? "bytesLoaded").integer?
  let failureCount ← (← v.member? "failureCount").integer?
  let error ← ((v.member? "error").map Value.string?).getD (some [])
  let failures ← failuresOfValue v
  return ⟨path, state, filesProcessed, filesTotal, filesSkipped, bytesLoaded, failureCount, error,
    failures⟩

/-- A failure as a value. -/
def failureValue (f : Bytes × Bytes) : Value :=
  .object [("path", .string f.1), ("message", .string f.2)]

theorem gives_failureJson (f : Bytes × Bytes) :
    Gives (Job.failureJson f) (some (failureValue f)) :=
  gives_object [.ofString "path" f.1, .ofString "message" f.2]

/-- The members of a report. -/
def members (job : Job) (verbose : Bool) : List Member :=
  let t := job.tally
  [.ofString "path" job.path, .ofString "state" job.state.name,
    .ofInt "filesProcessed" t.filesProcessed, .ofInt "filesTotal" t.filesTotal,
    .ofInt "filesSkipped" t.filesSkipped, .ofInt "bytesLoaded" t.bytesLoaded,
    .ofInt "failureCount" t.failures.length] ++
  (if t.error.isEmpty then [] else [.ofString "error" t.error]) ++
  if verbose then
    [⟨"failures", array (t.failures.map Job.failureJson),
      .array (t.failures.map failureValue), gives_values _ fun f _ => gives_failureJson f⟩]
  else []

theorem gives_reportJson (job : Job) (verbose : Bool) :
    Gives (job.reportJson verbose)
      (some (.object ((members job verbose).map fun m => (m.name, m.value)))) := by
  have hgives := gives_object (members job verbose)
  have htext : object ((members job verbose).map fun m => (m.name, m.text)) =
      job.reportJson verbose := by
    rw [members, Job.reportJson]
    split <;> cases verbose <;> rfl
  rwa [htext] at hgives

theorem failureOfValue_failureValue (f : Bytes × Bytes) :
    failureOfValue (failureValue f) = some f := rfl

theorem failuresOfValue_members (job : Job) (verbose : Bool) :
    failuresOfValue (.object ((members job verbose).map fun m => (m.name, m.value))) =
      some (if verbose then some job.tally.failures else none) := by
  rw [members]
  cases verbose with
  | false => split <;> rfl
  | true =>
    have hfailures := Value.each?_array failureOfValue_failureValue job.tally.failures
    split <;> exact congrArg (Option.map some) hfailures

theorem read_reportJson (job : Job) (verbose : Bool) :
    (read (job.reportJson verbose)).bind ofValue = some (ofJob job verbose) := by
  rw [(gives_reportJson job verbose).read_eq, Option.bind_some, ofValue, failuresOfValue_members,
    members, ofJob]
  cases job.tally.error <;> cases verbose <;> rfl

end Report

end Load

/-! ### All of them -/

/-- Clients read back what they are answered. The reader takes just the JSON documents, bytes
    from `0x7f` up being characters of a string as any other; a string ends at its closing
    quote, whatever bytes it has and whatever follows. Entries are read back in their order, with
    every field; so are the outcome of a write and the report of a load, with an error if there
    is one, and with the failures if they were asked for. -/
theorem Json.answers_read_back :
    (∀ text v, read text = some v ↔ Document v text) ∧
      (∀ s rest, readString (string s ++ rest) = some (s, rest)) ∧
      (∀ l, (read (FileEntry.jsonArray l)).bind (Value.each? FileEntry.ofValue) = some l) ∧
      (∀ w : WriteOutcome, (read w.json).bind WriteOutcome.ofValue = some w) ∧
      ∀ (job : Load.Job) (verbose : Bool),
        (read (job.reportJson verbose)).bind Load.Report.ofValue =
          some (Load.Report.ofJob job verbose) :=
  ⟨fun _ _ => read_eq_some_iff, fun s rest => (stringText_string s).read rest,
    FileEntry.read_jsonArray, WriteOutcome.read_json, Load.Report.read_reportJson⟩

end PageServer
