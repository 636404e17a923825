import PageServer.Load.Service
import PageServer.Worker.Pages

/-!
# The routes of the worker

* `GET /file/…` reads and `POST /file/…`, `PUT /file/…` write a page;
* `GET /files?path=…` lists a directory, `GET /info?path=…` tells a status;
* `GET /load?path=…` asks something of the loads of a path;
* `GET /health` tells that the worker is there, `GET /metrics` how it does.
-/

namespace PageServer.Worker

open Http

/-- What the routes work with, on states of type `σ`. -/
structure Desk (σ : Type) extends PageDesk σ where
  loader : Load.Loader σ

/-- The path that a target is about, with its escapes undone. -/
def pathOf (t : Target) : Except HttpError Bytes :=
  match t.get? "path" with
  | none => .error (.malformed "Missing 'path' parameter")
  | some [] => .error (.malformed "Missing 'path' parameter")
  | some text => .ok (Target.decodeReserved text)

namespace Desk

variable {σ : Type}

/-- Answers with 500 if the file system fails, and records it. -/
def orBackend {α : Type} (what path recorded : Bytes) (a : Act σ α) : Act σ α :=
  a.recover fun e => do
    if e.isFileSystem then
      Act.record .error (recorded ++ " " ++ path ++ " failed: " ++ e.message)
      throw (.http (.backend ("Failed to " ++ what ++ " " ++ path ++ ": " ++ e.message)))
    else throw e

/-- Lists a directory. -/
def list (desk : Desk σ) : Handler σ := fun _ target => do
  let path ← Act.ofExcept ((pathOf target).mapError .http)
  let entries ← orBackend "list" path "FileInfoHandler: list" (desk.files.list path)
  return Response.json 200 (FileStatus.jsonArray entries)

/-- Tells the status of a path. -/
def status (desk : Desk σ) : Handler σ := fun _ target => do
  let path ← Act.ofExcept ((pathOf target).mapError .http)
  let entry ← orBackend "get status of" path "FileInfoHandler: status" (desk.files.status path)
  return Response.json 200 (FileStatus.jsonArray [entry])

/-- Asks something of the loads of a path. -/
def load (desk : Desk σ) : Handler σ := fun _ target => do
  let path ← Act.ofExcept ((pathOf target).mapError .http)
  let o ← Act.ofExcept ((LoadOptions.ofTarget target).mapError fun f => .http f.error)
  Act.record .info ("LoadHandler: path=" ++ path ++ " " ++ o.text)
  let text ← orBackend "load" path "LoadHandler: load" (desk.loader.load path o)
  return Response.plain 200 text

/-- Tells that the worker is there. -/
def health : Handler σ := fun _ _ => pure (Response.plain 200 "worker is active")

/-- Tells how the worker does. The uptime is told as zero, as no clock is part
    of the state. -/
def metricsDocument (desk : Desk σ) : Handler σ := fun _ _ => do
  let m ← Act.within desk.metrics Act.get
  return Response.json 200 (m.document 0)

/-- The routes: method, mapping path and handler. -/
def routes (desk : Desk σ) : List (Method × Bytes × Handler σ) :=
  [(.get, "file", desk.read), (.post, "file", desk.write), (.put, "file", desk.write),
    (.get, "files", desk.list), (.get, "info", desk.status), (.get, "load", desk.load),
    (.get, "health", health), (.get, "metrics", desk.metricsDocument)]

/-- Adds routes one after the other. -/
def addAll {τ : Type} : List (Method × Bytes × Handler σ) → Router σ → Act τ (Router σ)
  | [], router => pure router
  | (method, path, handler) :: rest, router => do addAll rest (← router.add method path handler)

/-- Adds the routes of the worker. -/
def install {τ : Type} (desk : Desk σ) (router : Router σ) : Act τ (Router σ) := do
  let router ← addAll desk.routes router
  Act.record .info ("WorkerRoutes: installed " ++ Numeral.ofNat router.routes.size ++ " routes")
  return router

end Desk

end PageServer.Worker
