import PageServer.Http.Router
import PageServer.Pages.Store
import PageServer.Worker.Traffic

/-!
# Page requests

`/file/<id>/page/<index>` is a page. Reading it answers with its bytes, from an
offset on and up to a length if these are given, and never beyond its end. What
is not there is answered with 404.

Writing a page always answers with 200; a JSON object says whether it succeeded.
-/

namespace PageServer.Worker

open Http

/-- A page by file id and index. -/
structure PageAddress where
  id : Bytes
  index : Int
  deriving DecidableEq, Repr

/-- The address that the segments of a target give. -/
def PageAddress.ofTarget (t : Target) : Except HttpError PageAddress :=
  match t.segments with
  | id :: kind :: index :: _ =>
    if kind != "page" then .error (.malformed "Expected /file/\x7bid\x7d/page/\x7bindex\x7d")
    else
      match Target.readNumber index "page index" with
      | .error fault => .error fault.error
      | .ok n => if n < 0 then .error (.malformed ("Negative page index " ++ index)) else .ok ⟨id, n⟩
  | _ => .error (.malformed "Expected /file/\x7bid\x7d/page/\x7bindex\x7d")

/-- A number among the parameters of a target. -/
def numberOf (t : Target) (key : Bytes) : Except HttpError (Option Int) :=
  match t.number? key with
  | .error fault => .error fault.error
  | .ok n => .ok n

/-- A length, cut at the end of the page. The end is found out by a sum of two
    numbers of sixty-four bits; if it is none itself, it is taken for a negative
    number, and the length stays. -/
def clampLength (pageSize offset length : Int) : Int :=
  if pageSize < wrapInt64 (offset + length) then pageSize - offset else length

/-- The offset and the length that a target gives, each of them within the page;
    the length may reach beyond its end. -/
def givenRange (t : Target) (pageSize : Int) : Except HttpError (Int × Int) := do
  let offset? ← numberOf t "offset"
  let length? ← numberOf t "length"
  let offset ← match offset? with
    | none => pure 0
    | some n =>
      if n < 0 ∨ pageSize < n then
        throw (.malformed ("Offset " ++ Numeral.ofInt n ++ " outside page of " ++
          Numeral.ofInt pageSize ++ " bytes"))
      else pure n
  let length ← match length? with
    | none => pure (pageSize - offset)
    | some n =>
      if n < 0 ∨ pageSize < n then throw (.malformed ("Invalid length " ++ Numeral.ofInt n))
      else pure n
  return (offset, length)

/-- The bytes of a page that a target asks for: the first of them and how
    many. -/
def rangeOf (t : Target) (pageSize : Int) : Except HttpError (Int × Int) := do
  let (offset, length) ← givenRange t pageSize
  return (offset, clampLength pageSize offset length)

/-- The longest answer that can be held. -/
def maxAnswer : Int := 0x3fffffffffffffff

/-- Reads the bytes of a page where it is kept. A page whose file is gone is
    not there. -/
def readAt {σ : Type} (files : FileSystem σ) (address : PageAddress) (location : PageLocation σ)
    (offset length : Int) : Act σ Bytes := do
  let source := location.source.getD files
  let found ← Act.recover
    (do
      let file ← source.openFile location.path
      source.read file (wrapInt64 (location.base + offset)) length)
    fun e => do
      match e with
      | .noSuchPath _ => throw (.http (.pageNotFound e.message))
      | .fileSystem _ =>
        Act.record .error
          ("PageHandler: reading " ++ location.path ++ " failed: " ++ e.message)
        throw (.http (.backend ("Failed to read page: " ++ e.message)))
      | _ => throw e
  match found with
  | some bytes => return bytes
  | none =>
    throw (.http (.pageNotFound ("Page " ++ Numeral.ofInt address.index ++ " of " ++ address.id ++
      " has no data at offset " ++ Numeral.ofInt offset)))

/-- What page requests work with, on states of type `σ`. -/
structure PageDesk (σ : Type) where
  files : FileSystem σ
  pages : PageStore σ
  metrics : Part σ Metrics

namespace PageDesk

variable {σ : Type}

/-- Adds to a counter. -/
def count (desk : PageDesk σ) (name : Bytes) (n : Int) : Act σ Unit :=
  Act.within desk.metrics (Act.modify fun m => m.add name n)

/-- Reads a page. -/
def read (desk : PageDesk σ) : Handler σ := fun _ target => do
  let address ← Act.ofExcept ((PageAddress.ofTarget target).mapError .http)
  let (offset, length) ← Act.ofExcept ((rangeOf target desk.pages.pageSize).mapError .http)
  desk.count bytesRequested length
  match ← desk.pages.locate address.id address.index with
  | none =>
    throw (.http (.pageNotFound
      ("Page " ++ Numeral.ofInt address.index ++ " of " ++ address.id ++ " is not cached")))
  | some location =>
    if maxAnswer < length then throw (.logic "basic_string::_M_create")
    let bytes ← readAt desk.files address location offset length
    desk.count bytesServed length
    return ((Response.withStatus {} 200).withType "text/plain").withContent (.streamed bytes)

/-- What came of a write that failed. -/
def writeFailed (request : Request) (e : Failure) : Act σ WriteOutcome := do
  match e with
  | .http (.malformed _) => pure ()
  | _ => Act.record .error ("PageHandler: write " ++ request.target ++ " failed: " ++ e.message)
  return ⟨false, "Failed to write page: " ++ e.message⟩

/-- Writes the body of a request as a page. -/
def store (desk : PageDesk σ) (request : Request) (target : Target) : Act σ WriteOutcome := do
  let address ← Act.ofExcept ((PageAddress.ofTarget target).mapError .http)
  if ← desk.pages.write address.id address.index request.body then
    return ⟨true, "Page written successfully"⟩
  else return ⟨false, "Failed to write page"⟩

/-- Writes a page, and tells how it went. -/
def write (desk : PageDesk σ) : Handler σ := fun request target => do
  let outcome ←
    if request.body.isEmpty then pure WriteOutcome.missingBody
    else (desk.store request target).recover (writeFailed request)
  return Response.json 200 outcome.json

end PageDesk

end PageServer.Worker
