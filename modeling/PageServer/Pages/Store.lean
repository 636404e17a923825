import PageServer.Files.Status

/-!
# Page stores

A page store keeps the pages of cached files. A page has a file id and an index
and at most as many bytes as the page size. The store tells where a page is, and
the reader finds it there.
-/

namespace PageServer

/-- Where a page is: in which file, and from which byte on. Without a source the
    file is one of the server's file system. -/
structure PageLocation (σ : Type) where
  path : Bytes
  base : Int := 0
  source : Option (FileSystem σ) := none

/-- A page store with states of type `σ`. -/
structure PageStore (σ : Type) where
  pageSize : Int
  /-- Writes a page. The store may decline to. -/
  write : Bytes → Int → Bytes → Act σ Bool
  /-- Where a page is, if it is there. -/
  locate : Bytes → Int → Act σ (Option (PageLocation σ))

/-- What came of writing a page, as the client is told. -/
structure WriteOutcome where
  success : Bool
  message : Bytes
  deriving DecidableEq, Repr

namespace WriteOutcome

/-- The outcome of a write without a page. -/
def missingBody : WriteOutcome := ⟨false, "The HTTP request doesn't have body content"⟩

/-- The outcome as a JSON object. -/
def json (w : WriteOutcome) : Bytes :=
  Json.object [("success", Json.bool w.success), ("message", Json.string w.message)]

end WriteOutcome

/-- Whether a text can be a file id: it names a file in a directory, and nothing
    outside it. -/
def isFileId (id : Bytes) : Bool :=
  !id.isEmpty && id != "." && !id.contains [Byte.slash] && !id.contains ".."

end PageServer
