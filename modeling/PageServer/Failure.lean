import PageServer.Numeral

/-!
# Failures

What can go wrong while the server works. A failure that a client is told about
has an HTTP status (`HttpError`); the others are those of the file system, of
the page store and of the filter patterns, and the ones nobody expects. Each
names its cause, and one function words it (`Failure.message`). The words are a
zero-terminated text: where a name in them holds a NUL byte, they end there.
-/

namespace PageServer

/-- A failure that is answered with an HTTP status. -/
inductive HttpError
  /-- The request makes no sense. -/
  | malformed (reason : Bytes)
  /-- No route for the method and the mapping path. The methods that the path
      does have are listed where there are any. -/
  | unmatched (method path : Bytes) (allowed : Option (List Bytes))
  /-- The page is not there. -/
  | pageNotFound (reason : Bytes)
  /-- A file could not be read. -/
  | backend (reason : Bytes)
  /-- Any other status. -/
  | other (status : Int) (reason : Bytes)
  deriving DecidableEq, Repr

namespace HttpError

/-- The status that answers the failure. -/
def status : HttpError → Int
  | malformed _ => 400
  | unmatched _ _ none => 404
  | unmatched _ _ (some _) => 405
  | pageNotFound _ => 404
  | backend _ => 500
  | other status _ => status

/-- The failure in words, to the full. -/
def text : HttpError → Bytes
  | malformed reason => reason
  | unmatched method path none => "No handler for " ++ method ++ " /" ++ path
  | unmatched method path (some _) => "Method " ++ method ++ " is not allowed for /" ++ path
  | pageNotFound reason => reason
  | backend reason => reason
  | other _ reason => reason

/-- The failure in words. -/
def message (e : HttpError) : Bytes := e.text.toNul

/-- The methods to offer instead. -/
def allowed : HttpError → List Bytes
  | unmatched _ _ (some methods) => methods
  | _ => []

end HttpError

/-- Anything that can go wrong. -/
inductive Failure
  | http (error : HttpError)
  /-- The file system has no such path. -/
  | noSuchPath (path : Bytes)
  /-- The file system failed in another way. -/
  | fileSystem (reason : Bytes)
  /-- The page store refused a page. -/
  | pageStore (reason : Bytes)
  /-- A filter pattern is wrong, or matching it took too much. -/
  | pattern (reason : Bytes)
  /-- A value that cannot be meant. -/
  | invalidArgument (reason : Bytes)
  /-- A length that no string can have, or a rule of the program broken. -/
  | logic (reason : Bytes)
  /-- Anything else. -/
  | unexpected (reason : Bytes)
  deriving DecidableEq, Repr

namespace Failure

/-- The failure in words, to the full. -/
def text : Failure → Bytes
  | http error => error.text
  | noSuchPath path => "Path does not exist: " ++ path
  | fileSystem reason => reason
  | pageStore reason => reason
  | pattern reason => reason
  | invalidArgument reason => reason
  | logic reason => reason
  | unexpected reason => reason

/-- The failure in words. -/
def message (e : Failure) : Bytes := e.text.toNul

/-- Whether the file system failed. -/
def isFileSystem : Failure → Bool
  | noSuchPath _ => true
  | fileSystem _ => true
  | _ => false

end Failure

end PageServer
