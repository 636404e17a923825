import PageServer.Http.Method
import PageServer.Table

/-!
# Requests

A request is a method, a target split at its first `?`, a version, header
fields and a body. Field names are the same up to letter case: a field that is
set again keeps its first spelling and gets the last value.

* `Request.keepAlive`: whether the connection stays open after the answer.
-/

namespace PageServer.Http

/-- Header fields by name, in the order of their names up to letter case. -/
abbrev Fields := Table Bytes.compareFolded Bytes

/-- One request. -/
structure Request where
  method : Method := .invalid
  /-- The method as it was written. -/
  token : Bytes := []
  version : Version := .unknown
  /-- The target before the first `?`. -/
  path : Bytes := []
  /-- The target from the first `?` on. -/
  query : Bytes := []
  fields : Fields := .empty
  body : Bytes := []

namespace Request

/-- The request with a method. -/
def withMethod (r : Request) (method : Method) : Request :=
  { r with method, token := method.name }

/-- The request with a method token. -/
def withToken (r : Request) (token : Bytes) : Request :=
  { r with method := .ofToken token, token }

/-- The request with a target. -/
def withTarget (r : Request) (target : Bytes) : Request :=
  { r with
    path := target.takeWhile (· != Byte.question)
    query := target.dropWhile (· != Byte.question) }

/-- The whole target. -/
def target (r : Request) : Bytes := r.path ++ r.query

/-- The request with a header field. -/
def withField (r : Request) (name value : Bytes) : Request :=
  { r with fields := r.fields.insert name value }

/-- The value of a header field, empty if there is none. -/
def field (r : Request) (name : Bytes) : Bytes := (r.fields.get? name).getD []

/-- Whether there is a header field of the name. -/
def hasField (r : Request) (name : Bytes) : Bool := r.fields.contains name

/-- Whether the connection stays open: a request of version 1.1 has to ask for
    its end, any other one for its continuation. -/
def keepAlive (r : Request) : Bool :=
  match r.version with
  | .http11 => !(r.field "Connection").sameFolded "close"
  | _ => (r.field "Connection").sameFolded "keep-alive"

end Request

end PageServer.Http
