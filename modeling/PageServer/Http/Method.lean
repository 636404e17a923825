import PageServer.Bytes

/-!
# Methods and versions

A method token is any run of capital letters; five of them have a meaning of
their own, and the rest are `Method.other`, so that a request with one can
still be answered. A token that is no such run is `Method.invalid`.
-/

namespace PageServer.Http

/-- The method of a request. -/
inductive Method
  | invalid
  | get
  | post
  | head
  | put
  | delete
  | other
  deriving DecidableEq, Repr

namespace Method

/-- The token of a method; those without a token of their own share one. -/
def name : Method → Bytes
  | get => "GET"
  | post => "POST"
  | head => "HEAD"
  | put => "PUT"
  | delete => "DELETE"
  | invalid | other => "UNKNOWN"

/-- The method of a token. -/
def ofToken (token : Bytes) : Method :=
  if token.isEmpty ∨ ¬ token.all Byte.isUpper then invalid
  else ([get, post, head, put, delete].find? (·.name = token)).getD other

end Method

/-- The protocol version of a request. -/
inductive Version
  | unknown
  | http10
  | http11
  deriving DecidableEq, Repr

/-- The version that a request line ends with. -/
def Version.ofText (text : Bytes) : Option Version :=
  if text = "HTTP/1.1" then some .http11
  else if text = "HTTP/1.0" then some .http10
  else none

end PageServer.Http
