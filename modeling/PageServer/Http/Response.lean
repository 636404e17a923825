import PageServer.Http.Request
import PageServer.Failure

/-!
# Responses

A response is a status with its reason, header fields and a content, which is
either buffered with the head or streamed right after it. Unlike those of a
request, field names are told apart by case.

On the wire (`Response.head`, `Response.bytes`) the stored fields come in the
order of their names, but `Connection` never as stored: it tells whether the
connection is closed. `Content-Type` and `Content-Length` are added where no
field of that very name is stored.
-/

namespace PageServer.Http

/-- What follows the head. -/
inductive Content
  /-- Sent together with the head. -/
  | buffered (bytes : Bytes)
  /-- Sent after the head. -/
  | streamed (bytes : Bytes)
  deriving DecidableEq, Repr

/-- The bytes of the content. -/
def Content.bytes : Content → Bytes
  | buffered b => b
  | streamed b => b

/-- One response. -/
structure Response where
  status : Int := 0
  reason : Bytes := []
  version : Version := .http11
  /-- Whether the connection is closed after it. -/
  close : Bool := false
  fields : Table (compare : Bytes → Bytes → Ordering) Bytes := .empty
  content : Content := .buffered []

namespace Response

/-- The usual reason of a status. -/
def phrase (status : Int) : Bytes :=
  if status = 200 then "OK"
  else if status = 400 then "Bad Request"
  else if status = 404 then "Not Found"
  else if status = 405 then "Method Not Allowed"
  else if status = 500 then "Internal Server Error"
  else "Unknown"

/-- The response with a status and its usual reason. -/
def withStatus (r : Response) (status : Int) : Response := { r with status, reason := phrase status }

/-- The response with a header field. -/
def withField (r : Response) (name value : Bytes) : Response :=
  { r with fields := r.fields.insert name value }

/-- The response with a content type. -/
def withType (r : Response) (type : Bytes) : Response := r.withField "Content-Type" type

/-- The response with a content, whose length becomes a field. -/
def withContent (r : Response) (content : Content) : Response :=
  { r with content }.withField "Content-Length" (Numeral.ofNat content.bytes.length)

/-- The value of a field, empty if there is none. -/
def field (r : Response) (name : Bytes) : Bytes := (r.fields.get? name).getD []

/-- A text with a status. -/
def plain (status : Int) (text : Bytes) : Response :=
  ((Response.withStatus {} status).withType "text/plain").withContent (.buffered text)

/-- A JSON document with a status. -/
def json (status : Int) (document : Bytes) : Response :=
  ((Response.withStatus {} status).withType "application/json").withContent (.buffered document)

/-- Methods to use instead, as the value of a field; empty names in front are
    left out. -/
def allowText (methods : List Bytes) : Bytes := Bytes.join ", " (methods.dropWhile (·.isEmpty))

/-- The response to a failure: its words, and the methods to use instead. -/
def ofError (e : HttpError) : Response :=
  let r := plain e.status e.message
  if e.allowed.isEmpty then r else r.withField "Allow" (allowText e.allowed)

/-- A field as a line. -/
def fieldLine (name value : Bytes) : Bytes := name ++ ": " ++ value ++ "\r\n"

/-- The status line. -/
def statusLine (r : Response) : Bytes :=
  (if r.version = .http10 then "HTTP/1.0 " else "HTTP/1.1 ") ++ Numeral.ofInt r.status ++ " " ++
    r.reason ++ "\r\n"

/-- The status line, the fields and the empty line. -/
def head (r : Response) : Bytes :=
  r.statusLine ++
    (r.fields.entries.flatMap fun f =>
      if f.1.sameFolded "Connection" then [] else fieldLine f.1 f.2) ++
    (if r.fields.contains "Content-Type" then [] else fieldLine "Content-Type" "text/plain") ++
    (if r.fields.contains "Content-Length" then []
      else fieldLine "Content-Length" (Numeral.ofNat r.content.bytes.length)) ++
    fieldLine "Connection" (if r.close then "close" else "keep-alive") ++ "\r\n"

/-- The whole response. -/
def bytes (r : Response) : Bytes := r.head ++ r.content.bytes

/-- The pieces in which the response is sent: a streamed content follows its
    head in a piece of its own. -/
def pieces (r : Response) : List Bytes :=
  match r.content with
  | .buffered b => [r.head ++ b]
  | .streamed b => [r.head, b]

end Response

end PageServer.Http
