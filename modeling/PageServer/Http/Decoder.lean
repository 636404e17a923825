import PageServer.Http.Request
import PageServer.Numeral
import PageServer.Log

/-!
# Decoding requests

The decoder takes a request from the front of the bytes that have arrived. It
goes from the request line through the header fields to the body, which is as
long as `Content-Length` tells or comes in chunks, and keeps its place when the
bytes run out (`Decoder.step`, `Decoder.feed`). It takes no byte that is not
part of the request, so a following request stays where it is.

The request line, the header fields and the trailers count against a limit. A
line that would exceed it is an error as soon as its bytes are there, whether
its end has arrived or not. Chunk sizes and bodies do not count.
-/

namespace PageServer.Http

/-- Why bytes are not a request. -/
inductive DecodeError
  | badMethod
  | missingTarget
  | unsupportedVersion (version : Bytes)
  | headerTooLong (limit : Nat)
  | namelessField
  | badLength (value : Bytes)
  | badChunkSize (line : Bytes)
  | chunkTooLarge (size : Bytes)
  | openChunk
  deriving DecidableEq, Repr

/-- The error in words. -/
def DecodeError.message : DecodeError → Bytes
  | badMethod => "bad method in request line"
  | missingTarget => "missing request target"
  | unsupportedVersion version => "unsupported protocol version '" ++ version ++ "'"
  | headerTooLong limit => "header section exceeds " ++ Numeral.ofNat limit ++ " bytes"
  | namelessField => "header line without field name"
  | badLength value => "bad Content-Length '" ++ value ++ "'"
  | badChunkSize line => "bad chunk size '" ++ line ++ "'"
  | chunkTooLarge size => "chunk too large '" ++ size ++ "'"
  | openChunk => "chunk not terminated by CRLF"

/-- What the decoder expects next. -/
inductive Stage
  | requestLine
  | fields
  /-- So many more bytes of the body. -/
  | body (remaining : Nat)
  | chunkSize
  /-- A chunk of so many bytes, and the end of its line. -/
  | chunk (size : Nat)
  | trailers
  | complete
  deriving DecidableEq, Repr

/-- A decoder in the middle of a request. -/
structure Decoder where
  /-- How many bytes lines of the header section may have in all. -/
  limit : Nat := 65536
  stage : Stage := .requestLine
  /-- The request as far as it is known. -/
  request : Request := {}
  /-- How many bytes of the header section were taken. -/
  counted : Nat := 0
  error : Option DecodeError := none

namespace Decoder

/-- The decoder at the start of the next request. -/
def reset (d : Decoder) : Decoder := { limit := d.limit }

/-- The line in front of the bytes, and what follows its CRLF. -/
def cutLine (bytes : Bytes) : Option (Bytes × Bytes) :=
  match Bytes.find? [13, 10] bytes with
  | none => none
  | some i => some (bytes.take i, bytes.drop (i + 2))

/-- Takes in a request line: method, target and version, each after a blank. -/
def onRequestLine (d : Decoder) (line : Bytes) : Except (DecodeError × Decoder) Decoder :=
  match line.break1 Byte.blank with
  | (_, none) => .error (.badMethod, d)
  | (token, some rest) =>
    let d := { d with request := d.request.withToken token }
    if d.request.method = .invalid then .error (.badMethod, d)
    else
      match rest.break1 Byte.blank with
      | (_, none) => .error (.missingTarget, d)
      | ([], some _) => .error (.missingTarget, d)
      | (target, some version) =>
        let d := { d with request := d.request.withTarget target }
        match Version.ofText version with
        | none => .error (.unsupportedVersion version, d)
        | some v => .ok { d with request := { d.request with version := v }, stage := .fields }

/-- Takes in a header line: a name, a colon and a value. -/
def onField (d : Decoder) (line : Bytes) : Except (DecodeError × Decoder) Decoder :=
  match line.break1 Byte.colon with
  | (_, none) => .error (.namelessField, d)
  | ([], some _) => .error (.namelessField, d)
  | (name, some value) => .ok { d with request := d.request.withField name value.trim }

/-- Decides, at the end of the header section, what body follows. -/
def onFieldsEnd (d : Decoder) : Except (DecodeError × Decoder) Decoder :=
  if (d.request.field "Transfer-Encoding").lower.contains "chunked" then
    .ok { d with stage := .chunkSize }
  else if d.request.hasField "Content-Length" then
    let value := d.request.field "Content-Length"
    match Numeral.count 10 value.trim with
    | none => .error (.badLength value, d)
    | some 0 => .ok { d with stage := .complete }
    | some n => .ok { d with stage := .body n }
  else .ok { d with stage := .complete }

/-- The greatest size of a chunk: its bytes and the CRLF after them can still
    be counted. -/
def maxChunk : Nat := wordCount - 3

/-- Takes in a chunk size line: a hexadecimal count, and whatever follows a
    semicolon. -/
def onChunkSize (d : Decoder) (line : Bytes) : Except (DecodeError × Decoder) Decoder :=
  let size := (line.break1 Byte.semicolon).1.trim
  match Numeral.count 16 size with
  | none => .error (.badChunkSize line, d)
  | some 0 => .ok { d with stage := .trailers }
  | some n =>
    if maxChunk < n then .error (.chunkTooLarge size, d) else .ok { d with stage := .chunk n }

/-- Takes in a line of the header section. -/
def onHeaderLine (d : Decoder) (line : Bytes) : Except (DecodeError × Decoder) Decoder :=
  match d.stage, line with
  | .requestLine, _ => d.onRequestLine line
  | .fields, [] => d.onFieldsEnd
  | .fields, _ => d.onField line
  | _, [] => .ok { d with stage := .complete }
  | _, _ => .ok d

/-- What one step of the decoder came to, and the bytes it left. -/
inductive Step
  /-- More bytes are needed. -/
  | wait (d : Decoder) (rest : Bytes)
  /-- The bytes are no request. -/
  | fail (d : Decoder) (rest : Bytes)
  /-- The decoder got on. -/
  | go (d : Decoder) (rest : Bytes)

/-- Goes on with the rest, or stops with the error. -/
def Step.ofResult (rest : Bytes) : Except (DecodeError × Decoder) Decoder → Step
  | .ok d => .go d rest
  | .error (e, d) => .fail { d with error := some e } rest

/-- Takes one line of the header section off the bytes. -/
def stepHeaderLine (d : Decoder) (bytes : Bytes) : Step :=
  match cutLine bytes with
  | none =>
    if d.limit < d.counted + bytes.length then .ofResult bytes (.error (.headerTooLong d.limit, d))
    else .wait d bytes
  | some (line, rest) =>
    let used := line.length + 2
    if d.limit < d.counted + used then .ofResult bytes (.error (.headerTooLong d.limit, d))
    else .ofResult rest ({ d with counted := d.counted + used }.onHeaderLine line)

/-- Takes a chunk size line off the bytes. -/
def stepChunkSize (d : Decoder) (bytes : Bytes) : Step :=
  match cutLine bytes with
  | none => .wait d bytes
  | some (line, rest) => .ofResult rest (d.onChunkSize line)

/-- The request with more bytes at the end of its body. -/
def appendBody (d : Decoder) (bytes : Bytes) : Decoder :=
  { d with request := { d.request with body := d.request.body ++ bytes } }

/-- Takes a chunk and the CRLF after it off the bytes, once all of it is
    there. -/
def stepChunk (d : Decoder) (size : Nat) (bytes : Bytes) : Step :=
  if bytes.length < size + 2 then .wait d bytes
  else
    match bytes.drop size with
    | 13 :: 10 :: rest => .go { d.appendBody (bytes.take size) with stage := .chunkSize } rest
    | _ => .ofResult bytes (.error (.openChunk, d))

/-- Takes what there is of a body of known length. -/
def stepBody (d : Decoder) (remaining : Nat) (bytes : Bytes) : Step :=
  let d' := d.appendBody (bytes.take remaining)
  let rest := bytes.drop remaining
  if bytes.length < remaining then
    .wait { d' with stage := .body (remaining - bytes.length) } rest
  else .go { d' with stage := .complete } rest

/-- One step, at a stage other than `Stage.complete`. -/
def step (d : Decoder) (bytes : Bytes) : Step :=
  match d.stage with
  | .requestLine | .fields | .trailers => d.stepHeaderLine bytes
  | .chunkSize => d.stepChunkSize bytes
  | .chunk size => d.stepChunk size bytes
  | .body remaining => d.stepBody remaining bytes
  | .complete => .wait d bytes

/-- What feeding the decoder came to. -/
inductive Status
  | needMore
  | complete
  | error
  deriving DecidableEq, Repr

/-- The status, the decoder after it and the bytes left. -/
structure Fed where
  status : Status
  decoder : Decoder
  rest : Bytes

/-- At most `rounds` steps on the bytes. -/
def feedFor : Nat → Decoder → Bytes → Fed
  | 0, d, bytes => ⟨if d.stage = .complete then .complete else .needMore, d, bytes⟩
  | rounds + 1, d, bytes =>
    if d.stage = .complete then ⟨.complete, d, bytes⟩
    else
      match d.step bytes with
      | .wait d' rest => ⟨.needMore, d', rest⟩
      | .fail d' rest => ⟨.error, d', rest⟩
      | .go d' rest => feedFor rounds d' rest

/-- Decodes as far as the bytes reach. Every step that gets on takes a byte, so
    one more step than there are bytes is enough. After an error the decoder
    stays where it is. -/
def feed (d : Decoder) (bytes : Bytes) : Fed :=
  match d.error with
  | some _ => ⟨.error, d, bytes⟩
  | none => feedFor (bytes.length + 1) d bytes

/-- The record that a decoding makes: only an error that is new makes one. -/
def feedLog (d : Decoder) (fed : Fed) : List Log.Record :=
  match d.error, fed.decoder.error with
  | none, some e => [⟨.debug, "HttpContext: " ++ e.message⟩]
  | _, _ => []

end Decoder

end PageServer.Http
