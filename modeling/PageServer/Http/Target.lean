import PageServer.Failure
import PageServer.Table

/-!
# Request targets

A target names a mapping path, further segments and parameters:
`/mapping/segment/…?key=value&…`. Empty segments, and parameters with an empty
key, do not count; of two parameters with the same key the later one counts. A
scheme and an authority in front of the path are passed over.

Segments and values stand for themselves; only `/`, `:` and `?` have an escaped
form, which `decodeReserved` undoes.
-/

namespace PageServer.Http

/-- The parameters of a target by key. -/
abbrev Parameters := Table (compare : Bytes → Bytes → Ordering) Bytes

/-- A request target taken apart. -/
structure Target where
  /-- The first segment. -/
  mapping : Bytes
  /-- The segments after it. -/
  segments : List Bytes := []
  parameters : Parameters := .empty

namespace Target

/-- Why a text is no target. -/
inductive Fault
  | noPath (target : Bytes)
  | emptyMapping (target : Bytes)
  | badNumber (what text : Bytes)
  deriving DecidableEq, Repr

/-- The fault in words. -/
def Fault.message : Fault → Bytes
  | noPath target => "Request target has no path: '" ++ target ++ "'"
  | emptyMapping target => "Request target has an empty mapping path: '" ++ target ++ "'"
  | badNumber what text => "Invalid number for " ++ what ++ ": '" ++ text ++ "'"

/-- The fault as the failure of a request. -/
def Fault.error (f : Fault) : HttpError := .malformed f.message

/-- Whether a byte ends the authority. -/
def isPathStart (b : Byte) : Bool := b == Byte.slash || b == Byte.question

/-- The target without the scheme and authority in front of its path; a `://`
    inside the path or query does not count. -/
def dropAuthority (target : Bytes) : Bytes :=
  match Bytes.find? "://" target with
  | none => target
  | some i =>
    if (target.takeWhile fun b => !isPathStart b).length < i then target
    else (target.drop (i + 3)).dropWhile fun b => !isPathStart b

/-- The parameters of a query. -/
def parseQuery (query : Bytes) : Parameters :=
  (query.splitOn Byte.ampersand).foldl (fun table pair =>
    match Bytes.break1 Byte.equals pair with
    | ([], _) => table
    | (key, value) => table.insert key (value.getD [])) .empty

/-- Takes a target apart. -/
def parse (text : Bytes) : Except Fault Target :=
  let (path, query) := (dropAuthority text).break1 Byte.question
  match path with
  | 47 :: rest =>
    match (rest.splitOn Byte.slash).filter (!·.isEmpty) with
    | [] => .error (.emptyMapping text)
    | mapping :: segments => .ok { mapping, segments, parameters := parseQuery (query.getD []) }
  | _ => .error (.noPath text)

/-- The value of a parameter. -/
def get? (t : Target) (key : Bytes) : Option Bytes := t.parameters.get? key

/-- A number that fills a text. -/
def readNumber (text what : Bytes) : Except Fault Int :=
  match Numeral.exactSigned text with
  | some n => .ok n
  | none => .error (.badNumber what text)

/-- The number that a parameter holds, if it is there. -/
def number? (t : Target) (key : Bytes) : Except Fault (Option Int) :=
  match t.get? key with
  | none => .ok none
  | some text => some <$> readNumber text key

/-- Whether a parameter says `true`, in any letter case, if it is there. -/
def flag? (t : Target) (key : Bytes) : Option Bool := (t.get? key).map (·.sameFolded "true")

/-- The reserved byte that two digits after a `%` stand for. -/
def reserved? (high low : Byte) : Option Byte :=
  if high = 50 ∧ (low = 70 ∨ low = 102) then some Byte.slash
  else if high = 51 ∧ (low = 65 ∨ low = 97) then some Byte.colon
  else if high = 51 ∧ (low = 70 ∨ low = 102) then some Byte.question
  else none

/-- The text with the escapes of `/`, `:` and `?` undone. -/
def decodeReserved : Bytes → Bytes
  | [] => []
  | 37 :: high :: low :: rest =>
    match reserved? high low with
    | some b => b :: decodeReserved rest
    | none => 37 :: decodeReserved (high :: low :: rest)
  | b :: rest => b :: decodeReserved rest

end Target

end PageServer.Http
