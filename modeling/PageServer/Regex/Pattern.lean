import PageServer.Regex.Token

/-!
# Patterns

A pattern is a choice between sequences of terms. A term is an assertion, or an
atom with any number of repetitions on it; an assertion cannot be repeated.
Groups are numbered in the order in which they open, the whole pattern being
group zero, and a back reference must be to a group that is closed.

* `Pattern.parse`: the pattern of a text;
* `Pattern.states`: how large the automaton of a pattern would be, which is
  limited.
-/

namespace PageServer.Regex

/-- A pattern. -/
inductive Pattern
  | empty
  | byte (set : ByteSet)
  | lineStart
  | lineEnd
  /-- A place with a word byte on exactly one side, or any other place. -/
  | wordEdge (negated : Bool)
  | sequence (first second : Pattern)
  /-- The first, or else the second. -/
  | either (first second : Pattern)
  | many (greedy : Bool) (body : Pattern)
  /-- Once or more. -/
  | atLeastOnce (greedy : Bool) (body : Pattern)
  | optional (greedy : Bool) (body : Pattern)
  /-- So many times, and up to a limit if there is one. -/
  | counted (least : Nat) (most : Option Nat) (greedy : Bool) (body : Pattern)
  | group (index : Nat) (body : Pattern)
  | backReference (index : Nat)
  /-- A place from which the body matches, or from which it does not. -/
  | lookahead (negated : Bool) (body : Pattern)
  deriving DecidableEq, Repr

namespace Pattern

/-- How many states the automaton of a pattern has. -/
def states : Pattern → Nat
  | empty | byte _ | lineStart | lineEnd | wordEdge _ | backReference _ => 1
  | sequence a b => a.states + b.states
  | either a b => a.states + b.states + 2
  | many _ p => p.states + 1
  | atLeastOnce _ p => p.states + 1
  | optional _ p => p.states + 2
  | counted least none _ p => 1 + least * p.states + (p.states + 1)
  | counted least (some most) _ p => 1 + least * p.states + 1 + (most - least) * (p.states + 1)
  | group _ p => p.states + 2
  | lookahead _ p => p.states + 2

/-- How many states an automaton may have. -/
def stateLimit : Nat := 100000

/-- A reader in the middle of a pattern. -/
structure Reading where
  /-- The tokens that were not taken yet. -/
  tokens : List Token
  /-- How many groups were opened. -/
  groups : Nat := 1
  /-- The groups that are open. -/
  opened : List Nat := [0]
  /-- How many states were made. -/
  made : Nat := 1

/-- A part of the reader. -/
abbrev Parse := StateT Reading (Except PatternError)

/-- The next token. -/
def peek : Parse Token := do return (← get).tokens.headD .stop

/-- Takes the next token. If there is none behind it, the reason comes to
    light. -/
def advance : Parse Unit := do
  match (← get).tokens.tail with
  | .bad e :: _ => throw e
  | rest => modify fun r => { r with tokens := rest }

/-- Makes so many states. -/
def make (n : Nat) : Parse Unit := do
  modify fun r => { r with made := r.made + n }
  if stateLimit < (← get).made then throw .tooManyStates

/-- The number that digits stand for. -/
def number (digits : Bytes) : Parse Nat := do
  let n := Numeral.value 10 digits
  if n < 0x80000000 then return n else throw .numberTooLarge

/-! ### Sets -/

/-- What stands in front of the place reached in a set, as far as it matters for
    a range. -/
inductive Before
  | nothing
  | byte (b : Byte)
  | class_
  deriving DecidableEq, Repr

/-- The entries with the byte in front among them. -/
def Before.settle (before : Before) (items : List SetItem) : List SetItem :=
  match before with
  | .byte b => items ++ [.byte b]
  | _ => items

/-- A range of two bytes. -/
def range (low high : Byte) : Parse SetItem :=
  if signedRank high < signedRank low then throw .badRange else pure (.range low high)

/-- The rest of a set, in at most so many steps. -/
def setItems : Nat → Before → List SetItem → Parse (List SetItem)
  | 0, _, _ => throw .unclosedSet
  | n + 1, before, items => do
    match ← peek with
    | .setClose =>
      advance
      return before.settle items
    | .element name =>
      advance
      match namedByte? name with
      | none => throw .unknownElement
      | some b => setItems n (.byte b) (before.settle items)
    | .equivalence name =>
      advance
      match namedByte? name with
      | none => throw .unknownEquivalence
      | some b => setItems n .class_ (before.settle items ++ [.folded b])
    | .className name =>
      advance
      match ByteClass.ofName? name with
      | none => throw .unknownClass
      | some c => setItems n .class_ (before.settle items ++ [.named c])
    | .class_ c negated =>
      advance
      setItems n .class_ (before.settle items ++ [if negated then .notNamed c else .named c])
    | .byte b =>
      advance
      setItems n (.byte b) (before.settle items)
    | .dash =>
      advance
      match ← peek, before with
      | .setClose, _ =>
        advance
        return before.settle items ++ [.byte Byte.minus]
      | _, .class_ => throw .badRangeStart
      | .byte high, .byte low =>
        advance
        setItems n .nothing (items ++ [← range low high])
      | .dash, .byte low =>
        advance
        setItems n .nothing (items ++ [← range low Byte.minus])
      | _, .byte _ => throw .badRangeEnd
      | _, .nothing => setItems n (.byte Byte.minus) items
    | _ => throw .unclosedSet

/-- The set after its opening bracket. A dash in front stands for itself. -/
def set (negated : Bool) : Parse Pattern := do
  let before ← match ← peek with
    | .byte b => do
      advance
      pure (Before.byte b)
    | .dash => do
      advance
      pure (Before.byte Byte.minus)
    | _ => pure Before.nothing
  let items ← setItems (← get).tokens.length before []
  make 1
  return .byte { negated, items }

/-! ### Repetitions -/

/-- Whether a repetition takes as much as it can: a `?` behind it says that it
    does not. -/
def greediness : Parse Bool := do
  match ← peek with
  | .optional =>
    advance
    return false
  | _ => return true

/-- A counted repetition, after its opening brace. -/
def countedRepeat (body : Pattern) : Parse Pattern := do
  let least ← match ← peek with
    | .count digits => do
      advance
      make 1
      number digits
    | _ => throw .badRepeat
  let most : Option Nat ← match ← peek with
    | .comma => do
      advance
      match ← peek with
      | .count digits =>
        advance
        pure (some (← number digits))
      | _ => pure none
    | _ => pure (some least)
  match ← peek with
  | .repeatClose => advance
  | _ => throw .unclosedRepeat
  let greedy ← greediness
  make (least * body.states)
  match most with
  | none => make (body.states + 1)
  | some m =>
    if m < least then throw .badRepeat
    make (1 + (m - least) * (body.states + 1))
  return .counted least most greedy body

/-- The repetitions of an atom, in at most so many steps. -/
def repeats : Nat → Pattern → Parse Pattern
  | 0, p => pure p
  | n + 1, p => do
    match ← peek with
    | .star =>
      advance
      let greedy ← greediness
      make 1
      repeats n (.many greedy p)
    | .plus =>
      advance
      let greedy ← greediness
      make 1
      repeats n (.atLeastOnce greedy p)
    | .optional =>
      advance
      let greedy ← greediness
      make 2
      repeats n (.optional greedy p)
    | .repeatOpen =>
      advance
      repeats n (← countedRepeat p)
    | _ => return p

/-! ### The grammar -/

/-- Takes the token that closes a group. -/
def closeGroup : Parse Unit := do
  match ← peek with
  | .groupClose => advance
  | _ => throw .unbalancedGroup

/-- A back reference. -/
def reference (digits : Bytes) : Parse Pattern := do
  let index ← number digits
  let r ← get
  if r.groups ≤ index then throw .noSuchGroup
  if r.opened.contains index then throw .openGroup
  make 1
  return .backReference index

/-- A term that consists of one token. -/
def simple (p : Pattern) : Parse Pattern := do
  advance
  make 1
  return p

mutual

/-- Sequences with bars between them. The number bounds how deep the grammar
    goes. -/
def choice : Nat → Parse Pattern
  | 0 => throw .unbalancedGroup
  | n + 1 => do
    let first ← terms n
    choiceFrom n first

/-- More sequences to choose from. -/
def choiceFrom : Nat → Pattern → Parse Pattern
  | 0, _ => throw .unbalancedGroup
  | n + 1, first => do
    match ← peek with
    | .bar =>
      advance
      let second ← terms n
      make 2
      choiceFrom n (.either first second)
    | _ => return first

/-- A sequence of terms. -/
def terms : Nat → Parse Pattern
  | 0 => throw .unbalancedGroup
  | n + 1 => do
    match ← term? n with
    | none =>
      make 1
      return .empty
    | some p => return .sequence p (← terms n)

/-- A term, if one starts here. -/
def term? : Nat → Parse (Option Pattern)
  | 0 => throw .unbalancedGroup
  | n + 1 => do
    match ← peek with
    | .lineStart => some <$> simple .lineStart
    | .lineEnd => some <$> simple .lineEnd
    | .wordEdge negated => some <$> simple (.wordEdge negated)
    | .lookaheadOpen negated =>
      advance
      let body ← choice n
      closeGroup
      make 2
      return some (.lookahead negated body)
    | _ =>
      match ← atom? n with
      | none => return none
      | some p => some <$> repeats (← get).tokens.length p

/-- An atom, if one starts here. -/
def atom? : Nat → Parse (Option Pattern)
  | 0 => throw .unbalancedGroup
  | n + 1 => do
    match ← peek with
    | .any => some <$> simple (.byte .inLine)
    | .byte b => some <$> simple (.byte (.single b))
    | .class_ c negated => some <$> simple (.byte { negated, items := [.named c] })
    | .backReference digits =>
      advance
      some <$> reference digits
    | .plainOpen =>
      advance
      make 1
      let body ← choice n
      closeGroup
      return some (.sequence .empty body)
    | .groupOpen =>
      advance
      make 1
      let index := (← get).groups
      modify fun r => { r with groups := index + 1, opened := index :: r.opened }
      let body ← choice n
      closeGroup
      modify fun r => { r with opened := r.opened.tail }
      make 1
      return some (.group index body)
    | .setOpen negated =>
      advance
      some <$> set negated
    | _ => return none

end

/-- A whole pattern. What is left over is taken for a group not opened. -/
def whole (depth : Nat) : Parse Pattern := do
  let p ← choice depth
  match ← peek with
  | .stop => return p
  | _ => throw .unbalancedGroup

/-- The pattern of a text. -/
def parse (text : Bytes) : Except PatternError Pattern :=
  let tokens := Token.list text
  match tokens with
  | .bad e :: _ => .error e
  | _ => (·.1) <$> (whole (4 * tokens.length + 4)).run { tokens }

end Pattern

end PageServer.Regex
