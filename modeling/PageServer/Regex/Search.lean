import PageServer.Regex.Pattern

/-!
# Searching for patterns

A pattern is searched for from every place of a text, the first place first.
From one place on it is matched by backtracking: what can be matched in several
ways is matched in one, and if the rest fails after it, in the next.

A repetition that matches without taking a byte would go on forever. So each
repetition remembers where it started its body last, and starts it from the same
place twice at most.

What a lookahead captures stays captured, also when the rest fails after it;
this is why a failure has captures too.
-/

namespace PageServer.Regex

/-- A place in a text. -/
structure Place where
  index : Nat := 0
  /-- The byte in front of the place. -/
  before : Option Byte := none
  /-- The bytes behind the place. -/
  rest : Bytes
  deriving DecidableEq, Repr

/-- The next place. -/
def Place.next? (p : Place) : Option (Byte × Place) :=
  match p.rest with
  | [] => none
  | b :: rest => some (b, ⟨p.index + 1, some b, rest⟩)

/-- What the groups have matched so far. -/
abbrev Captures := List (Nat × Bytes)

/-- The captures with those of one group replaced. -/
def Captures.put (c : Captures) (group : Nat) (text : Option Bytes) : Captures :=
  match text with
  | some t => (group, t) :: c.filter (·.1 != group)
  | none => c.filter (·.1 != group)

/-- How a match went. -/
inductive Verdict
  | matched (captures : Captures)
  | failed (captures : Captures)
  deriving DecidableEq, Repr

/-- Tries another way if the match failed. -/
def Verdict.orElse (v : Verdict) (other : Captures → Verdict) : Verdict :=
  match v with
  | .matched c => .matched c
  | .failed c => other c

/-- A repetition, by its place in the pattern. -/
abbrev LoopId := List Nat

/-- Where each repetition started its body last, and how often it did there. -/
abbrev Starts := List (LoopId × Nat × Nat)

/-- Starts the body of a repetition at a place, unless it was started there
    twice. -/
def Starts.enter (s : Starts) (loop : LoopId) (index : Nat) : Option Starts :=
  let others := s.filter (·.1 != loop)
  match s.lookup loop with
  | none => some ((loop, index, 1) :: others)
  | some (last, times) =>
    if last ≠ index then some ((loop, index, 1) :: others)
    else if times < 2 then some ((loop, index, times + 1) :: others)
    else none

/-- A match to go on with. -/
abbrev Rest := Starts → Captures → Place → Verdict

/-- Where a match started, and whether that is known to be inside the text. -/
structure Origin where
  index : Nat := 0
  inside : Bool := false

/-- Whether a place is the start of the text, as far as the match can tell. -/
def Origin.isTextStart (o : Origin) (p : Place) : Bool := p.index == o.index && !o.inside

/-- Whether a byte belongs to a word. -/
def isWordByte (b : Option Byte) : Bool := b.any ByteClass.word.contains

/-- Whether exactly one side of a place belongs to a word. The byte in front of
    the origin counts only if the origin is inside the text. -/
def Origin.isWordEdge (o : Origin) (p : Place) : Bool :=
  let left := if p.index != o.index || o.inside then p.before else none
  isWordByte left != isWordByte p.rest.head?

/-- Goes on from a place if a condition holds. -/
def guarded (condition : Place → Bool) (rest : Rest) : Rest := fun starts captures p =>
  if condition p then rest starts captures p else .failed captures

/-- Matches one byte of a set. -/
def matchByte (set : ByteSet) (rest : Rest) : Rest := fun starts captures p =>
  match p.next? with
  | some (b, p') => if set.contains b then rest starts captures p' else .failed captures
  | none => .failed captures

/-- Starts a body and goes on behind it, or passes it over; a greedy one tries
    the body first. -/
def passOr (greedy : Bool) (loop : LoopId) (body : Rest) (rest : Rest) : Rest :=
  fun starts captures p =>
    let inside (c : Captures) : Verdict :=
      match starts.enter loop p.index with
      | some starts' => body starts' c p
      | none => .failed c
    if greedy then (inside captures).orElse fun c => rest starts c p
    else (rest starts captures p).orElse inside

/-- Matches a body any number of times, at most so many. -/
def matchMany (greedy : Bool) (loop : LoopId) (body : Rest → Rest) (rest : Rest) : Nat → Rest
  | 0 => rest
  | n + 1 => passOr greedy loop (body (matchMany greedy loop body rest n)) rest

/-- Matches a body any number of times. It is started twice at most at each
    place, so that twice as often as there are places is enough. -/
def matchLoop (greedy : Bool) (loop : LoopId) (body : Rest → Rest) (rest : Rest) : Rest :=
  fun starts captures p =>
    matchMany greedy loop body rest (2 * (p.rest.length + 1)) starts captures p

/-- Matches the bodies from the `first`-th to the one before the `first + n`-th
    in a row. -/
def matchCopies (body : Nat → Rest → Rest) (first : Nat) (rest : Rest) : Nat → Rest
  | 0 => rest
  | n + 1 => body first (matchCopies body (first + 1) rest n)

/-- Matches at most `n` bodies in a row, from the `first`-th. -/
def matchUpTo (greedy : Bool) (loop : Nat → LoopId) (body : Nat → Rest → Rest) (rest : Rest)
    (first : Nat) : Nat → Rest
  | 0 => rest
  | n + 1 =>
    passOr greedy (loop first)
      (body first (matchUpTo greedy loop body rest (first + 1) n)) rest

/-- Matches what a group has captured. -/
def matchCaptured (group : Nat) (rest : Rest) : Rest := fun starts captures p =>
  match captures.lookup group with
  | none => .failed captures
  | some text =>
    if text.isPrefixOf p.rest then
      rest starts captures
        ⟨p.index + text.length, if text.isEmpty then p.before else text.getLast?,
          p.rest.drop text.length⟩
    else .failed captures

/-- Captures what was matched since a place. If the rest fails, the group gets
    back what it had. -/
def capture (group : Nat) (start : Place) (rest : Rest) : Rest := fun starts captures p =>
  let text := start.rest.take (p.index - start.index)
  match rest starts (captures.put group (some text)) p with
  | .matched c => .matched c
  | .failed c => .failed (c.put group (captures.lookup group))

/-- Looks ahead: goes on from the same place if the body matches there, or if it
    does not. -/
def lookAhead (negated : Bool) (body : Captures → Place → Verdict) (rest : Rest) : Rest :=
  fun starts captures p =>
    match body captures p with
    | .matched c => if negated then .failed c else rest starts c p
    | .failed _ => if negated then rest starts captures p else .failed captures

/-- The `n`-th part of a pattern that stands at a place. -/
def part (n : Nat) (id : LoopId) : LoopId := n :: id

/-- Matches a pattern and goes on behind it. -/
def matchPattern : Pattern → LoopId → Origin → Rest → Rest
  | .empty, _, _, rest => rest
  | .byte set, _, _, rest => matchByte set rest
  | .lineStart, _, o, rest => guarded o.isTextStart rest
  | .lineEnd, _, _, rest => guarded (fun p => p.rest.isEmpty) rest
  | .wordEdge negated, _, o, rest => guarded (fun p => o.isWordEdge p != negated) rest
  | .sequence a b, id, o, rest =>
    matchPattern a (part 0 id) o (matchPattern b (part 1 id) o rest)
  | .either a b, id, o, rest => fun starts captures p =>
    (matchPattern a (part 0 id) o rest starts captures p).orElse fun c =>
      matchPattern b (part 1 id) o rest starts c p
  | .many greedy p, id, o, rest => matchLoop greedy id (matchPattern p (part 0 id) o) rest
  | .atLeastOnce greedy p, id, o, rest =>
    matchPattern p (part 0 id) o (matchLoop greedy id (matchPattern p (part 0 id) o) rest)
  | .optional greedy p, id, o, rest => passOr greedy id (matchPattern p (part 0 id) o rest) rest
  | .counted least most greedy p, id, o, rest =>
    let body (i : Nat) : Rest → Rest := matchPattern p (part (2 * i) id) o
    let loop (i : Nat) : LoopId := part (2 * i + 1) id
    matchCopies body 0
      (match most with
        | none => matchLoop greedy (loop least) (body least) rest
        | some m => matchUpTo greedy loop body rest least (m - least)) least
  | .group index p, id, o, rest => fun starts captures start =>
    matchPattern p (part 0 id) o (capture index start rest) starts captures start
  | .backReference index, _, _, rest => matchCaptured index rest
  | .lookahead negated p, id, o, rest =>
    lookAhead negated
      (fun captures start =>
        matchPattern p (part 0 id) { o with index := start.index } (fun _ c _ => .matched c) []
          captures start)
      rest

namespace Pattern

/-- Whether the pattern matches from a place on. -/
def matchesAt (pattern : Pattern) (o : Origin) (p : Place) : Bool :=
  match matchPattern pattern [] o (fun _ c _ => .matched c) [] [] p with
  | .matched _ => true
  | .failed _ => false

/-- Whether the pattern matches from one of the places from the `index`-th on,
    all of which are inside the text. -/
def searchInside (pattern : Pattern) (index : Nat) (before : Byte) : Bytes → Bool
  | [] => pattern.matchesAt ⟨index, true⟩ ⟨index, some before, []⟩
  | b :: rest =>
    pattern.matchesAt ⟨index, true⟩ ⟨index, some before, b :: rest⟩ ||
      pattern.searchInside (index + 1) b rest

/-- Whether the pattern occurs in a text. -/
def occursIn (pattern : Pattern) (text : Bytes) : Bool :=
  pattern.matchesAt {} { rest := text } ||
    match text with
    | [] => false
    | b :: rest => pattern.searchInside 1 b rest

end Pattern

end PageServer.Regex
