import PageServer.Proofs.Json.Grammar

/-!
# Reading JSON

A reader of JSON documents (`Json.read`). It goes by the next byte: what a value is shows in the
byte it starts with, a number ends where the next byte is no part of one, and blanks are left
out wherever they may stand. It reads just the documents, each as the one value that it stands
for (`Json.read_eq_some_iff`).

Each reader takes something from the front of a text and leaves the rest. That nothing is missed
is told of every part of a document wherever it stands (`Json.TextOf.read`), and that nothing
else is taken of each reader by itself (`Json.ReadsOnly`).
-/

namespace PageServer.Json

variable {α : Type} {s t digits rest : Bytes} {v : Value}

/-! ### The reader -/

/-- The text without the blanks in front. -/
def skip (s : Bytes) : Bytes := s.dropWhile isBlank

/-- What stands in front of the first quote that is no part of an escape, and the rest behind
    that quote. -/
def readChars : Bytes → Option (Bytes × Bytes)
  | [] => none
  | b :: t =>
    if b = Byte.quote then some ([], t)
    else if b = Byte.backslash then
      match t with
      | 117 :: d₁ :: d₂ :: d₃ :: d₄ :: t =>
        if [d₁, d₂, d₃, d₄].all (Numeral.isDigitOf 16) then
          (readChars t).map fun r => (utf8 (Numeral.value 16 [d₁, d₂, d₃, d₄]) ++ r.1, r.2)
        else none
      | c :: t =>
        match shortEscapes.lookup c with
        | some b => (readChars t).map fun r => (b :: r.1, r.2)
        | none => none
      | [] => none
    else if b < 0x20 then none
    else (readChars t).map fun r => (b :: r.1, r.2)

/-- A string in front of the text, and the rest. -/
def readString : Bytes → Option (Bytes × Bytes)
  | 34 :: t => readChars t
  | _ => none

/-- The minus in front of the text, whether there is one, and the rest. -/
def takeMinus : Bytes → Bool × Bytes
  | 45 :: t => (true, t)
  | t => (false, t)

/-- The digits behind a point in front of the text, and the rest; no digits and the whole text
    if there is no such point. -/
def readFraction (s : Bytes) : Bytes × Bytes :=
  match s with
  | 46 :: t =>
    match Numeral.spanDigits 10 t with
    | ([], _) => ([], s)
    | r => r
  | _ => ([], s)

/-- A number in front of the text, and the rest. -/
def readNumber (s : Bytes) : Option (Value × Bytes) :=
  let (negative, t) := takeMinus s
  let (whole, t) := Numeral.spanDigits 10 t
  if whole = [] ∨ whole.head? = some 48 ∧ whole ≠ [48] then none
  else
    let (digits, t) := readFraction t
    let (power, rest) := Binary64.readExponent isExponentMark t
    some (.number (signed negative (Numeral.value 10 (whole ++ digits))) (power - digits.length),
      rest)

/-- The value that a word stands for, if the text starts with it, and the rest. -/
def readWord (word : Bytes) (v : Value) (s : Bytes) : Option (Value × Bytes) :=
  if word.isPrefixOf s then some (v, s.drop word.length) else none

/-- At most so many items with commas between them, and the rest behind the byte that closes
    them. -/
def readItems (item : Bytes → Option (α × Bytes)) (close : Byte) :
    Nat → Bytes → Option (List α × Bytes)
  | 0, _ => none
  | n + 1, s =>
    match item s with
    | some (a, b :: t) =>
      if b = close then some ([a], t)
      else if b = comma then (readItems item close n t).map fun r => (a :: r.1, r.2)
      else none
    | _ => none

/-- Items, or none of them, and the rest behind the byte that closes them. -/
def readList (item : Bytes → Option (α × Bytes)) (close : Byte) (s : Bytes) :
    Option (List α × Bytes) :=
  match skip s with
  | [] => none
  | b :: t => if b = close then some ([], t) else readItems item close s.length s

/-- A value with the blanks around it, and the rest. -/
def readPadded (value : Bytes → Option (Value × Bytes)) (s : Bytes) : Option (Value × Bytes) :=
  (value (skip s)).map fun r => (r.1, skip r.2)

/-- A member of an object, and the rest. -/
def readMember (value : Bytes → Option (Value × Bytes)) (s : Bytes) :
    Option ((Bytes × Value) × Bytes) :=
  match readString (skip s) with
  | none => none
  | some (name, t) =>
    match skip t with
    | 58 :: t => (readPadded value t).map fun r => ((name, r.1), r.2)
    | _ => none

/-- A value less than so deep in front of the text, and the rest. -/
def readValue : Nat → Bytes → Option (Value × Bytes)
  | 0, _ => none
  | n + 1, s =>
    match s with
    | 34 :: t => (readChars t).map fun r => (.string r.1, r.2)
    | 91 :: t =>
      (readList (readPadded (readValue n)) closeBracket t).map fun r => (.array r.1, r.2)
    | 123 :: t => (readList (readMember (readValue n)) closeBrace t).map fun r => (.object r.1, r.2)
    | _ =>
      (readWord "null" .null s).or
        ((readWord "true" (.bool true) s).or
          ((readWord "false" (.bool false) s).or (readNumber s)))

/-- The value of a JSON document. It is less deep than the text is long. -/
def read (text : Bytes) : Option Value :=
  match readPadded (readValue (text.length + 1)) text with
  | some (v, []) => some v
  | _ => none

/-! ### Strings -/

theorem lookup_shortEscapes {c b : Byte} :
    shortEscapes.lookup c = some b ↔ (c, b) ∈ shortEscapes := by
  constructor
  · intro h
    obtain ⟨l₁, l₂, heq, -⟩ := List.lookup_eq_some_iff.1 h
    rw [heq]
    exact List.mem_append_right _ List.mem_cons_self
  · intro h
    have hlookup : shortEscapes.all fun e => decide (shortEscapes.lookup e.1 = some e.2) := by
      decide
    exact of_decide_eq_true (List.all_eq_true.1 hlookup _ h)

theorem readChars_quote (t : Bytes) : readChars (Byte.quote :: t) = some ([], t) := by
  rw [readChars.eq_def]
  exact if_pos rfl

theorem readChars_plain {b : Byte} (hb : 0x20 ≤ b ∧ b ≠ Byte.quote ∧ b ≠ Byte.backslash)
    (t : Bytes) : readChars (b :: t) = (readChars t).map fun r => (b :: r.1, r.2) := by
  rw [readChars.eq_def]
  dsimp only
  rw [if_neg hb.2.1, if_neg hb.2.2, if_neg (UInt8.not_lt.2 hb.1)]

/-- No escape of one byte is marked as one of a code unit is. -/
theorem readChars_short {c b : Byte} (h : (c, b) ∈ shortEscapes) (t : Bytes) :
    readChars (Byte.backslash :: c :: t) = (readChars t).map fun r => (b :: r.1, r.2) := by
  have hmarks : shortEscapes.all fun e => decide (e.1 ≠ 117) := by decide
  have hc : c ≠ 117 := of_decide_eq_true (List.all_eq_true.1 hmarks _ h)
  rw [readChars, if_neg (by decide), if_pos rfl]
  · simp only [lookup_shortEscapes.2 h]
  · exact fun _ _ _ _ _ heq => absurd heq hc

/-- Of a string and its closing quote just these are read. -/
theorem Chars.read (h : Chars t s) (rest : Bytes) :
    readChars (t ++ Byte.quote :: rest) = some (s, rest) := by
  induction h with
  | nil => exact readChars_quote rest
  | plain hb h ih =>
    rw [List.cons_append, readChars_plain hb, ih]
    rfl
  | short hc h ih =>
    rw [List.cons_append, List.cons_append, readChars_short hc, ih]
    rfl
  | unit hn h ih =>
    obtain ⟨-, hdigits, rfl⟩ := Numeral.denotes_iff.1 hn
    simp only [List.cons_append]
    rw [readChars, if_neg (by decide), if_pos rfl, if_pos (List.all_eq_true.2 hdigits), ih]
    rfl

/-- What is read is a string up to a closing quote. -/
theorem chars_of_readChars (h : readChars t = some (s, rest)) :
    ∃ front, t = front ++ Byte.quote :: rest ∧ Chars front s := by
  fun_induction readChars t generalizing s rest
  case case2 t =>
    cases h
    exact ⟨[], rfl, .nil⟩
  case case3 d₁ d₂ d₃ d₄ t hdigits _ ih =>
    obtain ⟨⟨s', rest'⟩, hread, heq⟩ := Option.map_eq_some_iff.1 h
    cases heq
    obtain ⟨front, rfl, hfront⟩ := ih hread
    refine ⟨_ :: 117 :: d₁ :: d₂ :: d₃ :: d₄ :: front, rfl, .unit ?_ hfront⟩
    exact Numeral.denotes_iff.2 ⟨List.cons_ne_nil _ _, List.all_eq_true.1 hdigits, rfl⟩
  case case5 c t _ b hlookup _ ih =>
    obtain ⟨⟨s', rest'⟩, hread, heq⟩ := Option.map_eq_some_iff.1 h
    cases heq
    obtain ⟨front, rfl, hfront⟩ := ih hread
    exact ⟨_ :: c :: front, rfl, .short (lookup_shortEscapes.1 hlookup) hfront⟩
  case case9 b t hquote hbackslash hleast ih =>
    obtain ⟨⟨s', rest'⟩, hread, heq⟩ := Option.map_eq_some_iff.1 h
    cases heq
    obtain ⟨front, rfl, hfront⟩ := ih hread
    exact ⟨b :: front, rfl, .plain ⟨UInt8.not_lt.1 hleast, hquote, hbackslash⟩ hfront⟩
  all_goals cases h

/-! ### Numbers -/

/-- The byte may stand behind a value. -/
def isDelimiter (b : Byte) : Bool :=
  isBlank b || b == comma || b == closeBracket || b == closeBrace

/-- A value may stand in front of the text. -/
def Delimited (rest : Bytes) : Prop := ∀ b ∈ rest.head?, isDelimiter b

/-- The text does not start as a number may go on behind its digits. -/
def Stops (rest : Bytes) : Prop :=
  ∀ b ∈ rest.head?, ¬ Numeral.isDigitOf 10 b ∧ b ≠ Byte.dot ∧ ¬ isExponentMark b

theorem Delimited.stops (h : Delimited rest) : Stops rest := by
  intro b hb
  have hb := h b hb
  simp only [isDelimiter, isBlank, Bool.or_eq_true, beq_iff_eq, or_assoc] at hb
  rcases hb with rfl | rfl | rfl | rfl | rfl | rfl | rfl <;> decide

theorem takeMinus_eq_iff {negative : Bool} :
    takeMinus t = (negative, s) ↔
      t = Binary64.signText negative ++ s ∧ (negative = false → s.head? ≠ some Byte.minus) := by
  rw [takeMinus.eq_def]
  split
  · cases negative with
    | false =>
      refine iff_of_false (fun h => nomatch (Prod.mk.inj h).1) ?_
      rintro ⟨rfl, hhead⟩
      exact hhead rfl rfl
    | true => simp [Binary64.signText]
  · next hne =>
    cases negative with
    | false =>
      simp only [Binary64.signText, Prod.mk.injEq, true_and, List.nil_append, forall_const,
        Bool.false_eq_true, if_false]
      refine ⟨?_, And.left⟩
      rintro rfl
      refine ⟨rfl, fun hhead => ?_⟩
      obtain ⟨u, rfl⟩ := List.head?_eq_some_iff.1 hhead
      exact hne u rfl
    | true => exact iff_of_false (fun h => nomatch (Prod.mk.inj h).1) fun h => hne s h.1

theorem Fraction.read (h : Fraction t digits)
    (hrest : ∀ b ∈ rest.head?, ¬ Numeral.isDigitOf 10 b ∧ b ≠ Byte.dot) :
    readFraction (t ++ rest) = (digits, rest) := by
  cases h with
  | none =>
    rw [List.nil_append, readFraction.eq_def]
    split
    · exact absurd rfl (hrest _ rfl).2
    · rfl
  | point h =>
    have hspan := Numeral.spanDigits_eq_iff.2 ⟨rfl, h.2, fun b hb => (hrest b hb).1⟩
    rw [List.cons_append, readFraction, hspan]
    split
    · next heq => exact absurd (Prod.mk.inj heq).1 h.1
    · rfl

theorem fraction_of_readFraction (h : readFraction t = (digits, rest)) :
    ∃ front, t = front ++ rest ∧ Fraction front digits := by
  rw [readFraction.eq_def] at h
  split at h
  · split at h
    · cases h
      exact ⟨[], rfl, .none⟩
    · next hne =>
      obtain ⟨rfl, hdigits, -⟩ := Numeral.spanDigits_eq_iff.1 h
      refine ⟨Byte.dot :: digits, rfl, .point ⟨?_, hdigits⟩⟩
      rintro rfl
      exact hne _ h
  · cases h
    exact ⟨[], rfl, .none⟩

/-- What is read behind the mark of an exponent. -/
theorem readExponent_cons {mark : Byte} {negative : Bool} {unsigned : Bytes}
    (hmark : isExponentMark mark) (hsign : Numeral.takeSign t = (negative, unsigned))
    (hspan : Numeral.spanDigits 10 unsigned = (digits, rest)) :
    Binary64.readExponent isExponentMark (mark :: t) =
      if digits = [] then (0, mark :: t)
      else (signed negative (Numeral.value 10 digits), rest) := by
  rw [Binary64.readExponent]
  dsimp only
  rw [hmark, hsign]
  dsimp only
  rw [hspan]
  cases digits <;> rfl

theorem Exponent.read {n : Int} (h : Exponent t n) (hrest : Stops rest) :
    Binary64.readExponent isExponentMark (t ++ rest) = (n, rest) := by
  cases h with
  | none =>
    cases rest with
    | nil => rfl
    | cons b rest => simp [Binary64.readExponent, (hrest b rfl).2.2]
  | @told mark s n hmark h =>
    -- Behind either sign, and behind none, digits are read in the same way.
    have hread : ∀ {negative digits n s}, Numeral.takeSign s = (negative, digits ++ rest) →
        Numeral.Denotes 10 digits n →
          Binary64.readExponent isExponentMark (mark :: s) = (signed negative n, rest) := by
      intro negative digits n s hsign hn
      obtain ⟨hne, hdigits, rfl⟩ := Numeral.denotes_iff.1 hn
      have hspan := Numeral.spanDigits_eq_iff.2 ⟨rfl, hdigits, fun b hb => (hrest b hb).1⟩
      rw [readExponent_cons hmark hsign hspan, if_neg hne]
    cases h with
    | unsigned h =>
      exact hread (h.takeSign_append rest) h
    | @plus digits n h =>
      exact hread (show Numeral.takeSign (Byte.plus :: digits ++ rest) = (false, _) from rfl) h
    | @minus digits n h =>
      exact hread (show Numeral.takeSign (Byte.minus :: digits ++ rest) = (true, _) from rfl) h

theorem exponent_of_readExponent {n : Int}
    (h : Binary64.readExponent isExponentMark t = (n, rest)) :
    ∃ front, t = front ++ rest ∧ Exponent front n := by
  -- Where no exponent is read, nothing is taken.
  have hnone : (n, rest) = (0, t) → ∃ front, t = front ++ rest ∧ Exponent front n := by
    rintro heq
    cases heq
    exact ⟨[], rfl, .none⟩
  cases t with
  | nil => exact hnone h.symm
  | cons mark t =>
    by_cases hmark : isExponentMark mark
    · obtain ⟨⟨negative, unsigned⟩, hsign⟩ : ∃ r, Numeral.takeSign t = r := ⟨_, rfl⟩
      obtain ⟨⟨digits, rest'⟩, hspan⟩ : ∃ r, Numeral.spanDigits 10 unsigned = r := ⟨_, rfl⟩
      rw [readExponent_cons hmark hsign hspan] at h
      split at h
      · exact hnone h.symm
      · next hne =>
        cases h
        obtain ⟨rfl, hdigits, -⟩ := Numeral.spanDigits_eq_iff.1 hspan
        have hdenotes := Numeral.denotes_iff.2 ⟨hne, hdigits, rfl⟩
        rcases Numeral.takeSign_cases t with ⟨_, rfl, heq⟩ | ⟨_, rfl, heq⟩ | heq <;>
          cases heq.symm.trans hsign
        · exact ⟨mark :: Byte.minus :: digits, rfl, .told hmark (.minus hdenotes)⟩
        · exact ⟨mark :: Byte.plus :: digits, rfl, .told hmark (.plus hdenotes)⟩
        · exact ⟨mark :: digits, rfl, .told hmark (.unsigned hdenotes)⟩
    · refine hnone (h.symm.trans ?_)
      simp [Binary64.readExponent, hmark]

/-- A number is read up to where it stops. -/
theorem NumberText.read {n power : Int} (h : NumberText t n power) (hrest : Stops rest) :
    readNumber (t ++ rest) = some (.number n power, rest) := by
  cases h with
  | @mk negative whole fraction digits exponent power hwhole hfraction hexponent =>
  obtain ⟨⟨hne, hdigits⟩, hzero⟩ := hwhole
  -- No digit stands behind the whole part, and none and no point behind the fraction.
  have hexponentHead : ∀ b ∈ (exponent ++ rest).head?, ¬ Numeral.isDigitOf 10 b ∧ b ≠ Byte.dot := by
    cases hexponent with
    | none => exact fun b hb => ⟨(hrest b hb).1, (hrest b hb).2.1⟩
    | told hmark _ =>
      rintro b ⟨⟩
      simp only [isExponentMark, Bool.or_eq_true, beq_iff_eq] at hmark
      rcases hmark with rfl | rfl <;> decide
  have hfractionHead : ∀ b ∈ (fraction ++ (exponent ++ rest)).head?, ¬ Numeral.isDigitOf 10 b := by
    cases hfraction with
    | none => exact fun b hb => (hexponentHead b hb).1
    | point _ =>
      rintro b ⟨⟩
      decide
  have hminus : (whole ++ (fraction ++ (exponent ++ rest))).head? ≠ some Byte.minus := by
    rw [List.head?_append_of_ne_nil _ hne]
    intro hhead
    exact absurd (hdigits _ (List.mem_of_mem_head? hhead)) (by decide)
  have hleading : ¬ (whole = [] ∨ whole.head? = some 48 ∧ whole ≠ [48]) := by
    rintro (hnil | ⟨hhead, hmore⟩)
    · exact hne hnil
    · exact hmore (hzero hhead)
  rw [List.append_assoc, List.append_assoc, List.append_assoc, readNumber,
    takeMinus_eq_iff.2 ⟨rfl, fun _ => hminus⟩]
  dsimp only
  rw [Numeral.spanDigits_eq_iff.2 ⟨rfl, hdigits, hfractionHead⟩]
  dsimp only
  rw [if_neg hleading, hfraction.read hexponentHead]
  dsimp only
  rw [hexponent.read hrest]

theorem numberText_of_readNumber (h : readNumber t = some (v, rest)) :
    ∃ front n power, t = front ++ rest ∧ v = .number n power ∧ NumberText front n power := by
  -- The four parts that are taken one after the other.
  obtain ⟨⟨negative, t₁⟩, hminus⟩ : ∃ r, takeMinus t = r := ⟨_, rfl⟩
  obtain ⟨⟨whole, t₂⟩, hwhole⟩ : ∃ r, Numeral.spanDigits 10 t₁ = r := ⟨_, rfl⟩
  obtain ⟨⟨digits, t₃⟩, hfraction⟩ : ∃ r, readFraction t₂ = r := ⟨_, rfl⟩
  obtain ⟨⟨power, t₄⟩, hexponent⟩ : ∃ r, Binary64.readExponent isExponentMark t₃ = r := ⟨_, rfl⟩
  rw [readNumber, hminus] at h
  dsimp only at h
  rw [hwhole] at h
  dsimp only at h
  split at h
  · cases h
  next hleading =>
  rw [hfraction] at h
  dsimp only at h
  rw [hexponent] at h
  cases h
  obtain ⟨rfl, -⟩ := takeMinus_eq_iff.1 hminus
  obtain ⟨rfl, hdigits, -⟩ := Numeral.spanDigits_eq_iff.1 hwhole
  obtain ⟨fraction, rfl, hfractionText⟩ := fraction_of_readFraction hfraction
  obtain ⟨exponent, rfl, hexponentText⟩ := exponent_of_readExponent hexponent
  rw [not_or, not_and, not_not] at hleading
  refine ⟨Binary64.signText negative ++ whole ++ fraction ++ exponent, _, _, ?_, rfl,
    .mk negative ⟨⟨hleading.1, hdigits⟩, hleading.2⟩ hfractionText hexponentText⟩
  simp only [List.append_assoc]

/-! ### Values -/

/-- Only a value, a comma or an end may stand behind what was read. -/
def Closed (rest : Bytes) : Prop := ∀ b ∈ rest.head?, isDelimiter b ∧ ¬ isBlank b

theorem closed_cons {b : Byte} (h : isDelimiter b ∧ ¬ isBlank b) (rest : Bytes) :
    Closed (b :: rest) := by
  rintro _ ⟨⟩
  exact h

/-- Blanks end at a byte that is none. -/
theorem skip_append {front : Bytes} {b : Byte} (hfront : Blank front) (hb : ¬ isBlank b)
    (t : Bytes) : skip (front ++ b :: t) = b :: t :=
  Bytes.dropWhile_append_of_head hfront fun _ h => Option.some.inj h ▸ hb

theorem Closed.skip_append (h : Closed rest) {back : Bytes} (hback : Blank back) :
    skip (back ++ rest) = rest :=
  Bytes.dropWhile_append_of_head hback fun b hb => (h b hb).2

theorem Closed.delimited_append (h : Closed rest) {back : Bytes} (hback : Blank back) :
    Delimited (back ++ rest) := by
  cases back with
  | nil => exact fun b hb => (h b hb).1
  | cons b back =>
    rintro _ ⟨⟩
    simp [isDelimiter, hback b List.mem_cons_self]

theorem exists_skip (s : Bytes) : ∃ front, s = front ++ skip s ∧ Blank front :=
  ⟨s.takeWhile isBlank, List.takeWhile_append_dropWhile.symm, fun _ hb => List.mem_takeWhile_imp hb⟩

theorem StringText.exists_cons (h : StringText t s) : ∃ u, t = Byte.quote :: u := by
  cases h with
  | quoted _ => exact ⟨_, rfl⟩

/-- What is in quotes is read as it is, whatever stands behind it. -/
theorem StringText.read (h : StringText t s) (rest : Bytes) :
    readString (t ++ rest) = some (s, rest) := by
  cases h with
  | quoted h =>
    rw [List.cons_append, List.append_assoc]
    exact h.read rest

theorem stringText_of_readString (h : readString t = some (s, rest)) :
    ∃ front, t = front ++ rest ∧ StringText front s := by
  rw [readString.eq_def] at h
  split at h
  · obtain ⟨front, rfl, hfront⟩ := chars_of_readChars h
    refine ⟨Byte.quote :: (front ++ [Byte.quote]), ?_, .quoted hfront⟩
    simp only [List.cons_append, List.append_assoc, List.nil_append]
  · cases h

theorem readMember_colon {value : Bytes → Option (Value × Bytes)} {name u : Bytes}
    (hname : readString (skip s) = some (name, t)) (hcolon : skip t = Byte.colon :: u) :
    readMember value s = (readPadded value u).map fun r => ((name, r.1), r.2) := by
  rw [readMember, hname]
  dsimp only
  rw [hcolon]
  rfl

theorem readWord_eq_some_iff {word : Bytes} {v w : Value} :
    readWord word v s = some (w, rest) ↔ w = v ∧ s = word ++ rest := by
  rw [readWord]
  split
  · next hprefix =>
    obtain ⟨back, rfl⟩ := List.isPrefixOf_iff_prefix.1 hprefix
    simp [eq_comm]
  · next hprefix =>
    refine iff_of_false (fun h => nomatch h) ?_
    rintro ⟨-, rfl⟩
    exact hprefix (List.isPrefixOf_iff_prefix.2 (List.prefix_append _ _))

/-- A word is told by its first letter. -/
theorem readWord_cons_of_ne {c b : Byte} (h : c ≠ b) (word : Bytes) (v : Value) (t : Bytes) :
    readWord (c :: word) v (b :: t) = none := by
  rw [readWord, List.isPrefixOf_cons_cons, beq_false_of_ne h]
  rfl

/-- The bytes that values start with that are no numbers. -/
def valueMarks : Bytes := [34, 91, 123, 110, 116, 102]

/-- What starts with none of the other marks is read as a number. -/
theorem readValue_number {b : Byte} (hb : b ∉ valueMarks) (n : Nat) (t : Bytes) :
    readValue (n + 1) (b :: t) = readNumber (b :: t) := by
  simp only [valueMarks, List.mem_cons, List.not_mem_nil, or_false, not_or] at hb
  obtain ⟨hquote, hbracket, hbrace, hnull, htrue, hfalse⟩ := hb
  rw [readValue]
  · rw [show ascii "null" = 110 :: ascii "ull" from rfl,
      show ascii "true" = 116 :: ascii "rue" from rfl,
      show ascii "false" = 102 :: ascii "alse" from rfl,
      readWord_cons_of_ne (Ne.symm hnull), readWord_cons_of_ne (Ne.symm htrue),
      readWord_cons_of_ne (Ne.symm hfalse)]
    rfl
  · exact fun _ heq => hquote (List.cons.inj heq).1
  · exact fun _ heq => hbracket (List.cons.inj heq).1
  · exact fun _ heq => hbrace (List.cons.inj heq).1

/-- A number starts with a digit or with a minus. -/
theorem NumberText.exists_cons {n power : Int} (h : NumberText t n power) :
    ∃ b u, t = b :: u ∧ (b = Byte.minus ∨ Numeral.isDigitOf 10 b) := by
  cases h with
  | mk negative hwhole =>
  obtain ⟨⟨hne, hdigits⟩, -⟩ := hwhole
  cases negative with
  | true => exact ⟨_, _, rfl, .inl rfl⟩
  | false =>
    obtain ⟨b, u, rfl⟩ := List.exists_cons_of_ne_nil hne
    exact ⟨b, _, rfl, .inr (hdigits b List.mem_cons_self)⟩

/-- A value starts with no blank, and with no byte that closes a list. -/
theorem TextOf.exists_cons (h : TextOf (.value v) t) :
    ∃ b u, t = b :: u ∧ ¬ isBlank b ∧ b ≠ closeBracket ∧ b ≠ closeBrace := by
  cases h with
  | null => exact ⟨110, _, rfl, by decide⟩
  | true => exact ⟨116, _, rfl, by decide⟩
  | false => exact ⟨102, _, rfl, by decide⟩
  | number h =>
    obtain ⟨b, u, rfl, hb⟩ := h.exists_cons
    refine ⟨b, u, rfl, ?_, ?_, ?_⟩
    · rcases hb with rfl | hb
      · decide
      · intro hblank
        simp only [isBlank, Bool.or_eq_true, beq_iff_eq, or_assoc] at hblank
        rcases hblank with rfl | rfl | rfl | rfl <;> exact absurd hb (by decide)
    · rintro rfl
      exact absurd hb (by decide)
    · rintro rfl
      exact absurd hb (by decide)
  | string h =>
    obtain ⟨u, rfl⟩ := h.exists_cons
    exact ⟨_, u, rfl, by decide⟩
  | emptyArray _ | array _ => exact ⟨_, _, rfl, by decide⟩
  | emptyObject _ | object _ => exact ⟨_, _, rfl, by decide⟩

/-! ### Lists -/

section Lists

variable {item : Bytes → Option (α × Bytes)} {close : Byte} {a : α} {n : Nat}

theorem readItems_last (h : item s = some (a, close :: rest)) :
    readItems item close (n + 1) s = some ([a], rest) := by
  rw [readItems, h]
  exact if_pos rfl

theorem readItems_more (hclose : close ≠ comma) (h : item s = some (a, comma :: t)) :
    readItems item close (n + 1) s = (readItems item close n t).map fun r => (a :: r.1, r.2) := by
  rw [readItems, h]
  exact (if_neg (Ne.symm hclose)).trans (if_pos rfl)

theorem readItems_none (h : item s = none) : readItems item close (n + 1) s = none := by
  rw [readItems, h]

theorem readList_close (hclose : ¬ isBlank close) (ht : Blank t) :
    readList item close (t ++ close :: rest) = some ([], rest) := by
  rw [readList, skip_append ht hclose]
  exact if_pos rfl

theorem readList_items {b : Byte} (hskip : skip s = b :: t) (hb : b ≠ close) :
    readList item close s = readItems item close s.length s := by
  rw [readList, hskip]
  exact if_neg hb

/-- What is read of a list is texts of its items with commas between them. -/
theorem exists_of_readItems {P : α → Bytes → Prop} {Q : List α → Bytes → Prop}
    (hitem : ∀ ⦃s a rest⦄, item s = some (a, rest) → ∃ t, s = t ++ rest ∧ P a t)
    (hlast : ∀ {a t}, P a t → Q [a] t)
    (hmore : ∀ {a as t ts}, P a t → Q as ts → Q (a :: as) (t ++ comma :: ts))
    {as : List α} (h : readItems item close n s = some (as, rest)) :
    ∃ t, s = t ++ close :: rest ∧ Q as t := by
  induction n generalizing s as with
  | zero => cases h
  | succ n ih =>
    rw [readItems] at h
    split at h
    case h_2 => cases h
    next a b t hread =>
    obtain ⟨front, rfl, hfront⟩ := hitem hread
    split at h
    · next hb =>
      cases h
      exact ⟨front, by rw [hb], hlast hfront⟩
    · split at h
      · next hb =>
        -- A comma stands behind the item, and the others are read behind it.
        obtain ⟨⟨as', rest'⟩, hread', heq⟩ := Option.map_eq_some_iff.1 h
        cases heq
        obtain ⟨back, rfl, hback⟩ := ih hread'
        refine ⟨front ++ comma :: back, ?_, hmore hfront hback⟩
        rw [hb, List.append_assoc, List.cons_append]
      · cases h

theorem readList_cases {as : List α} (h : readList item close s = some (as, rest)) :
    (as = [] ∧ ∃ t, s = t ++ close :: rest ∧ Blank t) ∨
      readItems item close s.length s = some (as, rest) := by
  rw [readList] at h
  split at h
  · cases h
  · next b t hskip =>
    split at h
    · next hb =>
      cases h
      obtain ⟨front, hfront, hblank⟩ := exists_skip s
      rw [hskip, hb] at hfront
      exact .inl ⟨rfl, front, hfront, hblank⟩
    · exact .inr h

end Lists

/-! ### Documents -/

/-- What is read of the text of a part, wherever it stands. -/
def Part.Read : Part → Bytes → Prop
  | value v, t => ∀ n rest, t.length < n → Delimited rest →
      readValue n (t ++ rest) = some (v, rest)
  | padded v, t => ∀ n rest, t.length < n → Closed rest →
      readPadded (readValue n) (t ++ rest) = some (v, rest)
  | values vs, t => ∀ n m rest, t.length < n → t.length < m →
      readItems (readPadded (readValue n)) closeBracket m (t ++ closeBracket :: rest) =
        some (vs, rest)
  | member e, t => ∀ n rest, t.length < n → Closed rest →
      readMember (readValue n) (t ++ rest) = some (e, rest)
  | members es, t => ∀ n m rest, t.length < n → t.length < m →
      readItems (readMember (readValue n)) closeBrace m (t ++ closeBrace :: rest) =
        some (es, rest)

/-- The blanks in front of values end at a byte that closes no list. -/
theorem TextOf.skip_values {vs : List Value} (h : TextOf (.values vs) t) (rest : Bytes) :
    ∃ b u, skip (t ++ rest) = b :: u ∧ b ≠ closeBracket := by
  have hpadded : ∀ {v t}, TextOf (.padded v) t → ∀ rest, ∃ b u,
      skip (t ++ rest) = b :: u ∧ b ≠ closeBracket := by
    intro v t h rest
    cases h with
    | @padded front t back v hfront h hback =>
    obtain ⟨b, u, rfl, hb, hclose, -⟩ := h.exists_cons
    refine ⟨b, u ++ (back ++ rest), ?_, hclose⟩
    rw [List.append_assoc, List.append_assoc, List.cons_append, skip_append hfront hb]
  cases h with
  | lastValue h => exact hpadded h rest
  | moreValues h _ =>
    rw [List.append_assoc]
    exact hpadded h _

theorem TextOf.skip_members {ms : List (Bytes × Value)} (h : TextOf (.members ms) t)
    (rest : Bytes) : ∃ b u, skip (t ++ rest) = b :: u ∧ b ≠ closeBrace := by
  have hmember : ∀ {m t}, TextOf (.member m) t → ∀ rest, ∃ b u,
      skip (t ++ rest) = b :: u ∧ b ≠ closeBrace := by
    intro m t h rest
    cases h with
    | @member front key name back t v hfront hkey hback h =>
    obtain ⟨u, rfl⟩ := hkey.exists_cons
    refine ⟨Byte.quote, u ++ (back ++ Byte.colon :: (t ++ rest)), ?_, by decide⟩
    simp only [List.append_assoc, List.cons_append]
    exact skip_append hfront (by decide) _
  cases h with
  | lastMember h => exact hmember h rest
  | moreMembers h _ =>
    rw [List.append_assoc]
    exact hmember h _

/-- Every part is read as what it stands for. -/
theorem TextOf.read {p : Part} (h : TextOf p t) : p.Read t := by
  -- A text is longer than those of its parts, so that the bound of the depth is left over for them.
  induction h with
  | null | true | false =>
    rintro (_ | n) rest hn -
    · cases hn
    · rfl
  | number h =>
    rintro (_ | n) rest hn hrest
    · cases hn
    obtain ⟨b, u, rfl, hb⟩ := h.exists_cons
    rw [← h.read hrest.stops]
    refine readValue_number ?_ n (u ++ rest)
    rcases hb with rfl | hb
    · decide
    · intro hmark
      have hmarks : valueMarks.all fun b => !Numeral.isDigitOf 10 b := by decide
      simpa [hb] using List.all_eq_true.1 hmarks b hmark
  | string h =>
    rintro (_ | n) rest hn -
    · cases hn
    have hread := h.read rest
    obtain ⟨u, rfl⟩ := h.exists_cons
    exact congrArg (Option.map fun r => (Value.string r.1, r.2)) hread
  | emptyArray h =>
    rintro (_ | n) rest hn -
    · cases hn
    rw [List.cons_append, List.append_assoc, readValue]
    exact congrArg (Option.map _) (readList_close (by decide) h)
  | emptyObject h =>
    rintro (_ | n) rest hn -
    · cases hn
    rw [List.cons_append, List.append_assoc, readValue]
    exact congrArg (Option.map _) (readList_close (by decide) h)
  | array h ih =>
    rintro (_ | n) rest hn -
    · cases hn
    rw [List.length_cons, List.length_append] at hn
    obtain ⟨b, u, hskip, hb⟩ := h.skip_values (closeBracket :: rest)
    rw [List.cons_append, List.append_assoc, readValue, List.singleton_append,
      readList_items hskip hb, ih n _ rest (by omega) (by simp)]
    rfl
  | object h ih =>
    rintro (_ | n) rest hn -
    · cases hn
    rw [List.length_cons, List.length_append] at hn
    obtain ⟨b, u, hskip, hb⟩ := h.skip_members (closeBrace :: rest)
    rw [List.cons_append, List.append_assoc, readValue, List.singleton_append,
      readList_items hskip hb, ih n _ rest (by omega) (by simp)]
    rfl
  | @padded front t back v hfront h hback ih =>
    intro n rest hn hrest
    obtain ⟨b, u, rfl, hb, -⟩ := h.exists_cons
    simp only [List.length_append] at hn
    rw [readPadded, List.append_assoc, List.append_assoc, List.cons_append,
      skip_append hfront hb, ← List.cons_append, ih n _ (by omega) (hrest.delimited_append hback)]
    exact congrArg (fun rest => some (v, rest)) (hrest.skip_append hback)
  | lastValue h ih =>
    rintro n (_ | m) rest hn hm
    · cases hm
    exact readItems_last (ih n _ hn (closed_cons (by decide) _))
  | moreValues h hs ih ihs =>
    rintro n (_ | m) rest hn hm
    · cases hm
    rw [List.length_append, List.length_cons] at hn hm
    rw [List.append_assoc, List.cons_append, readItems_more (by decide)
      (ih n _ (by omega) (closed_cons (by decide) _)), ihs n m rest (by omega) (by omega)]
    rfl
  | @member front key name back t v hfront hkey hback h ih =>
    intro n rest hn hrest
    have hread := hkey.read (back ++ Byte.colon :: (t ++ rest))
    obtain ⟨u, rfl⟩ := hkey.exists_cons
    simp only [List.length_append, List.length_cons] at hn
    simp only [List.append_assoc, List.cons_append] at hread ⊢
    -- The quote of the name ends the blanks in front of it, and the colon those behind it.
    rw [← skip_append hfront (by decide)] at hread
    rw [readMember_colon hread (skip_append hback (by decide) _), ih n rest (by omega) hrest]
    rfl
  | lastMember h ih =>
    rintro n (_ | m) rest hn hm
    · cases hm
    exact readItems_last (ih n _ hn (closed_cons (by decide) _))
  | moreMembers h hs ih ihs =>
    rintro n (_ | m) rest hn hm
    · cases hm
    rw [List.length_append, List.length_cons] at hn hm
    rw [List.append_assoc, List.cons_append, readItems_more (by decide)
      (ih n _ (by omega) (closed_cons (by decide) _)), ihs n m rest (by omega) (by omega)]
    rfl

/-- What is read is a text of the part in front. -/
def ReadsOnly (p : α → Part) (reader : Bytes → Option (α × Bytes)) : Prop :=
  ∀ ⦃s a rest⦄, reader s = some (a, rest) → ∃ t, s = t ++ rest ∧ TextOf (p a) t

theorem ReadsOnly.padded {value : Bytes → Option (Value × Bytes)} (h : ReadsOnly .value value) :
    ReadsOnly .padded (readPadded value) := by
  intro s v rest hread
  obtain ⟨⟨v', rest'⟩, hvalue, heq⟩ := Option.map_eq_some_iff.1 hread
  cases heq
  obtain ⟨front, hs, hfront⟩ := exists_skip s
  obtain ⟨t, hskip, ht⟩ := h hvalue
  obtain ⟨back, hrest, hback⟩ := exists_skip rest'
  refine ⟨front ++ t ++ back, ?_, .padded hfront ht hback⟩
  rw [List.append_assoc, List.append_assoc, ← hrest, ← hskip]
  exact hs

theorem ReadsOnly.member {value : Bytes → Option (Value × Bytes)} (h : ReadsOnly .value value) :
    ReadsOnly .member (readMember value) := by
  intro s m rest hread
  rw [readMember] at hread
  split at hread
  · cases hread
  next name t hstring =>
  split at hread
  case h_2 => cases hread
  next u hcolon =>
  obtain ⟨⟨v, rest'⟩, hvalue, heq⟩ := Option.map_eq_some_iff.1 hread
  cases heq
  obtain ⟨front, hs, hfront⟩ := exists_skip s
  obtain ⟨key, hskip, hkey⟩ := stringText_of_readString hstring
  obtain ⟨back, ht, hback⟩ := exists_skip t
  obtain ⟨text, rfl, htext⟩ := h.padded hvalue
  refine ⟨front ++ key ++ back ++ Byte.colon :: text, ?_, .member hfront hkey hback htext⟩
  rw [List.append_assoc, List.append_assoc, List.append_assoc, List.cons_append, ← hcolon, ← ht,
    ← hskip]
  exact hs

theorem ReadsOnly.list {p : α → Part} {ps : List α → Part}
    {item : Bytes → Option (α × Bytes)} {close : Byte} (h : ReadsOnly p item)
    (hlast : ∀ {a t}, TextOf (p a) t → TextOf (ps [a]) t)
    (hmore : ∀ {a as t ts}, TextOf (p a) t → TextOf (ps as) ts →
      TextOf (ps (a :: as)) (t ++ comma :: ts))
    {as : List α} (hread : readList item close s = some (as, rest)) :
    ∃ t, s = t ++ close :: rest ∧ (as = [] ∧ Blank t ∨ TextOf (ps as) t) := by
  rcases readList_cases hread with ⟨rfl, t, hs, ht⟩ | hread
  · exact ⟨t, hs, .inl ⟨rfl, ht⟩⟩
  · obtain ⟨t, hs, ht⟩ := exists_of_readItems (P := fun a t => TextOf (p a) t)
      (Q := fun as t => TextOf (ps as) t) h hlast hmore hread
    exact ⟨t, hs, .inr ht⟩

theorem readsOnly_readValue (n : Nat) : ReadsOnly .value (readValue n) := by
  -- A branch for each byte that a value is told by: a quote, a bracket, a brace, any other one.
  induction n with
  | zero => exact fun _ _ _ h => nomatch h
  | succ n ih =>
    intro s v rest h
    rw [readValue.eq_def] at h
    dsimp only at h
    split at h
    · obtain ⟨⟨name, rest'⟩, hread, heq⟩ := Option.map_eq_some_iff.1 h
      cases heq
      obtain ⟨t, ht, htext⟩ := stringText_of_readString (t := Byte.quote :: _) hread
      exact ⟨t, ht, .string htext⟩
    · obtain ⟨⟨vs, rest'⟩, hread, heq⟩ := Option.map_eq_some_iff.1 h
      cases heq
      obtain ⟨t, rfl, ⟨rfl, ht⟩ | ht⟩ := ih.padded.list .lastValue .moreValues hread
      · exact ⟨openBracket :: (t ++ [closeBracket]), by simp, .emptyArray ht⟩
      · exact ⟨openBracket :: (t ++ [closeBracket]), by simp, .array ht⟩
    · obtain ⟨⟨vs, rest'⟩, hread, heq⟩ := Option.map_eq_some_iff.1 h
      cases heq
      obtain ⟨t, rfl, ⟨rfl, ht⟩ | ht⟩ := ih.member.list .lastMember .moreMembers hread
      · exact ⟨openBrace :: (t ++ [closeBrace]), by simp, .emptyObject ht⟩
      · exact ⟨openBrace :: (t ++ [closeBrace]), by simp, .object ht⟩
    · simp only [Option.or_eq_some_iff] at h
      rcases h with h | ⟨-, h | ⟨-, h | ⟨-, h⟩⟩⟩
      · obtain ⟨rfl, rfl⟩ := readWord_eq_some_iff.1 h
        exact ⟨_, rfl, .null⟩
      · obtain ⟨rfl, rfl⟩ := readWord_eq_some_iff.1 h
        exact ⟨_, rfl, .true⟩
      · obtain ⟨rfl, rfl⟩ := readWord_eq_some_iff.1 h
        exact ⟨_, rfl, .false⟩
      · obtain ⟨t, digits, power, rfl, rfl, ht⟩ := numberText_of_readNumber h
        exact ⟨t, rfl, .number ht⟩

/-- Just the documents are read, each as what it stands for. -/
theorem read_eq_some_iff : read t = some v ↔ Document v t := by
  constructor
  · intro h
    rw [read.eq_def] at h
    split at h
    · next v' hread =>
      cases h
      obtain ⟨t', ht, htext⟩ := (readsOnly_readValue _).padded hread
      rw [ht, List.append_nil]
      exact htext
    · cases h
  · intro h
    have hread := h.read (t.length + 1) [] (Nat.lt_succ_self _) (fun _ hb => nomatch hb)
    rw [List.append_nil] at hread
    rw [read, hread]

/-- There is one value that a document stands for. -/
theorem Document.unique {w : Value} (h : Document v t) (h' : Document w t) : v = w :=
  Option.some.inj ((read_eq_some_iff.2 h).symm.trans (read_eq_some_iff.2 h'))

end PageServer.Json
