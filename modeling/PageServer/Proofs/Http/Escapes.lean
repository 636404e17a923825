import PageServer.Http.Target
import Mathlib.Data.List.Infix

/-!
# Escapes of reserved bytes

A reserved byte, `/`, `:` or `?`, has two escapes, one for each case of the letter in it
(`Target.escapes`). A text is empty, or starts with an escape, or with a byte that starts
none; decoding goes by these three cases (`Target.decodeReserved_escape`,
`Target.decodeReserved_cons`), and so do the proofs about it (`Target.escape_induction`).

A byte of a decoded text that is not reserved was there before, at the front of what was
still to decode (`Target.eq_cons_of_decoded`). So no escape comes about by decoding: once
is enough, and a text without escapes is got back from its escaped form
(`Target.decodeReserved_undoes`).
-/

namespace PageServer.Http.Target

variable {b c : Byte} {e s t : Bytes}

/-- The escapes, with the bytes that they stand for. -/
def escapes : List (Bytes × Byte) :=
  [("%2F", Byte.slash), ("%2f", Byte.slash), ("%3A", Byte.colon), ("%3a", Byte.colon),
    ("%3F", Byte.question), ("%3f", Byte.question)]

/-- The byte has escapes. -/
def Reserved (b : Byte) : Prop := b = Byte.slash ∨ b = Byte.colon ∨ b = Byte.question

instance (b : Byte) : Decidable (Reserved b) :=
  inferInstanceAs (Decidable (b = Byte.slash ∨ b = Byte.colon ∨ b = Byte.question))

/-- There is an escape in the text. -/
def HasEscape (s : Bytes) : Prop := ∃ p ∈ escapes, p.1 <:+: s

instance (s : Bytes) : Decidable (HasEscape s) :=
  inferInstanceAs (Decidable (∃ p ∈ escapes, p.1 <:+: s))

/-- There is an escape in front of the text. -/
def StartsEscape (s : Bytes) : Prop := ∃ p ∈ escapes, p.1 <+: s

/-- The second text is the first one with an escape, any of its escapes, in place of each
    reserved byte. -/
inductive EscapedAs : Bytes → Bytes → Prop
  | nil : EscapedAs [] []
  | plain {b : Byte} {s t : Bytes} (hb : ¬ Reserved b) (h : EscapedAs s t) :
      EscapedAs (b :: s) (b :: t)
  | reserved {b : Byte} {e s t : Bytes} (he : (e, b) ∈ escapes) (h : EscapedAs s t) :
      EscapedAs (b :: s) (e ++ t)

/-! ### Escapes -/

/-- The escapes of a byte are those that decoding knows. -/
theorem mem_escapes_iff :
    (e, b) ∈ escapes ↔ ∃ high low, e = [Byte.percent, high, low] ∧ reserved? high low = some b := by
  constructor
  · intro h
    simp only [escapes, List.mem_cons, List.not_mem_nil, or_false, Prod.mk.injEq] at h
    rcases h with ⟨rfl, rfl⟩ | ⟨rfl, rfl⟩ | ⟨rfl, rfl⟩ | ⟨rfl, rfl⟩ | ⟨rfl, rfl⟩ | ⟨rfl, rfl⟩ <;>
      exact ⟨_, _, rfl, rfl⟩
  · rintro ⟨high, low, rfl, h⟩
    rw [reserved?] at h
    split_ifs at h with hslash hcolon hquestion <;> cases h
    · obtain ⟨rfl, rfl | rfl⟩ := hslash <;> decide
    · obtain ⟨rfl, rfl | rfl⟩ := hcolon <;> decide
    · obtain ⟨rfl, rfl | rfl⟩ := hquestion <;> decide

/-- An escape starts with a byte that is not reserved, and stands for one that is. No byte
    behind its first one is reserved or starts an escape. -/
theorem escapes_apart : ∀ p ∈ escapes, Reserved p.2 ∧
    ∃ high low, p.1 = [Byte.percent, high, low] ∧
      (¬ Reserved high ∧ high ≠ Byte.percent) ∧ ¬ Reserved low ∧ low ≠ Byte.percent := by
  intro p hp
  simp only [escapes, List.mem_cons, List.not_mem_nil, or_false] at hp
  rcases hp with rfl | rfl | rfl | rfl | rfl | rfl <;>
    exact ⟨by decide, _, _, rfl, by decide, by decide⟩

theorem hasEscape_cons : HasEscape (b :: s) ↔ StartsEscape (b :: s) ∨ HasEscape s := by
  simp only [HasEscape, StartsEscape, List.infix_cons_iff, and_or_left, exists_or]

theorem not_hasEscape_nil : ¬ HasEscape [] := by decide

/-- The bytes in front of a text with an escape there. -/
theorem StartsEscape.exists_cons (h : StartsEscape s) : ∃ high low rest,
    s = Byte.percent :: high :: low :: rest ∧
      (¬ Reserved high ∧ high ≠ Byte.percent) ∧ ¬ Reserved low ∧ low ≠ Byte.percent := by
  obtain ⟨p, hp, rest, rfl⟩ := h
  obtain ⟨-, high, low, he, hhigh, hlow⟩ := escapes_apart p hp
  exact ⟨high, low, rest, by rw [he]; rfl, hhigh, hlow⟩

/-- Only the first three bytes of a text tell if there is an escape in front. -/
theorem StartsEscape.congr {high low : Byte}
    (h : StartsEscape (Byte.percent :: high :: low :: s)) (t : Bytes) :
    StartsEscape (Byte.percent :: high :: low :: t) := by
  obtain ⟨⟨e, b⟩, hp, rest, heq⟩ := h
  obtain ⟨high', low', rfl, -⟩ := mem_escapes_iff.1 hp
  obtain ⟨rfl, rfl, -⟩ : high' = high ∧ low' = low ∧ rest = s := by simpa using heq
  exact ⟨_, hp, t, rfl⟩

/-! ### Decoding -/

theorem decodeReserved_escape (he : (e, b) ∈ escapes) (s : Bytes) :
    decodeReserved (e ++ s) = b :: decodeReserved s := by
  obtain ⟨high, low, rfl, h⟩ := mem_escapes_iff.1 he
  simp only [List.cons_append, List.nil_append, decodeReserved, h]

theorem decodeReserved_cons (h : ¬ StartsEscape (b :: s)) :
    decodeReserved (b :: s) = b :: decodeReserved s := by
  rw [decodeReserved.eq_def]
  split
  · next heq => cases heq
  · next high low rest heq =>
    obtain ⟨rfl, rfl⟩ := List.cons.inj heq
    split
    · next c hc => exact absurd ⟨_, mem_escapes_iff.2 ⟨high, low, rfl, hc⟩, rest, rfl⟩ h
    · rfl
  · next heq =>
    obtain ⟨rfl, rfl⟩ := List.cons.inj heq
    rfl

/-- Induction on a text from the front, by escapes and by bytes that start none. -/
theorem escape_induction {motive : Bytes → Prop} (nil : motive [])
    (escape : ∀ {e b s}, (e, b) ∈ escapes → motive s → motive (e ++ s))
    (plain : ∀ {b s}, ¬ StartsEscape (b :: s) → motive s → motive (b :: s))
    (s : Bytes) : motive s := by
  induction hn : s.length using Nat.strongRecOn generalizing s with
  | ind n ih =>
    cases s with
    | nil => exact nil
    | cons b s =>
      by_cases h : StartsEscape (b :: s)
      · obtain ⟨⟨e, c⟩, he, rest, heq⟩ := h
        have hlength := congrArg List.length heq
        obtain ⟨high, low, rfl, -⟩ := mem_escapes_iff.1 he
        rw [← heq]
        exact escape he (ih _ (by simp at hlength hn ⊢; omega) rest rfl)
      · exact plain h (ih _ (by simp [← hn]) s rfl)

/-- A byte in front of a decoded text that is not reserved was there before. -/
theorem eq_cons_of_decoded (h : decodeReserved s = c :: t) (hc : ¬ Reserved c) :
    ∃ s', s = c :: s' ∧ t = decodeReserved s' := by
  induction s using escape_induction with
  | nil => cases h
  | escape he _ =>
    rw [decodeReserved_escape he] at h
    obtain ⟨rfl, -⟩ := List.cons.inj h
    exact absurd (escapes_apart _ he).1 hc
  | plain hb _ =>
    rw [decodeReserved_cons hb] at h
    obtain ⟨rfl, rfl⟩ := List.cons.inj h
    exact ⟨_, rfl, rfl⟩

/-- There is no escape left in a decoded text. -/
theorem not_hasEscape_decodeReserved (s : Bytes) : ¬ HasEscape (decodeReserved s) := by
  induction s using escape_induction with
  | nil => exact not_hasEscape_nil
  | escape he ih =>
    rw [decodeReserved_escape he, hasEscape_cons, not_or]
    refine ⟨fun hstart => ?_, ih⟩
    -- No escape starts with a byte that one stands for.
    obtain ⟨high, low, rest, heq, -⟩ := hstart.exists_cons
    obtain ⟨rfl, -⟩ := List.cons.inj heq
    exact absurd (escapes_apart _ he).1 (show ¬ Reserved Byte.percent by decide)
  | @plain b s hb ih =>
    rw [decodeReserved_cons hb, hasEscape_cons, not_or]
    refine ⟨fun hstart => hb ?_, ih⟩
    -- The two bytes behind the first one were not decoded.
    obtain ⟨high, low, rest, heq, hhigh, hlow⟩ := hstart.exists_cons
    obtain ⟨rfl, htail⟩ := List.cons.inj heq
    obtain ⟨s', rfl, htail'⟩ := eq_cons_of_decoded htail hhigh.1
    obtain ⟨s'', rfl, -⟩ := eq_cons_of_decoded htail'.symm hlow.1
    rw [heq] at hstart
    exact hstart.congr s''

/-- Where there is no escape, nothing is decoded. -/
theorem decodeReserved_of_not_hasEscape (h : ¬ HasEscape s) : decodeReserved s = s := by
  induction s with
  | nil => rfl
  | cons b s ih =>
    rw [hasEscape_cons, not_or] at h
    rw [decodeReserved_cons h.1, ih h.2]

/-! ### Escaped texts -/

/-- A byte in front of an escaped text that is no `%` was there before. -/
theorem EscapedAs.eq_cons (h : EscapedAs s (c :: t)) (hc : c ≠ Byte.percent) :
    ∃ s', s = c :: s' ∧ EscapedAs s' t := by
  generalize hw : c :: t = w at h
  cases h with
  | nil => cases hw
  | plain hb h =>
    obtain ⟨rfl, rfl⟩ := List.cons.inj hw
    exact ⟨_, rfl, h⟩
  | reserved he h =>
    obtain ⟨high, low, rfl, -⟩ := mem_escapes_iff.1 he
    exact absurd (List.cons.inj hw).1 hc

/-- A text without escapes is got back from its escaped form. -/
theorem EscapedAs.decodeReserved_eq (h : EscapedAs s t) (hs : ¬ HasEscape s) :
    decodeReserved t = s := by
  induction h with
  | nil => rfl
  | reserved he h ih =>
    rw [hasEscape_cons, not_or] at hs
    rw [decodeReserved_escape he, ih hs.2]
  | @plain b s t hb h ih =>
    rw [hasEscape_cons, not_or] at hs
    have hstart : ¬ StartsEscape (b :: t) := by
      -- The two bytes behind the first one are no escapes, so they were there before.
      intro hstart
      obtain ⟨high, low, rest, heq, hhigh, hlow⟩ := hstart.exists_cons
      obtain ⟨rfl, rfl⟩ := List.cons.inj heq
      obtain ⟨s', rfl, hs'⟩ := h.eq_cons hhigh.2
      obtain ⟨s'', rfl, -⟩ := hs'.eq_cons hlow.2
      exact hs.1 (hstart.congr s'')
    rw [decodeReserved_cons hstart, ih hs.2]

/-- Decoding a second time changes nothing, and no escape is left after the first time. The
    texts that decoding leaves as they are are those without an escape. Each of them is got
    back from its escaped form, whichever escapes were taken for its reserved bytes. -/
theorem decodeReserved_undoes (s : Bytes) :
    decodeReserved (decodeReserved s) = decodeReserved s ∧
    ¬ HasEscape (decodeReserved s) ∧
    (decodeReserved s = s ↔ ¬ HasEscape s) ∧
    (¬ HasEscape s → ∀ t, EscapedAs s t → decodeReserved t = s) := by
  have hleft := not_hasEscape_decodeReserved s
  refine ⟨decodeReserved_of_not_hasEscape hleft, hleft, ?_, fun hs t ht => ht.decodeReserved_eq hs⟩
  exact ⟨fun h => h ▸ hleft, decodeReserved_of_not_hasEscape⟩

/-- The digits of an escape stand behind two escaped bytes, of either case. -/
theorem decodeReserved_undoes_digits :
    ¬ HasEscape "%2/:2F" ∧ decodeReserved "%2%2f%3A2F" = "%2/:2F" := by
  have hescaped : EscapedAs "%2/:2F" "%2%2f%3A2F" :=
    .plain (by decide) (.plain (by decide) (.reserved (e := "%2f") (by decide)
      (.reserved (e := "%3A") (by decide) (.plain (by decide) (.plain (by decide) .nil)))))
  have hplain : ¬ HasEscape "%2/:2F" := by decide
  exact ⟨hplain, (decodeReserved_undoes "%2/:2F").2.2.2 hplain _ hescaped⟩

end PageServer.Http.Target
