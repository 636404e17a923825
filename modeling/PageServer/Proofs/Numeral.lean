import PageServer.Numeral
import PageServer.Proofs.Text
import Mathlib.Data.List.Induction
import Mathlib.Data.List.TakeDrop
import Mathlib.Data.List.TakeWhile
import Mathlib.Data.Nat.Digits.Defs
import Mathlib.Tactic.IntervalCases

/-!
# Numerals

A numeral of a base is digits, at least one, and stands for a number
(`Numeral.Denotes`). A count that is read from a text is the number of a numeral that
fills the part of the text before its first NUL byte; in base sixteen `0x` may stand
in front (`Numeral.count_ten_eq_some_iff`, `Numeral.count_sixteen_eq_some_iff`). An
exact signed number is that of a numeral with a sign or without one
(`Numeral.exactSigned_eq_some_iff`). A number is written as a numeral that stands for it
(`Numeral.denotes_ofNat`).
-/

namespace PageServer

/-- A number need not be cut to sixty-four bits before more is added. -/
theorem wrapInt64_add (a b : Int) : wrapInt64 (wrapInt64 a + b) = wrapInt64 (a + b) :=
  Int.bmod_add_bmod

/-- A number of sixty-four bits stays as it is. -/
theorem wrapInt64_of_le {n : Int} (hzero : 0 ≤ n) (h : n ≤ int64Max) : wrapInt64 n = n := by
  rw [int64Max] at h
  rw [wrapInt64, wordCount]
  exact Int.bmod_eq_of_le (by omega) (by omega)

/-- The sum of two of them is taken for a negative number if it is none itself. -/
theorem wrapInt64_neg_of_lt {n : Int} (h : int64Max < n) (hle : n ≤ 2 * int64Max) :
    wrapInt64 n < 0 := by
  rw [int64Max] at h hle
  rw [wrapInt64, wordCount, Int.bmod]
  split <;> omega

namespace Numeral

variable {base n : Nat} {s : Bytes} {b : Byte}

/-! ### Numerals -/

/-- The text is a numeral of the base and stands for the number: a digit is one,
    and so is a numeral with one more digit behind it. -/
inductive Denotes (base : Nat) : Bytes → Nat → Prop
  | digit {b : Byte} {d : Nat} (hd : b.digitValue = some d) (hlt : d < base) : Denotes base [b] d
  | snoc {s : Bytes} {n : Nat} {b : Byte} {d : Nat} (hs : Denotes base s n)
      (hd : b.digitValue = some d) (hlt : d < base) : Denotes base (s ++ [b]) (n * base + d)

theorem isDigitOf_iff : isDigitOf base b ↔ ∃ d, b.digitValue = some d ∧ d < base := by
  rw [isDigitOf]
  cases b.digitValue <;> simp

theorem isDigitOf_ten : isDigitOf 10 b ↔ b.isDigit := by
  rw [isDigitOf_iff, Byte.digitValue]
  split
  · next h =>
    refine iff_of_true ⟨_, rfl, ?_⟩ h
    simp only [Byte.isDigit, Bool.and_eq_true, decide_eq_true_eq, UInt8.le_iff_toNat_le,
      UInt8.reduceToNat] at h
    omega
  · next h =>
    refine iff_of_false ?_ h
    rintro ⟨d, hd, hlt⟩
    simp only [Byte.isUpper, Byte.isLower, Bool.and_eq_true, decide_eq_true_eq,
      UInt8.le_iff_toNat_le, UInt8.reduceToNat] at hd
    split at hd
    · cases hd
      omega
    · split at hd <;> cases hd
      omega

theorem value_snoc (s : Bytes) (b : Byte) :
    value base (s ++ [b]) = value base s * base + b.digitValue.getD 0 := by
  simp only [value, List.foldl_append, List.foldl_cons, List.foldl_nil]

theorem value_append (s t : Bytes) :
    value base (s ++ t) = value base s * base ^ t.length + value base t := by
  induction t using List.reverseRecOn with
  | nil => simp [value]
  | append_singleton t b ih =>
    rw [← List.append_assoc, value_snoc, value_snoc, ih, List.length_append, List.length_singleton,
      Nat.pow_succ, Nat.add_mul, Nat.mul_assoc, Nat.add_assoc]

/-- Zeros in front of digits do not count. -/
theorem value_zeros (k : Nat) (s : Bytes) :
    value base (List.replicate k 48 ++ s) = value base s := by
  have hzeros : value base (List.replicate k 48) = 0 := by
    induction k with
    | zero => rfl
    | succ k ih =>
      rw [List.replicate_succ', value_snoc, ih, Nat.zero_mul]
      rfl
  rw [value_append, hzeros, Nat.zero_mul, Nat.zero_add]

/-- A numeral is digits, at least one, and stands for their value. -/
theorem denotes_iff :
    Denotes base s n ↔ s ≠ [] ∧ (∀ b ∈ s, isDigitOf base b) ∧ value base s = n := by
  constructor
  · intro h
    induction h with
    | digit hd hlt =>
      refine ⟨List.cons_ne_nil _ _, List.forall_mem_singleton.2 (isDigitOf_iff.2 ⟨_, hd, hlt⟩), ?_⟩
      simp [value, hd]
    | snoc hs hd hlt ih =>
      obtain ⟨-, hdigits, hvalue⟩ := ih
      refine ⟨List.append_ne_nil_of_right_ne_nil _ (List.cons_ne_nil _ _), ?_, ?_⟩
      · exact List.forall_mem_append.2
          ⟨hdigits, List.forall_mem_singleton.2 (isDigitOf_iff.2 ⟨_, hd, hlt⟩)⟩
      · rw [value_snoc, hvalue, hd]
        rfl
  · rintro ⟨hne, hdigits, rfl⟩
    induction s using List.reverseRecOn with
    | nil => exact absurd rfl hne
    | append_singleton s b ih =>
      rw [List.forall_mem_append, List.forall_mem_singleton] at hdigits
      obtain ⟨d, hd, hlt⟩ := isDigitOf_iff.1 hdigits.2
      rw [value_snoc, hd, Option.getD_some]
      by_cases hs : s = []
      · subst hs
        simpa [value] using Denotes.digit hd hlt
      · exact .snoc (ih hs hdigits.1) hd hlt

instance : Decidable (Denotes base s n) :=
  decidable_of_iff (s ≠ [] ∧ s.all (isDigitOf base) ∧ value base s = n) <| by
    rw [denotes_iff, List.all_eq_true]

theorem not_isSpace_of_isDigitOf (h : isDigitOf base b) : ¬ b.isSpace := by
  obtain ⟨d, hd, -⟩ := isDigitOf_iff.1 h
  intro hspace
  simp only [Byte.isSpace, Byte.digitValue, Byte.isDigit, Byte.isUpper, Byte.isLower,
    Bool.and_eq_true, Bool.or_eq_true, beq_iff_eq, decide_eq_true_eq, UInt8.le_iff_toNat_le,
    ← UInt8.toNat_inj, UInt8.reduceToNat] at hd hspace
  rw [if_neg (by omega), if_neg (by omega), if_neg (by omega)] at hd
  cases hd

/-- There is no white space around a numeral, -/
theorem Denotes.trim_eq (h : Denotes base s n) : s.trim = s := by
  have hspace : ∀ b ∈ s, ¬ b.isSpace := fun b hb =>
    not_isSpace_of_isDigitOf ((denotes_iff.1 h).2.1 b hb)
  have htrimmed : s.Trimmed :=
    ⟨fun b hb => hspace b (List.mem_of_mem_head? hb),
      fun b hb => hspace b (List.mem_of_mem_getLast? hb)⟩
  simpa using Bytes.trim_append (a := []) (b := []) htrimmed (by simp) (by simp)

/-- and no NUL byte in it. -/
theorem Denotes.toNul_eq (h : Denotes base s n) : s.toNul = s := by
  refine Bytes.toNul_of_not_mem fun hzero => ?_
  obtain ⟨d, hd, -⟩ := isDigitOf_iff.1 ((denotes_iff.1 h).2.1 0 hzero)
  cases hd

/-- A digit of a base up to sixteen is a hexadecimal one. -/
theorem isHexDigit_of_isDigitOf (hbase : base ≤ 16) (h : isDigitOf base b) : b.isHexDigit := by
  obtain ⟨d, hd, hlt⟩ := isDigitOf_iff.1 h
  simp only [Byte.digitValue, Byte.isDigit, Byte.isUpper, Byte.isLower, Byte.isHexDigit,
    Bool.and_eq_true, Bool.or_eq_true, decide_eq_true_eq, UInt8.le_iff_toNat_le,
    UInt8.reduceToNat] at hd ⊢
  split at hd
  · omega
  · split at hd
    · cases hd; omega
    · split at hd <;> cases hd
      omega

/-! ### Counts -/

theorem spanDigits_eq (base : Nat) (s : Bytes) :
    spanDigits base s = (s.takeWhile (isDigitOf base), s.dropWhile (isDigitOf base)) :=
  List.span_eq_takeWhile_dropWhile _ _

/-- What is spanned is digits up to what is none. -/
theorem spanDigits_eq_iff {t rest : Bytes} :
    spanDigits base t = (s, rest) ↔
      t = s ++ rest ∧ (∀ b ∈ s, isDigitOf base b) ∧ ∀ b ∈ rest.head?, ¬ isDigitOf base b := by
  rw [spanDigits_eq]
  constructor
  · intro h
    obtain ⟨rfl, rfl⟩ := Prod.mk.inj h
    exact ⟨List.takeWhile_append_dropWhile.symm, fun b hb => List.mem_takeWhile_imp hb,
      fun b hb => Bytes.not_of_mem_head?_dropWhile hb⟩
  · rintro ⟨rfl, hs, hrest⟩
    have hempty : rest.takeWhile (isDigitOf base) = [] := by
      cases rest with
      | nil => rfl
      | cons b rest => exact List.takeWhile_cons_of_neg (hrest b rfl)
    rw [List.takeWhile_append_of_pos hs, hempty, List.append_nil,
      Bytes.dropWhile_append_of_head hs hrest]

/-- A text is a numeral exactly if the digits in front of it fill it. -/
theorem denotes_iff_spanDigits :
    Denotes base s n ↔
      ∃ b digits, spanDigits base s = (b :: digits, []) ∧ value base (b :: digits) = n := by
  rw [denotes_iff, spanDigits_eq]
  constructor
  · rintro ⟨hne, hdigits, hvalue⟩
    obtain ⟨b, digits, rfl⟩ := List.exists_cons_of_ne_nil hne
    exact ⟨b, digits, Prod.ext (List.takeWhile_eq_self_iff.2 hdigits)
      (List.dropWhile_eq_nil_iff.2 hdigits), hvalue⟩
  · rintro ⟨b, digits, hspan, hvalue⟩
    obtain ⟨htake, hdrop⟩ := Prod.mk.inj hspan
    have hs : s = b :: digits := by
      rw [← htake, ← List.append_nil (s.takeWhile _), ← hdrop, List.takeWhile_append_dropWhile]
    exact ⟨hs ▸ List.cons_ne_nil b digits, List.dropWhile_eq_nil_iff.1 hdrop, hs ▸ hvalue⟩

/-- Either there is no mark, or what follows it starts with a hexadecimal digit. -/
theorem dropHexMark_cases (s : Bytes) :
    dropHexMark s = s ∨ ∃ digits, (s = 48 :: 120 :: digits ∨ s = 48 :: 88 :: digits) ∧
      dropHexMark s = digits := by
  unfold dropHexMark
  split
  · next x d rest =>
    split
    · next hmark =>
      simp only [Bool.and_eq_true, Bool.or_eq_true, beq_iff_eq] at hmark
      refine .inr ⟨d :: rest, ?_, rfl⟩
      rcases hmark.1 with rfl | rfl
      · exact .inl rfl
      · exact .inr rfl
    · exact .inl rfl
  · exact .inl rfl

/-- A hexadecimal numeral, or one with `0x` or `0X` in front. -/
def HexDenotes (s : Bytes) (n : Nat) : Prop :=
  Denotes 16 s n ∨ ∃ digits, (s = 48 :: 120 :: digits ∨ s = 48 :: 88 :: digits) ∧
    Denotes 16 digits n

/-- The mark of a hexadecimal count is no digit, so that a numeral has none. -/
theorem denotes_dropHexMark_iff : Denotes 16 (dropHexMark s) n ↔ HexDenotes s n := by
  constructor
  · intro h
    obtain heq | ⟨digits, hmark, heq⟩ := dropHexMark_cases s
    · exact .inl (heq ▸ h)
    · exact .inr ⟨digits, hmark, heq ▸ h⟩
  · rintro (h | ⟨digits, hmark, h⟩)
    · obtain heq | ⟨digits, hmark, heq⟩ := dropHexMark_cases s
      · rwa [heq]
      · have hdigit : ∀ x ∈ s, isDigitOf 16 x := (denotes_iff.1 h).2.1
        rcases hmark with rfl | rfl
        · exact absurd (hdigit 120 (by simp)) (by decide)
        · exact absurd (hdigit 88 (by simp)) (by decide)
    · obtain ⟨hne, hdigits, -⟩ := denotes_iff.1 h
      obtain ⟨d, rest, rfl⟩ := List.exists_cons_of_ne_nil hne
      have hd : d.isHexDigit := isHexDigit_of_isDigitOf le_rfl (hdigits d List.mem_cons_self)
      rcases hmark with rfl | rfl <;> simpa [dropHexMark, hd] using h

/-- The part of a text that a count is read from. -/
def countText (base : Nat) (s : Bytes) : Bytes :=
  if base = 16 then dropHexMark s.toNul else s.toNul

/-- What a count is read from starts with a hexadecimal digit, and so does the
    text itself. -/
theorem isHexDigit_of_denotes_countText (hbase : base ≤ 16)
    (h : Denotes base (countText base s) n) : ∃ b rest, s = b :: rest ∧ b.isHexDigit := by
  obtain ⟨b, digits, htext⟩ := List.exists_cons_of_ne_nil (denotes_iff.1 h).1
  have hb : b.isHexDigit :=
    isHexDigit_of_isDigitOf hbase ((denotes_iff.1 h).2.1 b (htext ▸ List.mem_cons_self))
  -- Either the text starts with the same byte, or with that of the mark.
  have hseen : ∃ b rest, s.toNul = b :: rest ∧ b.isHexDigit := by
    rw [countText] at htext
    split at htext
    · obtain heq | ⟨_, hmark, -⟩ := dropHexMark_cases s.toNul
      · exact ⟨b, digits, heq ▸ htext, hb⟩
      · rcases hmark with hmark | hmark <;> exact ⟨48, _, hmark, by decide⟩
    · exact ⟨b, digits, htext, hb⟩
  obtain ⟨c, rest, hs, hc⟩ := hseen
  cases s with
  | nil => cases hs
  | cons c' s =>
    rw [Bytes.toNul, List.takeWhile_cons] at hs
    split at hs
    · exact ⟨c', s, rfl, (List.cons.inj hs).1 ▸ hc⟩
    · cases hs

/-- A count is the number that the part of the text before its first NUL byte
    stands for, if it is less than `wordCount`. -/
theorem count_eq_some_iff (hbase : base ≤ 16) :
    count base s = some n ↔ Denotes base (countText base s) n ∧ n < wordCount := by
  by_cases hstart : ∃ b rest, s = b :: rest ∧ b.isHexDigit
  · obtain ⟨b, rest, rfl, hb⟩ := hstart
    rw [denotes_iff_spanDigits]
    rcases hspan : spanDigits base (countText base (b :: rest)) with
      ⟨_ | ⟨c, digits⟩, _ | ⟨x, more⟩⟩
    all_goals
      rw [countText] at hspan
      simp only [count, hb, hspan]
    case cons.nil =>
      change (if value base (c :: digits) < wordCount then some (value base (c :: digits))
        else none) = some n ↔ _
      constructor
      · intro h
        split at h
        · next hlt => cases h; exact ⟨⟨c, digits, rfl, rfl⟩, hlt⟩
        · cases h
      · rintro ⟨⟨c', digits', heq, rfl⟩, hlt⟩
        cases heq
        exact if_pos hlt
    -- In the other cases there is no digit, or the digits do not fill the text.
    all_goals simp
  · have hnone : count base s = none := by
      cases s with
      | nil => rfl
      | cons b rest =>
        have hb : ¬ b.isHexDigit := fun hb => hstart ⟨b, rest, rfl, hb⟩
        simp only [count, hb]
        rfl
    rw [hnone]
    exact ⟨fun h => (nomatch h),
      fun h => absurd (isHexDigit_of_denotes_countText hbase h.1) hstart⟩

theorem count_ten_eq_some_iff : count 10 s = some n ↔ Denotes 10 s.toNul n ∧ n < wordCount :=
  count_eq_some_iff (by decide)

theorem count_sixteen_eq_some_iff : count 16 s = some n ↔ HexDenotes s.toNul n ∧ n < wordCount := by
  rw [← denotes_dropHexMark_iff]
  exact count_eq_some_iff le_rfl

/-! ### Signed numbers -/

/-- The text is a decimal numeral, with a sign in front or without one, and stands for the
    number. -/
inductive SignedDenotes : Bytes → Int → Prop
  | unsigned {s : Bytes} {n : Nat} (h : Denotes 10 s n) : SignedDenotes s n
  | plus {s : Bytes} {n : Nat} (h : Denotes 10 s n) : SignedDenotes (Byte.plus :: s) n
  | minus {s : Bytes} {n : Nat} (h : Denotes 10 s n) : SignedDenotes (Byte.minus :: s) (-n)

theorem takeSign_cases (s : Bytes) :
    (∃ rest, s = Byte.minus :: rest ∧ takeSign s = (true, rest)) ∨
      (∃ rest, s = Byte.plus :: rest ∧ takeSign s = (false, rest)) ∨ takeSign s = (false, s) := by
  unfold takeSign
  split
  · exact .inl ⟨_, rfl, rfl⟩
  · exact .inr (.inl ⟨_, rfl, rfl⟩)
  · exact .inr (.inr rfl)

/-- A sign is no digit, so that there is none in front of a numeral. -/
theorem Denotes.takeSign_append (h : Denotes 10 s n) (rest : Bytes) :
    takeSign (s ++ rest) = (false, s ++ rest) := by
  obtain ⟨hne, hdigits, -⟩ := denotes_iff.1 h
  obtain ⟨b, t, rfl⟩ := List.exists_cons_of_ne_nil hne
  have hdigit := hdigits b List.mem_cons_self
  rcases takeSign_cases (b :: t ++ rest) with ⟨_, heq, -⟩ | ⟨_, heq, -⟩ | heq
  · cases heq
    exact absurd hdigit (by decide)
  · cases heq
    exact absurd hdigit (by decide)
  · exact heq

theorem Denotes.takeSign_eq (h : Denotes 10 s n) : takeSign s = (false, s) := by
  simpa using h.takeSign_append []

/-- A text that does not start with white space is read as a sign and digits behind it. -/
theorem readSigned_eq {negative : Bool} {unsigned digits rest : Bytes}
    (hs : ∀ b ∈ s.head?, ¬ b.isSpace) (htake : takeSign s = (negative, unsigned))
    (hspan : spanDigits 10 unsigned = (digits, rest)) :
    readSigned s =
      if digits = [] then none
      else some (if negative then -(value 10 digits : Int) else value 10 digits, rest) := by
  have hdrop : s.dropWhile Byte.isSpace = s := by
    rcases s with _ | ⟨b, s⟩
    · rfl
    · exact List.dropWhile_cons_of_neg (hs b rfl)
  rw [readSigned, hdrop, htake]
  dsimp only
  rw [hspan]
  rcases digits with _ | ⟨b, digits⟩ <;> rfl

/-- What is read of a text that does not start with white space. -/
theorem readSigned_eq_some_iff {v : Int} (hs : ∀ b ∈ s.head?, ¬ b.isSpace) :
    readSigned s = some (v, []) ↔ SignedDenotes s v := by
  constructor
  · intro h
    obtain ⟨⟨negative, unsigned⟩, htake⟩ : ∃ signed, takeSign s = signed := ⟨_, rfl⟩
    obtain ⟨⟨digits, rest⟩, hspan⟩ : ∃ spanned, spanDigits 10 unsigned = spanned := ⟨_, rfl⟩
    rw [readSigned_eq hs htake hspan] at h
    split at h
    · cases h
    next hne =>
    simp only [Option.some.injEq, Prod.mk.injEq] at h
    obtain ⟨hv, rfl⟩ := h
    obtain ⟨b, digits, rfl⟩ := List.exists_cons_of_ne_nil hne
    have hdenotes : Denotes 10 unsigned (value 10 (b :: digits)) :=
      denotes_iff_spanDigits.2 ⟨b, digits, hspan, rfl⟩
    subst hv
    -- What stands in front of the digits tells which kind of numeral it is.
    rcases takeSign_cases s with ⟨rest, rfl, heq⟩ | ⟨rest, rfl, heq⟩ | heq <;>
      obtain ⟨rfl, rfl⟩ := Prod.mk.inj (heq.symm.trans htake)
    · exact .minus hdenotes
    · exact .plus hdenotes
    · exact .unsigned hdenotes
  · have hspan : ∀ {t : Bytes} {n : Nat}, Denotes 10 t n → ∃ b digits,
        spanDigits 10 t = (b :: digits, []) ∧ value 10 (b :: digits) = n :=
      fun ht => denotes_iff_spanDigits.1 ht
    intro h
    cases h with
    | unsigned h =>
      obtain ⟨b, digits, heq, rfl⟩ := hspan h
      exact (readSigned_eq hs h.takeSign_eq heq).trans (if_neg (List.cons_ne_nil b digits))
    | plus h =>
      obtain ⟨b, digits, heq, rfl⟩ := hspan h
      exact (readSigned_eq hs rfl heq).trans (if_neg (List.cons_ne_nil b digits))
    | minus h =>
      obtain ⟨b, digits, heq, rfl⟩ := hspan h
      exact (readSigned_eq hs rfl heq).trans (if_neg (List.cons_ne_nil b digits))

/-- No numeral starts with white space. -/
theorem SignedDenotes.exists_cons {v : Int} (h : SignedDenotes s v) :
    ∃ b rest, s = b :: rest ∧ ¬ b.isSpace := by
  cases h with
  | unsigned h =>
    obtain ⟨hne, hdigits, -⟩ := denotes_iff.1 h
    obtain ⟨b, rest, rfl⟩ := List.exists_cons_of_ne_nil hne
    exact ⟨b, rest, rfl, not_isSpace_of_isDigitOf (hdigits b List.mem_cons_self)⟩
  | plus h => exact ⟨_, _, rfl, by decide⟩
  | minus h => exact ⟨_, _, rfl, by decide⟩

/-- The text is a numeral with a sign or without one, of a number that fits sixty-four
    bits. -/
def Int64Text (s : Bytes) (v : Int) : Prop := SignedDenotes s v ∧ int64Min ≤ v ∧ v ≤ int64Max

theorem exactSigned_eq_some_iff {v : Int} : exactSigned s = some v ↔ Int64Text s v := by
  by_cases hstart : ∃ b rest, s = b :: rest ∧ ¬ b.isSpace
  · obtain ⟨b, rest, rfl, hb⟩ := hstart
    rw [Int64Text, ← readSigned_eq_some_iff (s := b :: rest) (fun c hc => Option.some.inj hc ▸ hb)]
    simp only [exactSigned, hb, fitsInt64, Bool.and_eq_true, decide_eq_true_eq]
    constructor
    · intro h
      simp only [Bool.false_eq_true, if_false] at h
      split at h
      · next n hread =>
        split at h
        · next hfits =>
          cases h
          exact ⟨hread, hfits⟩
        · cases h
      · cases h
    · rintro ⟨hread, hfits⟩
      simp only [hread, Bool.false_eq_true, if_false, if_pos hfits]
  · refine ⟨fun h => ?_, fun h => absurd h.1.exists_cons hstart⟩
    cases s with
    | nil => cases h
    | cons b rest =>
      have hb : b.isSpace := by_contra fun hb => hstart ⟨b, rest, rfl, hb⟩
      simp only [exactSigned, hb, if_true] at h
      cases h

/-! ### Written numbers -/

theorem length_hexDigits (k n : Nat) : (hexDigits k n).length = k := by
  induction k generalizing n with
  | zero => rfl
  | succ k ih => rw [hexDigits, List.length_append, ih, List.length_singleton]

theorem isHexDigit_ofDigit {d : Nat} (h : d < 16) : (Byte.ofDigit d).isHexDigit := by
  interval_cases d <;> decide

theorem isHexDigit_of_mem_hexDigits {k n : Nat} {b : Byte} (h : b ∈ hexDigits k n) :
    b.isHexDigit := by
  induction k generalizing n with
  | zero => cases h
  | succ k ih =>
    rcases List.mem_append.1 h with h | h
    · exact ih h
    · rw [List.mem_singleton.1 h]
      exact isHexDigit_ofDigit (Nat.mod_lt _ (by decide))

theorem digitValue_digitChar {d : Nat} (h : d < 10) :
    Byte.digitValue (UInt8.ofNat (Nat.digitChar d).toNat) = some d := by
  interval_cases d <;> decide

theorem ofNat_of_lt (h : n < 10) : ofNat n = [UInt8.ofNat (Nat.digitChar n).toNat] := by
  rw [ofNat, Nat.toDigits_of_lt_base h]
  rfl

theorem ofNat_of_le (h : 10 ≤ n) :
    ofNat n = ofNat (n / 10) ++ [UInt8.ofNat (Nat.digitChar (n % 10)).toNat] := by
  rw [ofNat, Nat.toDigits_of_base_le (by decide) h, List.map_append]
  rfl

/-- A number is written as a numeral that stands for it. -/
theorem denotes_ofNat (n : Nat) : Denotes 10 (ofNat n) n := by
  induction n using Nat.strongRecOn with
  | ind n ih =>
    by_cases hn : n < 10
    · rw [ofNat_of_lt hn]
      exact .digit (digitValue_digitChar hn) hn
    · have hlt : n % 10 < 10 := Nat.mod_lt _ (by decide)
      have hsnoc := (ih (n / 10) (by omega)).snoc (digitValue_digitChar hlt) hlt
      rwa [← ofNat_of_le (Nat.not_lt.1 hn), Nat.div_add_mod'] at hsnoc

/-- There is no zero in front of a number, but for zero itself. -/
theorem ofNat_eq_zero_of_head (h : (ofNat n).head? = some 48) : ofNat n = [48] := by
  induction n using Nat.strongRecOn with
  | ind n ih =>
    by_cases hn : n < 10
    · rw [ofNat_of_lt hn] at h ⊢
      exact congrArg (fun b => [b]) (Option.some.inj h)
    · have hfront := denotes_iff.1 (denotes_ofNat (n / 10))
      rw [ofNat_of_le (Nat.not_lt.1 hn), List.head?_append_of_ne_nil _ hfront.1] at h
      have hvalue := hfront.2.2
      rw [ih (n / 10) (by omega) h] at hvalue
      exact absurd (show 0 = n / 10 from hvalue) (by omega)

theorem eq_ofNat_digitChar {d : Nat} (hd : b.digitValue = some d) (hlt : d < 10) :
    b = UInt8.ofNat (Nat.digitChar d).toNat := by
  have hdigit : b.isDigit := isDigitOf_ten.1 (isDigitOf_iff.2 ⟨d, hd, hlt⟩)
  rw [Byte.digitValue, if_pos hdigit, Option.some.injEq] at hd
  simp only [Byte.isDigit, Bool.and_eq_true, decide_eq_true_eq, UInt8.le_iff_toNat_le,
    UInt8.reduceToNat] at hdigit
  rw [Nat.toNat_digitChar_of_lt_ten hlt, ← UInt8.toNat_inj, UInt8.toNat_ofNat']
  omega

/-- A numeral without a zero in front is how its number is written. -/
theorem Denotes.ofNat_eq (h : Denotes 10 s n) (hzero : s.head? = some 48 → s = [48]) :
    ofNat n = s := by
  induction h with
  | digit hd hlt => rw [ofNat_of_lt hlt, ← eq_ofNat_digitChar hd hlt]
  | @snoc s n b d hs hd hlt ih =>
    have hne := (denotes_iff.1 hs).1
    -- The numeral goes on, so it does not start with a zero.
    have hhead : s.head? ≠ some 48 := fun hhead => by
      rw [List.head?_append_of_ne_nil _ hne] at hzero
      have hlength := congrArg List.length (hzero hhead)
      rw [List.length_append, List.length_singleton, List.length_singleton] at hlength
      exact hne (List.length_eq_zero_iff.1 (by omega))
    have hfront := ih fun h => absurd h hhead
    have hpos : 0 < n := by
      refine Nat.pos_of_ne_zero fun hn => hhead ?_
      rw [← hfront, hn]
      rfl
    rw [ofNat_of_le (by omega), show (n * 10 + d) / 10 = n by omega,
      show (n * 10 + d) % 10 = d by omega, hfront, ← eq_ofNat_digitChar hd hlt]

theorem length_ofNat_le {k : Nat} (hk : 0 < k) (h : n < 10 ^ k) : (ofNat n).length ≤ k := by
  rw [ofNat, List.length_map]
  exact Nat.toDigits_length 10 n k hk h

/-- An integer is written as a numeral that stands for it. -/
theorem signedDenotes_ofInt (n : Int) : SignedDenotes (ofInt n) n := by
  cases n with
  | ofNat n => exact .unsigned (denotes_ofNat n)
  | negSucc n => exact .minus (denotes_ofNat (n + 1))

theorem Denotes.unbroken (h : Denotes base s n) : s.Unbroken := by
  have hdigits := (denotes_iff.1 h).2.1
  exact ⟨fun hb => not_isSpace_of_isDigitOf (hdigits _ hb) (by decide),
    fun hb => not_isSpace_of_isDigitOf (hdigits _ hb) (by decide)⟩

/-- An integer is written in digits, but for its sign. -/
theorem isDigitOf_of_mem_ofInt {n : Int} (h : b ∈ ofInt n) : b = Byte.minus ∨ isDigitOf 10 b := by
  cases n with
  | ofNat n => exact .inr ((denotes_iff.1 (denotes_ofNat n)).2.1 b h)
  | negSucc n =>
    rcases List.mem_cons.1 h with rfl | h
    · exact .inl rfl
    · exact .inr ((denotes_iff.1 (denotes_ofNat (n + 1))).2.1 b h)

theorem unbroken_ofInt (n : Int) : (ofInt n).Unbroken :=
  ⟨fun h => (isDigitOf_of_mem_ofInt h).elim (by decide) (by decide),
    fun h => (isDigitOf_of_mem_ofInt h).elim (by decide) (by decide)⟩

end Numeral

end PageServer
