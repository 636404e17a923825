import PageServer.Http.Target
import PageServer.Proofs.Numeral

/-!
# Numbers in targets

A number in a target fills its text: a sign or none, and digits (`Numeral.Int64Text`). What
else a text may be is told by where it goes wrong (`Numeral.NoInt64`): there is no text that is
both and none that is neither (`Numeral.noInt64_iff`).

A reader of zero-terminated texts is more generous. It passes over white space, stops at the
first byte that does not belong to the number, and holds a number that is too great within
sixty-four bits (`Numeral.scan`). The number that fills a text is the one that such a reader
gives, if there is no white space in front, it went on to the end of the whole text, and it did
not have to hold the number (`Numeral.exactSigned_eq_some_iff_scan`).
-/

namespace PageServer

namespace Numeral

variable {s : Bytes} {b : Byte} {v w : Int}

/-! ### Texts that are no number -/

/-- A text is a numeral with a sign if behind its first byte there are only digits, and this is
    a digit too, or a sign in front of at least one. -/
theorem exists_signedDenotes_iff :
    (∃ v, SignedDenotes s v) ↔ ∃ first rest, s = first :: rest ∧ (∀ c ∈ rest, c.isDigit) ∧
      (first.isDigit ∨ (first = Byte.plus ∨ first = Byte.minus) ∧ rest ≠ []) := by
  have hnumeral : ∀ {t : Bytes}, t ≠ [] → (∀ c ∈ t, c.isDigit) → Denotes 10 t (value 10 t) :=
    fun hne hdigits => denotes_iff.2 ⟨hne, fun c hc => isDigitOf_ten.2 (hdigits c hc), rfl⟩
  constructor
  · rintro ⟨v, h⟩
    cases h with
    | unsigned h =>
      obtain ⟨hne, hdigits, -⟩ := denotes_iff.1 h
      obtain ⟨first, rest, rfl⟩ := List.exists_cons_of_ne_nil hne
      rw [List.forall_mem_cons] at hdigits
      exact ⟨first, rest, rfl, fun c hc => isDigitOf_ten.1 (hdigits.2 c hc),
        .inl (isDigitOf_ten.1 hdigits.1)⟩
    | plus h =>
      obtain ⟨hne, hdigits, -⟩ := denotes_iff.1 h
      exact ⟨_, _, rfl, fun c hc => isDigitOf_ten.1 (hdigits c hc), .inr ⟨.inl rfl, hne⟩⟩
    | minus h =>
      obtain ⟨hne, hdigits, -⟩ := denotes_iff.1 h
      exact ⟨_, _, rfl, fun c hc => isDigitOf_ten.1 (hdigits c hc), .inr ⟨.inr rfl, hne⟩⟩
  · rintro ⟨first, rest, rfl, hrest, hfirst | ⟨rfl | rfl, hne⟩⟩
    · exact ⟨_, .unsigned
        (hnumeral (List.cons_ne_nil _ _) (List.forall_mem_cons.2 ⟨hfirst, hrest⟩))⟩
    · exact ⟨_, .plus (hnumeral hne hrest)⟩
    · exact ⟨_, .minus (hnumeral hne hrest)⟩

/-- A text stands for one number at most. -/
theorem SignedDenotes.unique (h : SignedDenotes s v) (h' : SignedDenotes s w) : v = w := by
  obtain ⟨b, rest, rfl, hspace⟩ := h.exists_cons
  have hhead : ∀ c ∈ (b :: rest).head?, ¬ c.isSpace := fun c hc => Option.some.inj hc ▸ hspace
  rw [← readSigned_eq_some_iff hhead] at h h'
  exact congrArg Prod.fst (Option.some.inj (h.symm.trans h'))

/-- How a text goes wrong that is to be a number of sixty-four bits. -/
inductive NoInt64 : Bytes → Prop
  | empty : NoInt64 []
  | bareSign {sign : Byte} (hsign : sign = Byte.plus ∨ sign = Byte.minus) : NoInt64 [sign]
  /-- White space, say, or a letter. -/
  | badStart {first : Byte} {rest : Bytes} (hdigit : ¬ first.isDigit)
      (hsign : ¬ (first = Byte.plus ∨ first = Byte.minus)) : NoInt64 (first :: rest)
  /-- Anywhere behind the first byte there is something else than a digit: white space, a NUL
      byte, one more sign. -/
  | stray {first c : Byte} {front rest : Bytes} (hdigit : ¬ c.isDigit) :
      NoInt64 (first :: (front ++ c :: rest))
  | outOfRange {s : Bytes} {v : Int} (h : SignedDenotes s v)
      (hrange : v < int64Min ∨ int64Max < v) : NoInt64 s

/-- There is no third kind of texts, and none of both kinds. -/
theorem noInt64_iff : NoInt64 s ↔ ∀ v, ¬ Int64Text s v := by
  constructor
  · intro h v hv
    obtain ⟨first, rest, rfl, hrest, hfirst⟩ := exists_signedDenotes_iff.1 ⟨v, hv.1⟩
    cases h with
    | bareSign hsign =>
      rcases hfirst with hfirst | ⟨-, hne⟩
      · rcases hsign with rfl | rfl <;> exact absurd hfirst (by decide)
      · exact hne rfl
    | badStart hdigit hsign => exact hfirst.elim hdigit fun h => hsign h.1
    | stray hdigit => exact hdigit (hrest _ (by simp))
    | outOfRange h hrange =>
      obtain rfl := h.unique hv.1
      have := hv.2
      omega
  · intro h
    by_cases hsigned : ∃ v, SignedDenotes s v
    · obtain ⟨v, hv⟩ := hsigned
      have hrange : ¬ (int64Min ≤ v ∧ v ≤ int64Max) := fun hrange => h v ⟨hv, hrange⟩
      exact .outOfRange hv (by omega)
    -- No numeral at all: it starts wrongly, or a byte that is no digit follows.
    rw [exists_signedDenotes_iff] at hsigned
    rcases s with _ | ⟨first, rest⟩
    · exact .empty
    by_cases hrest : ∀ c ∈ rest, c.isDigit
    · have hstart : ¬ (first.isDigit ∨ (first = Byte.plus ∨ first = Byte.minus) ∧ rest ≠ []) :=
        fun hstart => hsigned ⟨first, rest, rfl, hrest, hstart⟩
      rw [not_or] at hstart
      by_cases hsign : first = Byte.plus ∨ first = Byte.minus
      · have hnil : rest = [] := by_contra fun hne => hstart.2 ⟨hsign, hne⟩
        exact hnil ▸ .bareSign hsign
      · exact .badStart hstart.1 hsign
    · obtain ⟨c, hc, hdigit⟩ : ∃ c ∈ rest, ¬ c.isDigit := by simpa using hrest
      obtain ⟨front, back, rfl⟩ := List.append_of_mem hc
      exact .stray hdigit

/-! ### Readers of zero-terminated texts -/

/-- What a reader of zero-terminated texts makes of a number in front of a text. -/
structure Scan where
  /-- The number, or the nearest one of sixty-four bits; zero without a digit. -/
  value : Int := 0
  /-- How many bytes were taken; none without a digit. -/
  taken : Nat := 0
  /-- Whether the number is beyond sixty-four bits. -/
  beyond : Bool := false
  deriving DecidableEq

/-- Reads the number in front of a text, after white space, up to the first NUL byte. -/
def scan (s : Bytes) : Scan :=
  match readSigned s.toNul with
  | none => {}
  | some (n, rest) =>
    { value := max int64Min (min n int64Max)
      taken := s.toNul.length - rest.length
      beyond := !fitsInt64 n }

theorem SignedDenotes.toNul_eq (h : SignedDenotes s v) : s.toNul = s := by
  cases h with
  | unsigned h => exact h.toNul_eq
  | plus h => rw [Bytes.toNul_cons (by decide), h.toNul_eq]
  | minus h => rw [Bytes.toNul_cons (by decide), h.toNul_eq]

/-- The number that fills a text is that of a reader of zero-terminated texts under three
    conditions. -/
theorem exactSigned_eq_some_iff_scan :
    exactSigned s = some v ↔
      (∃ b ∈ s.head?, ¬ b.isSpace) ∧ scan s = { value := v, taken := s.length } := by
  rw [exactSigned_eq_some_iff]
  constructor
  · rintro ⟨hs, hmin, hmax⟩
    obtain ⟨b, rest, heq, hspace⟩ := hs.exists_cons
    have hhead : ∀ c ∈ s.head?, ¬ c.isSpace := by
      rw [heq]
      exact fun c hc => Option.some.inj hc ▸ hspace
    refine ⟨⟨b, by rw [heq]; rfl, hspace⟩, ?_⟩
    have hfits : fitsInt64 v = true := by simp [fitsInt64, hmin, hmax]
    have hheld : max int64Min (min v int64Max) = v := by omega
    rw [scan, hs.toNul_eq, (readSigned_eq_some_iff hhead).2 hs]
    simp [hfits, hheld]
  · rintro ⟨⟨b, hb, hspace⟩, hscan⟩
    have hne : 0 < s.length := List.length_pos_iff.2 fun hnil => by simp [hnil] at hb
    have hhead : ∀ c ∈ s.head?, ¬ c.isSpace := fun c hc => by
      obtain rfl := Option.some.inj (hb.symm.trans hc)
      exact hspace
    rw [scan] at hscan
    split at hscan
    · simp only [Scan.mk.injEq] at hscan
      omega
    next n rest hread =>
    simp only [Scan.mk.injEq, fitsInt64, Bool.not_eq_false', Bool.and_eq_true,
      decide_eq_true_eq] at hscan
    obtain ⟨hvalue, htaken, hmin, hmax⟩ := hscan
    -- As many bytes were taken as there are, so there is no NUL byte and no rest.
    have hle := s.toNul_prefix.length_le
    have hwhole : s.toNul = s := s.toNul_prefix.eq_of_length (by omega)
    obtain rfl : rest = [] := List.length_eq_zero_iff.1 (by omega)
    obtain rfl : n = v := by omega
    rw [hwhole, readSigned_eq_some_iff hhead] at hread
    exact ⟨hread, hmin, hmax⟩

end Numeral

namespace Http.Target

open Numeral

/-- A text is read as a number just if it is a decimal numeral, with a sign in front or without
    one, of a number of sixty-four bits; then it is read as that number, and in any other case
    the request is malformed. A number that was written is read back. -/
theorem readNumber_exact (text what : Bytes) :
    (∀ v, readNumber text what = .ok v ↔ Int64Text text v) ∧
      ((readNumber text what).mapError Fault.error =
        .error (.malformed ("Invalid number for " ++ what ++ ": '" ++ text ++ "'")) ↔
          NoInt64 text) ∧
      (∀ v, readNumber text what = .ok v ↔
        (∃ b ∈ text.head?, ¬ b.isSpace) ∧ scan text = { value := v, taken := text.length }) ∧
      ∀ v, int64Min ≤ v → v ≤ int64Max → readNumber (Numeral.ofInt v) what = .ok v := by
  have hok : ∀ {text : Bytes} {v : Int},
      readNumber text what = .ok v ↔ exactSigned text = some v := by
    intro text v
    rw [readNumber]
    split
    · next n hread => rw [hread, Except.ok.injEq, Option.some.injEq]
    · next hread => simp only [hread, reduceCtorEq]
  refine ⟨fun v => hok.trans exactSigned_eq_some_iff, ?_,
    fun v => hok.trans exactSigned_eq_some_iff_scan, fun v hmin hmax => ?_⟩
  · rw [noInt64_iff]
    simp only [← exactSigned_eq_some_iff, readNumber]
    split
    · next n hread => exact iff_of_false nofun fun hnone => hnone n hread
    · next hread => exact iff_of_true rfl fun v hsome => nomatch hread.symm.trans hsome
  · exact hok.2 (exactSigned_eq_some_iff.2 ⟨signedDenotes_ofInt v, hmin, hmax⟩)

/-- Zeros in front do not count, and the least number has no counterpart. -/
example : readNumber "-0009223372036854775808" "n" = .ok int64Min ∧
    readNumber "9223372036854775808" "n" = .error (.badNumber "n" "9223372036854775808") := by
  decide

end Http.Target

end PageServer
