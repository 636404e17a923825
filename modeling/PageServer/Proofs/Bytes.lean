import PageServer.Bytes
import Mathlib.Data.List.Basic
import Mathlib.Data.List.Infix

/-!
# Searching in byte strings

The place that `Bytes.find?` tells is the least one at which the text stands
(`find?_eq_some_iff`). A place that was found stays where it is when more bytes
follow (`find?_append`), and a place that is found only then reaches into the
new bytes (`length_lt_of_find?_append`): the two facts that a reader of bytes
arriving in pieces lives on.
-/

namespace PageServer.Bytes

variable {needle s : Bytes} {i : Nat}

/-- A search that starts to count elsewhere finds the same place. -/
theorem findFrom?_eq (needle : Bytes) (start : Nat) (s : Bytes) :
    findFrom? needle start s = (find? needle s).map (· + start) := by
  induction s generalizing start with
  | nil => by_cases h : needle.isEmpty <;> simp [find?, findFrom?, h]
  | cons b rest ih =>
    by_cases h : needle.isPrefixOf (b :: rest)
    · simp [find?, findFrom?, h]
    · simp only [find?, findFrom?, h]
      rw [if_neg (by simp), if_neg (by simp), ih, ih (0 + 1), Option.map_map]
      congr 1
      funext n
      simp only [Function.comp_apply]
      omega

theorem find?_nil (needle : Bytes) : find? needle [] = if needle = [] then some 0 else none := by
  simp [find?, findFrom?]

theorem find?_cons (needle : Bytes) (b : Byte) (rest : Bytes) :
    find? needle (b :: rest) =
      if needle <+: b :: rest then some 0 else (find? needle rest).map (· + 1) := by
  rw [find?, findFrom?, findFrom?_eq]
  simp [List.isPrefixOf_iff_prefix]

/-- The place found is the least one at which the text stands. -/
theorem find?_eq_some_iff :
    find? needle s = some i ↔
      i ≤ s.length ∧ needle <+: s.drop i ∧ ∀ j < i, ¬ needle <+: s.drop j := by
  induction s generalizing i with
  | nil =>
    rw [find?_nil]
    by_cases h : needle = []
    · subst h
      simp only [if_true, Option.some.injEq, List.length_nil, Nat.le_zero, List.nil_prefix,
        not_true_eq_false, imp_false, not_lt, true_and]
      exact ⟨fun h => ⟨h.symm, by omega⟩, fun h => h.1.symm⟩
    · simp [h]
  | cons b rest ih =>
    rw [find?_cons]
    by_cases h : needle <+: b :: rest
    · rw [if_pos h]
      constructor
      · rintro ⟨⟩
        exact ⟨Nat.zero_le _, h, fun j hj => absurd hj (Nat.not_lt_zero j)⟩
      · rintro ⟨-, -, hleast⟩
        cases i with
        | zero => rfl
        | succ i => exact absurd h (hleast 0 i.succ_pos)
    · rw [if_neg h, Option.map_eq_some_iff]
      constructor
      · rintro ⟨k, hk, rfl⟩
        -- A place in the rest is one further in the whole, and the first place is ruled out.
        obtain ⟨hle, hat, hleast⟩ := ih.1 hk
        refine ⟨Nat.succ_le_succ hle, hat, fun j hj => ?_⟩
        cases j with
        | zero => exact h
        | succ j => exact hleast j (Nat.lt_of_succ_lt_succ hj)
      · rintro ⟨hle, hat, hleast⟩
        cases i with
        | zero => exact absurd hat h
        | succ i =>
          refine ⟨i, ih.2 ⟨Nat.le_of_succ_le_succ hle, hat, fun j hj => ?_⟩, rfl⟩
          exact hleast (j + 1) (Nat.succ_lt_succ hj)

/-- The bytes around the place found. -/
theorem eq_of_find? (h : find? needle s = some i) :
    s = s.take i ++ needle ++ s.drop (i + needle.length) := by
  obtain ⟨-, ⟨rest, hrest⟩, -⟩ := find?_eq_some_iff.1 h
  have hdrop : s.drop (i + needle.length) = rest := by
    rw [← List.drop_drop, ← hrest, List.drop_left]
  rw [hdrop, List.append_assoc, hrest, List.take_append_drop]

/-- What was found stays where it is when more bytes follow. -/
theorem find?_append (h : find? needle s = some i) (more : Bytes) :
    find? needle (s ++ more) = some i := by
  obtain ⟨hle, hat, hleast⟩ := find?_eq_some_iff.1 h
  refine find?_eq_some_iff.2 ⟨by rw [List.length_append]; omega, ?_, fun j hj hj' => ?_⟩
  · rw [List.drop_append_of_le_length hle]
    exact hat.trans (List.prefix_append _ _)
  · -- An earlier place would not reach beyond the bytes of `s` either.
    have hfits : needle.length ≤ (s.drop j).length := by
      have := hat.length_le
      simp only [List.length_drop] at this ⊢
      omega
    rw [List.drop_append_of_le_length (by omega)] at hj'
    exact hleast j hj (List.prefix_of_prefix_length_le hj' (List.prefix_append _ _) hfits)

/-- What is found only once more bytes have followed reaches into them. -/
theorem length_lt_of_find?_append {more : Bytes} (h : find? needle s = none)
    (h' : find? needle (s ++ more) = some i) : s.length < i + needle.length := by
  by_contra hlt
  obtain ⟨hle, hat, hleast⟩ := find?_eq_some_iff.1 h'
  have hi : i ≤ s.length := by omega
  rw [List.drop_append_of_le_length hi] at hat
  have hat' : needle <+: s.drop i :=
    List.prefix_of_prefix_length_le hat (List.prefix_append _ _) (by
      rw [List.length_drop]; omega)
  have hleast' : ∀ j < i, ¬ needle <+: s.drop j := fun j hj hj' => by
    refine hleast j hj ?_
    rw [List.drop_append_of_le_length (by omega)]
    exact hj'.trans (List.prefix_append _ _)
  rw [find?_eq_some_iff.2 ⟨hi, hat', hleast'⟩] at h
  cases h

/-- A text occurs in another exactly if it is a part of it. -/
theorem contains_iff_infix : s.contains needle ↔ needle <:+: s := by
  rw [contains, Option.isSome_iff_exists]
  constructor
  · rintro ⟨i, hi⟩
    obtain ⟨-, hat, -⟩ := find?_eq_some_iff.1 hi
    exact hat.isInfix.trans (List.drop_suffix i s).isInfix
  · intro h
    induction s with
    | nil => exact ⟨0, by rw [find?_nil, if_pos (List.infix_nil.1 h)]⟩
    | cons b rest ih =>
      rw [find?_cons]
      split
      · exact ⟨0, rfl⟩
      · next hhead =>
        obtain ⟨i, hi⟩ := ih ((List.infix_cons_iff.1 h).resolve_left hhead)
        exact ⟨i + 1, by rw [hi]; rfl⟩

end PageServer.Bytes
