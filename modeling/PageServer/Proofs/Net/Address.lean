import PageServer.Net.Address
import PageServer.Proofs.Numeral

/-!
# Addresses and their texts

An address has one text, and no other text is read as it (`Net.Address.read_eq_some_iff`): the
reader takes in exactly what is written, up to the first NUL byte.
-/

namespace PageServer.Net.Address

open Numeral

variable {text : Bytes} {n : UInt8} {x : Address}

theorem readOctet_eq_some_iff : readOctet text = some n ↔ text = ofNat n.toNat := by
  constructor
  · intro h
    rcases text with _ | ⟨first, rest⟩
    · cases h
    rw [readOctet] at h
    split at h
    · cases h
    next hdigits =>
    simp only [Bool.or_eq_true, Bool.not_eq_true', Bool.and_eq_true, beq_iff_eq, not_or,
      Bool.not_eq_false, List.all_eq_true, List.isEmpty_eq_false_iff, not_and, not_not] at hdigits
    obtain ⟨hall, hzero⟩ := hdigits
    dsimp only at h
    split at h
    · next hlt =>
      cases h
      have hdenotes : Denotes 10 (first :: rest) (value 10 (first :: rest)) :=
        denotes_iff.2 ⟨List.cons_ne_nil _ _, fun b hb => isDigitOf_ten.2 (hall b hb), rfl⟩
      rw [UInt8.toNat_ofNat_of_lt' hlt]
      refine (hdenotes.ofNat_eq fun hhead => ?_).symm
      obtain rfl : first = 48 := Option.some.inj hhead
      rw [hzero rfl]
    · cases h
  · rintro rfl
    obtain ⟨hne, hdigits, hvalue⟩ := denotes_iff.1 (denotes_ofNat n.toNat)
    obtain ⟨first, rest, htext⟩ := List.exists_cons_of_ne_nil hne
    -- Only zero itself starts with a zero.
    have hzero : first = 48 → rest = [] := fun hfirst => by
      have hwhole := ofNat_eq_zero_of_head (n := n.toNat) (by rw [htext, hfirst]; rfl)
      rw [htext] at hwhole
      exact (List.cons.inj hwhole).2
    rw [htext] at hdigits hvalue ⊢
    have hall : (first :: rest).all Byte.isDigit := List.all_eq_true.2 fun b hb =>
      isDigitOf_ten.1 (hdigits b hb)
    have hok : ¬ ((!(first :: rest).all Byte.isDigit || (first == 48 && !rest.isEmpty)) = true) := by
      simpa [hall] using hzero
    rw [readOctet, if_neg hok, hvalue]
    simp only [n.toNat_lt, if_true, UInt8.ofNat_toNat]

theorem dot_not_mem_ofNat (n : Nat) : Byte.dot ∉ ofNat n := fun hmem =>
  absurd ((denotes_iff.1 (denotes_ofNat n)).2.1 _ hmem) (by decide)

/-- What is read as an address is its text, up to the first NUL byte. -/
theorem read_eq_some_iff {port : UInt16} :
    read text port = some x ↔ text.toNul = x.ip ∧ x.port = port := by
  obtain ⟨a, b, c, d, port'⟩ := x
  constructor
  · intro h
    rw [read] at h
    split at h
    · next p q r s hsplit =>
      simp only [Option.bind_eq_bind, Option.bind_eq_some_iff, Option.pure_def, Option.some.injEq,
        readOctet_eq_some_iff, mk.injEq] at h
      obtain ⟨_, rfl, _, rfl, _, rfl, _, rfl, rfl, rfl, rfl, rfl, rfl⟩ := h
      exact ⟨(Bytes.piecesOf_iff.2 hsplit).2.2.symm, rfl⟩
    · cases h
  · rintro ⟨htext, rfl⟩
    have hsplit : text.toNul.splitOn Byte.dot =
        [ofNat a.toNat, ofNat b.toNat, ofNat c.toNat, ofNat d.toNat] := by
      refine Bytes.piecesOf_iff.1 ⟨List.cons_ne_nil _ _, ?_, htext.symm⟩
      simp only [List.forall_mem_cons, dot_not_mem_ofNat, not_false_eq_true, true_and]
      exact fun _ h => nomatch h
    simp only [read, hsplit, readOctet_eq_some_iff.2 rfl]
    rfl

end PageServer.Net.Address
