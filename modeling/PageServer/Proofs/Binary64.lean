import Mathlib.Algebra.Order.Field.Power
import Mathlib.Algebra.Order.Field.Rat
import Mathlib.Data.Nat.Log
import Mathlib.Tactic.FieldSimp
import Mathlib.Tactic.Linarith
import Mathlib.Tactic.Positivity
import Mathlib.Tactic.Ring
import PageServer.Binary64.Basic

/-!
# Rounding keeps the order

The double nearest to a quotient is its sign and its *magnitude*, the bits below the sign
(`Binary64.magnitude`). A greater quotient has no lesser magnitude
(`Binary64.magnitude_mono`), and a greater magnitude stands for no lesser number
(`Binary64.worth_mono`).

So if one number is no greater than another, then what they are rounded to is in that order
as well, and the quotient of these, rounded once more, is a *fraction*: a finite number that
is neither negative nor greater than one (`Binary64.isFraction_div`).
-/

namespace PageServer

/-! ### Whole numbers -/

/-- A greater quotient is not rounded to less. -/
theorem roundRatio_mono {n d n' d' : Nat} (hd : 0 < d) (hd' : 0 < d') (h : n * d' ≤ n' * d) :
    roundRatio n d ≤ roundRatio n' d' := by
  have hle : ∀ n d : Nat, n / d ≤ roundRatio n d ∧ roundRatio n d ≤ n / d + 1 := by
    intro n d
    rw [roundRatio]
    split <;> omega
  have hquotient : n / d ≤ n' / d' := by
    rw [Nat.le_div_iff_mul_le hd']
    have hmul : n / d * d' * d ≤ n' * d :=
      (Nat.mul_right_comm ..).trans_le (Nat.le_trans (Nat.mul_le_mul_right _ (Nat.div_mul_le_self n d)) h)
    exact Nat.le_of_mul_le_mul_right hmul hd
  rcases Nat.lt_or_eq_of_le hquotient with hlt | heq
  · exact Nat.le_trans (hle n d).2 (Nat.le_trans hlt (hle n' d').1)
  -- The whole parts are the same, so the remainders decide.
  have hrest : n % d * d' ≤ n' % d' * d := by
    have hsplit := Nat.div_add_mod n d
    have hsplit' := Nat.div_add_mod n' d'
    rw [← hsplit, ← hsplit', ← heq] at h
    nlinarith
  rw [roundRatio, roundRatio, ← heq]
  split
  · next hup =>
    rw [if_pos]
    rcases hup with hmore | ⟨hhalf, hodd⟩
    · refine .inl ?_
      by_contra hnot
      nlinarith
    · rcases Nat.lt_trichotomy d' (2 * (n' % d')) with hmore | hhalf' | hless
      · exact .inl hmore
      · exact .inr ⟨hhalf'.symm, hodd⟩
      · nlinarith
  · split <;> omega

namespace Binary64

variable {num den num' den' : Nat} {e : Int}

/-! ### The place of a quotient -/

theorem shiftRatio_spec (num : Nat) (hden : 0 < den) (e : Int) :
    0 < (shiftRatio num den e).2 ∧
      ((shiftRatio num den e).1 : ℚ) / (shiftRatio num den e).2 = num / den / 2 ^ e := by
  have hden' : (den : ℚ) ≠ 0 := Nat.cast_ne_zero.2 hden.ne'
  rw [shiftRatio]
  split
  · next hneg =>
    refine ⟨hden, ?_⟩
    have habs : e = -(e.natAbs : Int) := by omega
    rw [Nat.shiftLeft_eq, Nat.cast_mul, Nat.cast_pow, Nat.cast_ofNat]
    conv_rhs => rw [habs, zpow_neg, zpow_natCast]
    field_simp
  · next hnonneg =>
    have habs : e = (e.natAbs : Int) := by omega
    refine ⟨by rw [Nat.shiftLeft_eq]; positivity, ?_⟩
    rw [Nat.shiftLeft_eq, Nat.cast_mul, Nat.cast_pow, Nat.cast_ofNat]
    conv_rhs => rw [habs, zpow_natCast]
    field_simp

/-- The binary logarithms tell a quotient up to a factor of two either way. -/
theorem quotient_bounds (hnum : 0 < num) (hden : 0 < den) :
    (2 : ℚ) ^ ((num.log2 : Int) - den.log2 - 1) ≤ num / den ∧
      (num / den : ℚ) < 2 ^ ((num.log2 : Int) - den.log2 + 1) := by
  have htwo : (2 : ℚ) ≠ 0 := by norm_num
  have hden' : (0 : ℚ) < den := Nat.cast_pos.2 hden
  -- Each number lies between two powers of two, which bound the quotient.
  constructor
  · have hnum2 : (2 : ℚ) ^ num.log2 ≤ num := by exact_mod_cast Nat.log2_self_le hnum.ne'
    have hden2 : (den : ℚ) < 2 ^ (den.log2 + 1) := by exact_mod_cast Nat.lt_log2_self
    have hexp : (num.log2 : Int) - den.log2 - 1 = num.log2 - (den.log2 + 1 : Nat) := by
      push_cast
      omega
    rw [le_div_iff₀ hden', hexp, zpow_sub₀ htwo, zpow_natCast, zpow_natCast, div_mul_eq_mul_div,
      div_le_iff₀ (by positivity)]
    exact mul_le_mul hnum2 hden2.le hden'.le (Nat.cast_nonneg _)
  · have hnum2 : (num : ℚ) < 2 ^ (num.log2 + 1) := by exact_mod_cast Nat.lt_log2_self
    have hden2 : (2 : ℚ) ^ den.log2 ≤ den := by exact_mod_cast Nat.log2_self_le hden.ne'
    have hexp : (num.log2 : Int) - den.log2 + 1 = (num.log2 + 1 : Nat) - den.log2 := by
      push_cast
      omega
    rw [div_lt_iff₀ hden', hexp, zpow_sub₀ htwo, zpow_natCast, zpow_natCast, div_mul_eq_mul_div,
      lt_div_iff₀ (by positivity)]
    exact mul_lt_mul hnum2 hden2 (by positivity) (by positivity)

/-- The quotient has its place, with fifty-three bits in front of it, and less of them only
    at the least place. -/
theorem placeOf_spec (hnum : 0 < num) (hden : 0 < den) :
    -1074 ≤ placeOf num den ∧ (num / den : ℚ) < 2 ^ (placeOf num den + 53) ∧
      (-1074 < placeOf num den → 2 ^ (placeOf num den + 52) ≤ (num / den : ℚ)) := by
  have htwo : (2 : ℚ) ≠ 0 := by norm_num
  -- The guess is one too great at most.
  obtain ⟨hlow, hhigh⟩ := quotient_bounds hnum hden
  obtain ⟨guess, hguess⟩ : ∃ guess : Int, guess = (num.log2 : Int) - den.log2 - 52 := ⟨_, rfl⟩
  rw [show (num.log2 : Int) - den.log2 - 1 = guess + 51 by omega] at hlow
  rw [show (num.log2 : Int) - den.log2 + 1 = guess + 53 by omega] at hhigh
  have hbelow : (shiftRatio num den guess).1 < (shiftRatio num den guess).2 * unitBit ↔
      (num / den : ℚ) < 2 ^ (guess + 52) := by
    obtain ⟨hpos, hratio⟩ := shiftRatio_spec num hden guess
    have hpos' : (0 : ℚ) < (shiftRatio num den guess).2 := Nat.cast_pos.2 hpos
    rw [← @Nat.cast_lt ℚ, Nat.cast_mul, mul_comm, ← div_lt_iff₀ hpos', hratio,
      div_lt_iff₀ (zpow_pos (by norm_num) _), add_comm guess, zpow_add₀ htwo]
    norm_num [unitBit]
  have hplace : placeOf num den = max (-1074)
      (if (num / den : ℚ) < 2 ^ (guess + 52) then guess - 1 else guess) := by
    rw [placeOf, ← hguess]
    simp only [hbelow]
  -- With the guess put right there are fifty-three bits in front of the place.
  obtain ⟨place, hright, hlow', hhigh'⟩ : ∃ place : Int, placeOf num den = max (-1074) place ∧
      (2 : ℚ) ^ (place + 52) ≤ num / den ∧ (num / den : ℚ) < 2 ^ (place + 53) := by
    refine ⟨_, hplace, ?_⟩
    split
    · next hless => exact ⟨by rwa [show guess - 1 + 52 = guess + 51 by omega],
        by rwa [show guess - 1 + 53 = guess + 52 by omega]⟩
    · next hless => exact ⟨not_lt.1 hless, hhigh⟩
  rw [hright]
  refine ⟨le_max_left _ _, hhigh'.trans_le (zpow_le_zpow_right₀ (by norm_num) ?_), fun hmore => ?_⟩
  · omega
  · rwa [max_eq_right (by omega)]

/-! ### Magnitudes -/

theorem roundRatio_one (k : Nat) : roundRatio k 1 = k := by
  rw [roundRatio, if_neg (by omega), Nat.div_one]

/-- A number of so many last places is rounded to a mantissa of fifty-three bits, or to the
    one of the next place, and to less only at the least place. -/
theorem magnitude_spec (hnum : 0 < num) (hden : 0 < den) :
    ∃ (place : Nat) (n : Nat × Nat), n = shiftRatio num den ((place : Int) - 1074) ∧
      magnitude num den = place * unitBit + roundRatio n.1 n.2 ∧
      roundRatio n.1 n.2 ≤ 2 * unitBit ∧ (0 < place → unitBit ≤ roundRatio n.1 n.2) ∧
      (num / den : ℚ) < 2 ^ ((place : Int) - 1021) ∧
      (0 < place → (2 : ℚ) ^ ((place : Int) - 1022) ≤ num / den) := by
  have htwo : (2 : ℚ) ≠ 0 := by norm_num
  have hmagnitude : magnitude num den = (placeOf num den + 1074).toNat * unitBit +
      roundRatio (scaled num den).1 (scaled num den).2 := if_neg hnum.ne'
  obtain ⟨hleast, hhigh, hlow⟩ := placeOf_spec hnum hden
  rw [scaled] at hmagnitude
  -- The place is counted from that of the smallest numbers on.
  generalize placeOf num den = e at hmagnitude hleast hhigh hlow
  obtain ⟨place, rfl⟩ : ∃ place : Nat, e = (place : Int) - 1074 := ⟨(e + 1074).toNat, by omega⟩
  rw [Int.sub_add_cancel, Int.toNat_natCast] at hmagnitude
  have hlow := fun hplace : 0 < place => hlow (by omega)
  obtain ⟨hpos, hratio⟩ := shiftRatio_spec num hden ((place : Int) - 1074)
  have hunit : (0 : ℚ) < 2 ^ ((place : Int) - 1074) := zpow_pos (by norm_num) _
  generalize hn : shiftRatio num den ((place : Int) - 1074) = n at hmagnitude hpos hratio
  have hpos' : (0 : ℚ) < n.2 := Nat.cast_pos.2 hpos
  refine ⟨place, n, hn.symm, hmagnitude, ?_, fun hplace => ?_, ?_, fun hplace => ?_⟩
  · rw [zpow_add₀ htwo, ← div_lt_iff₀' hunit, ← hratio, div_lt_iff₀ hpos'] at hhigh
    -- Below twice the unit, rounding does not lead beyond it.
    have hless : n.1 < 2 * unitBit * n.2 := by
      rw [← @Nat.cast_lt ℚ]
      exact hhigh.trans_eq (by norm_num [unitBit])
    exact (roundRatio_mono hpos Nat.one_pos (by rw [Nat.mul_one]; exact hless.le)).trans_eq
      (roundRatio_one _)
  · have hlow := hlow hplace
    rw [zpow_add₀ htwo, ← le_div_iff₀' hunit, ← hratio, le_div_iff₀ hpos'] at hlow
    -- From the unit on, rounding does not lead below it.
    have hless : unitBit * n.2 ≤ n.1 := by
      rw [← @Nat.cast_le ℚ]
      exact hlow.trans_eq' (by norm_num [unitBit])
    exact (roundRatio_one _).symm.trans_le
      (roundRatio_mono Nat.one_pos hpos (by rw [Nat.mul_one]; exact hless))
  · rwa [show (place : Int) - 1021 = place - 1074 + 53 by omega]
  · rw [show (place : Int) - 1022 = place - 1074 + 52 by omega]
    exact hlow hplace

/-- A greater quotient has no lesser magnitude. -/
theorem magnitude_mono (hden : 0 < den) (hden' : 0 < den') (h : num * den' ≤ num' * den) :
    magnitude num den ≤ magnitude num' den' := by
  rcases Nat.eq_zero_or_pos num with rfl | hnum
  · exact (if_pos rfl : magnitude 0 den = 0) ▸ Nat.zero_le _
  have hnum' : 0 < num' := by
    by_contra hnot
    have hpos := Nat.mul_pos hnum hden'
    rw [Nat.eq_zero_of_not_pos hnot, Nat.zero_mul] at h
    omega
  have hquotient : (num / den : ℚ) ≤ num' / den' := by
    rw [div_le_div_iff₀ (Nat.cast_pos.2 hden) (Nat.cast_pos.2 hden')]
    exact_mod_cast h
  obtain ⟨place, n, hn, hmagnitude, hround, -, hhigh, hlow⟩ := magnitude_spec hnum hden
  obtain ⟨place', n', hn', hmagnitude', -, hround', hhigh', hlow'⟩ := magnitude_spec hnum' hden'
  rw [hmagnitude, hmagnitude']
  generalize unitBit = unit at hround hround'
  rcases Nat.lt_trichotomy place place' with hlt | rfl | hgt
  · -- What is rounded up has the least mantissa of the next place at most.
    obtain ⟨k, rfl⟩ := Nat.exists_eq_add_of_lt hlt
    have hround' := hround' (by omega)
    nlinarith
  · -- In the same place the order is that of the mantissas.
    obtain ⟨hpos, hratio⟩ := shiftRatio_spec num hden ((place : Int) - 1074)
    obtain ⟨hpos', hratio'⟩ := shiftRatio_spec num' hden' ((place : Int) - 1074)
    rw [← hn] at hpos hratio
    rw [← hn'] at hpos' hratio'
    refine Nat.add_le_add_left (roundRatio_mono hpos hpos' ?_) _
    have hscaled : (n.1 / n.2 : ℚ) ≤ n'.1 / n'.2 := by
      rw [hratio, hratio']
      exact div_le_div_of_nonneg_right hquotient (zpow_pos (by norm_num) _).le
    rw [div_le_div_iff₀ (Nat.cast_pos.2 hpos) (Nat.cast_pos.2 hpos')] at hscaled
    exact_mod_cast hscaled
  · -- A greater place has only greater quotients.
    have hpow : (2 : ℚ) ^ ((place' : Int) - 1021) ≤ 2 ^ ((place : Int) - 1022) :=
      zpow_le_zpow_right₀ (by norm_num) (by omega)
    exact absurd hquotient (not_le.2 (hhigh'.trans_le (hpow.trans (hlow (by omega)))))

/-! ### What magnitudes stand for -/

/-- One, in units of the least double. -/
def oneWorth : Nat := 2 ^ 1074

/-- The number that a finite magnitude stands for, in units of the least double. -/
def worth (magnitude : Nat) : Nat :=
  if magnitude < unitBit then magnitude
  else (unitBit + magnitude % unitBit) * 2 ^ (magnitude / unitBit - 1)

/-- A greater magnitude stands for no lesser number. -/
theorem worth_mono {a b : Nat} (h : a ≤ b) : worth a ≤ worth b := by
  have hunit : 0 < unitBit := by decide
  rw [worth, worth]
  generalize unitBit = unit at hunit
  have hpow : ∀ k, 1 ≤ 2 ^ k := fun k => Nat.one_le_two_pow
  split
  · split
    · exact h
    · next hless hmore =>
      exact hless.le.trans ((Nat.le_add_right _ _).trans (Nat.le_mul_of_pos_right _ (hpow _)))
  next hmore =>
  rw [if_neg (by omega)]
  have hfield : a / unit ≤ b / unit := Nat.div_le_div_right h
  have hone : 1 ≤ a / unit := (Nat.one_le_div_iff hunit).2 (Nat.not_lt.1 hmore)
  rcases Nat.lt_or_eq_of_le hfield with hlt | heq
  · -- The least number of a field is no less than twice the least one of the field before.
    obtain ⟨k, hk⟩ : ∃ k, b / unit - 1 = a / unit - 1 + 1 + k :=
      ⟨b / unit - a / unit - 1, by omega⟩
    rw [hk, Nat.pow_add, Nat.pow_succ]
    have hmod := Nat.mod_lt a hunit
    calc (unit + a % unit) * 2 ^ (a / unit - 1)
        ≤ unit * (2 ^ (a / unit - 1) * 2 * 1) := by nlinarith [hpow (a / unit - 1)]
      _ ≤ (unit + b % unit) * (2 ^ (a / unit - 1) * 2 * 2 ^ k) :=
          Nat.mul_le_mul (Nat.le_add_right _ _) (Nat.mul_le_mul_left _ (hpow k))
  · have hsplit := Nat.div_add_mod a unit
    have hsplit' := Nat.div_add_mod b unit
    rw [← heq] at hsplit' ⊢
    exact Nat.mul_le_mul_right _ (by omega)

theorem oneWorth_pos : 0 < oneWorth := by
  rw [oneWorth]
  positivity

theorem worth_one : worth (1023 * unitBit) = oneWorth := by
  rw [worth, if_neg (by decide), Nat.mul_mod_left, Nat.mul_div_cancel _ (by decide), Nat.add_zero,
    oneWorth, show 1074 = 52 + 1022 from rfl, Nat.pow_add, show 2 ^ 52 = unitBit from rfl]

theorem ratioOf_pos (m : Nat) (e : Int) : 0 < (ratioOf m e).2 := by
  rw [ratioOf]
  split
  · rw [Nat.one_shiftLeft]
    exact Nat.two_pow_pos _
  · exact Nat.one_pos

theorem ratioOf_worth (m place : Nat) :
    (ratioOf m ((place : Int) - 1074)).1 * oneWorth =
      m * 2 ^ place * (ratioOf m ((place : Int) - 1074)).2 := by
  rw [ratioOf]
  split
  · next hneg =>
    obtain ⟨k, hk⟩ : ∃ k, place + k = 1074 := ⟨1074 - place, by omega⟩
    have habs : ((place : Int) - 1074).natAbs = k := by omega
    rw [habs, Nat.one_shiftLeft, Nat.mul_assoc, ← Nat.pow_add, hk, oneWorth]
  · next hnonneg =>
    obtain ⟨k, hk⟩ : ∃ k, place = k + 1074 := ⟨place - 1074, by omega⟩
    have habs : ((place : Int) - 1074).natAbs = k := by omega
    rw [habs, Nat.shiftLeft_eq, hk, Nat.pow_add, Nat.mul_one, Nat.mul_assoc, oneWorth]

/-- What the bits of a finite magnitude are decoded to. -/
theorem decode_ofFields {bits : Nat} (h : bits < topField) :
    ∃ m place : Nat, (ofFields false bits).decode = .finite false m ((place : Int) - 1074) ∧
      m * 2 ^ place = worth bits := by
  have hunit : 0 < unitBit := by decide
  have hfield : bits / unitBit < 0x7ff := Nat.div_lt_of_lt_mul ((Nat.mul_comm ..).trans_gt h)
  have hbits : (ofFields false bits).bits.toNat = bits := by
    rw [ofFields, UInt64.toNat_ofNat']
    simp only [Bool.false_eq_true, if_false, Nat.zero_add]
    exact Nat.mod_eq_of_lt (h.trans (by decide))
  have hnegative : decide (signBit ≤ bits) = false :=
    decide_eq_false (Nat.not_le.2 (h.trans (by decide)))
  have hmod : bits / unitBit % 0x800 = bits / unitBit := Nat.mod_eq_of_lt (by omega)
  rw [decode]
  simp only [hbits, hnegative, hmod, if_neg hfield.ne, worth]
  -- The smallest numbers have an empty exponent field, and no leading one.
  by_cases hsmall : bits < unitBit
  · have hzero : bits / unitBit = 0 := Nat.div_eq_of_lt hsmall
    refine ⟨bits, 0, ?_, ?_⟩
    · rw [if_pos hzero, Nat.mod_eq_of_lt hsmall]
      rfl
    · rw [if_pos hsmall, Nat.pow_zero, Nat.mul_one]
  · have hone : 1 ≤ bits / unitBit := (Nat.one_le_div_iff hunit).2 (Nat.not_lt.1 hsmall)
    refine ⟨unitBit + bits % unitBit, bits / unitBit - 1, ?_, ?_⟩
    · rw [if_neg (by omega), show ((bits / unitBit : Nat) : Int) - 1075 =
        ((bits / unitBit - 1 : Nat) : Int) - 1074 by omega]
    · rw [if_neg hsmall]

/-- The double is finite, and neither negative nor greater than one. -/
def IsFraction (x : Binary64) : Prop :=
  ∃ m e, x.decode = .finite false m e ∧ (ratioOf m e).1 ≤ (ratioOf m e).2

theorem isFraction_zero : IsFraction (zero false) := ⟨0, -1074, by decide, by decide⟩

theorem magnitude_one : magnitude 1 1 = 1023 * unitBit := by decide +kernel

/-- What is no greater than one is not rounded to more. -/
theorem isFraction_ofRatio (hden : 0 < den) (h : num ≤ den) : IsFraction (ofRatio false num den) := by
  have hone : magnitude num den ≤ 1023 * unitBit :=
    (magnitude_mono hden Nat.one_pos (by omega)).trans_eq magnitude_one
  have htop : magnitude num den < topField := hone.trans_lt (by decide)
  obtain ⟨m, place, hdecode, hworth⟩ := decode_ofFields htop
  rw [ofRatio, if_pos htop]
  refine ⟨m, _, hdecode, ?_⟩
  have hratio := ratioOf_worth m place
  rw [hworth] at hratio
  refine Nat.le_of_mul_le_mul_right (hratio.trans_le ?_) oneWorth_pos
  rw [Nat.mul_comm]
  exact Nat.mul_le_mul_left _ ((worth_mono hone).trans_eq worth_one)

/-- What the double nearest to a count is decoded to. -/
theorem decode_ofInt {n : Nat} (h : n < 2 ^ 63) :
    ∃ m place : Nat, (ofInt n).decode = .finite false m ((place : Int) - 1074) ∧
      m * 2 ^ place = worth (magnitude n 1) := by
  have hmost : magnitude (2 ^ 63) 1 < topField := by decide +kernel
  have htop : magnitude n 1 < topField :=
    (magnitude_mono Nat.one_pos Nat.one_pos (by omega)).trans_lt hmost
  have hnonneg : decide ((n : Int) < 0) = false := decide_eq_false (by omega)
  rw [ofInt, hnonneg, Int.natAbs_natCast, ofRatio, if_pos htop]
  exact decode_ofFields htop

/-- The quotient of two counts of sixty-four bits is a fraction if the first one is no
    greater than the second. -/
theorem isFraction_div {a b : Nat} (h : a ≤ b) (hb : 0 < b) (hb' : b < 2 ^ 63) :
    IsFraction ((ofInt a).div (ofInt b)) := by
  obtain ⟨m, place, hdecode, hworth⟩ := decode_ofInt (h.trans_lt hb')
  obtain ⟨n, place', hdecode', hworth'⟩ := decode_ofInt hb'
  have hle : worth (magnitude a 1) ≤ worth (magnitude b 1) :=
    worth_mono (magnitude_mono Nat.one_pos Nat.one_pos (by omega))
  have hpos : 0 < worth (magnitude b 1) := by
    refine oneWorth_pos.trans_le (worth_one.symm.trans_le (worth_mono ?_))
    exact magnitude_one.symm.trans_le (magnitude_mono Nat.one_pos Nat.one_pos (by omega))
  have hn : n ≠ 0 := by
    rintro rfl
    omega
  have hratio := ratioOf_worth m place
  have hratio' := ratioOf_worth n place'
  have hx := ratioOf_pos m ((place : Int) - 1074)
  have hy := ratioOf_pos n ((place' : Int) - 1074)
  rw [hworth] at hratio
  rw [hworth'] at hratio'
  rw [div, hdecode, hdecode']
  dsimp only
  rw [if_neg hn]
  have hunit := oneWorth_pos
  generalize oneWorth = unit at hratio hratio' hunit
  generalize ratioOf m ((place : Int) - 1074) = x at hratio hx
  generalize ratioOf n ((place' : Int) - 1074) = y at hratio' hy
  refine isFraction_ofRatio (Nat.mul_pos hx ?_) (Nat.le_of_mul_le_mul_right ?_ hunit)
  · exact Nat.pos_of_mul_pos_right (hratio'.symm ▸ Nat.mul_pos hpos hy)
  · -- Both ratios are worths over the same unit, so the worths decide.
    calc x.1 * y.2 * unit
        = worth (magnitude a 1) * (x.2 * y.2) := by
          rw [Nat.mul_right_comm, hratio, Nat.mul_assoc]
      _ ≤ worth (magnitude b 1) * (x.2 * y.2) := Nat.mul_le_mul_right _ hle
      _ = x.2 * y.1 * unit := by
          rw [Nat.mul_left_comm, ← hratio', Nat.mul_assoc]

end Binary64

end PageServer
