/-
Doubles in documents. Every whole double is an integer exactly (`Binary64.ofInt_toInt`), every
integer of 64 bits has a double near it (`Binary64.isFinite_ofInt`), and what a finite double is
written as denotes it, neither rounded nor cut (`Document.Number.ofBinary64_denotes`).
-/
import JsonTemplate.Proofs.Outcome
import JsonTemplate.Value.Json

namespace JsonTemplate

namespace Binary64

/-- A whole number is a double as it stands. -/
theorem ofInt_toInt {x : Binary64} (h : x.isWhole = true) : (ofInt x.toInt).equal x = true := by
  cases x with
  | nan => cases h
  | infinite => cases h
  | finite negative units hunits =>
    have hwhole : units / one * one = units :=
      Nat.div_mul_cancel (Nat.dvd_of_mod_eq_zero (beq_iff_eq.mp h))
    have habs : (toInt (finite negative units hunits)).natAbs = units / one := by
      cases negative
      · exact Int.natAbs_natCast _
      · exact (Int.natAbs_neg _).trans (Int.natAbs_natCast _)
    have hround : ofInt (toInt (finite negative units hunits)) =
        finite (decide (toInt (finite negative units hunits) < 0)) units hunits := by
      simp only [ofInt, habs, hwhole, round, hunits, and_self, dite_true]
    rw [hround]
    cases negative with
    | false =>
      have hsign : ¬ toInt (finite false units hunits) < 0 :=
        Int.not_lt.mpr (Int.natCast_nonneg (units / one))
      simp [equal, rank?, hsign]
    | true =>
      -- A zero has lost its sign, which makes no difference.
      rcases Nat.eq_zero_or_pos (units / one) with hzero | hpos
      · have hunits : units = 0 := by rw [← hwhole, hzero, Nat.zero_mul]
        simp [equal, rank?, hunits]
      · have hsign : toInt (finite true units hunits) < 0 :=
          Int.neg_neg_of_pos (Int.natCast_pos.mpr hpos)
        simp [equal, rank?, hsign]
theorem equal_self {x : Binary64} (h : x.isFinite = true) : x.equal x = true := by
  cases x with
  | finite negative units => simp [equal, rank?]
  | _ => cases h

theorem one_eq_pow : ∃ places, places = 1074 ∧ one = Nat.pow 2 places := by
  unfold one
  exact ⟨_, rfl, rfl⟩

theorem limit_eq_pow : ∃ places, places = 2098 ∧ limit = Nat.pow 2 places := by
  unfold limit
  exact ⟨_, rfl, rfl⟩

/-- A significand of 53 bits, or the next power of two. -/
theorem representable_of_significand {q shift : Nat} (hq : q ≤ Nat.pow 2 53)
    (hlimit : q * Nat.pow 2 shift < limit) : Representable (q * Nat.pow 2 shift) := by
  refine ⟨hlimit, ?_⟩
  show q * 2 ^ shift % 2 ^ ((q * 2 ^ shift).log2 - 52) = 0
  rcases Nat.eq_zero_or_pos q with rfl | hpos
  · rw [Nat.zero_mul, Nat.zero_mod]
  · rcases Nat.lt_or_eq_of_le hq with hlt | rfl
    · have hlog : (q * 2 ^ shift).log2 < 53 + shift := by
        rw [Nat.log2_lt (Nat.ne_of_gt (Nat.mul_pos hpos (Nat.two_pow_pos _))), Nat.pow_add]
        exact Nat.mul_lt_mul_of_pos_right hlt (Nat.two_pow_pos _)
      exact Nat.mod_eq_zero_of_dvd
        (Nat.dvd_trans (Nat.pow_dvd_pow 2 (by omega)) (Nat.dvd_mul_left _ _))
    · show 2 ^ 53 * 2 ^ shift % 2 ^ ((2 ^ 53 * 2 ^ shift).log2 - 52) = 0
      rw [← Nat.pow_add, Nat.log2_two_pow]
      exact Nat.mod_eq_zero_of_dvd (Nat.pow_dvd_pow 2 (by omega))

theorem divideToEven_le {dividend divisor bound : Nat} (h : dividend / divisor < bound) :
    divideToEven dividend divisor ≤ bound := by
  unfold divideToEven
  dsimp only
  split <;> omega

/-- A magnitude well below the limit is rounded to a double. -/
theorem isFinite_round (negative : Bool) {dividend : Nat} (h : dividend.log2 < 2044) :
    (round negative dividend 1).isFinite = true := by
  unfold round
  split
  · rfl
  dsimp only
  rw [Nat.div_one, Nat.one_mul]
  obtain ⟨places, hplaces, hlimit⟩ := limit_eq_pow
  generalize hshift : dividend.log2 - 52 = shift
  have hquotient : divideToEven dividend (Nat.pow 2 shift) ≤ Nat.pow 2 53 := by
    refine divideToEven_le (Nat.div_lt_of_lt_mul ?_)
    calc dividend < 2 ^ (dividend.log2 + 1) := Nat.lt_log2_self
      _ ≤ 2 ^ (shift + 53) := Nat.pow_le_pow_right (by decide) (by omega)
      _ = 2 ^ shift * 2 ^ 53 := Nat.pow_add ..
  have hbelow : divideToEven dividend (Nat.pow 2 shift) * Nat.pow 2 shift < limit := by
    calc divideToEven dividend (Nat.pow 2 shift) * Nat.pow 2 shift
        ≤ 2 ^ 53 * 2 ^ shift := Nat.mul_le_mul_right _ hquotient
      _ = 2 ^ (53 + shift) := (Nat.pow_add ..).symm
      _ < 2 ^ places := Nat.pow_lt_pow_right (by decide) (by omega)
      _ = limit := hlimit.symm
  rw [ofUnits, dif_pos (representable_of_significand hquotient hbelow)]
  rfl

theorem isFinite_ofInt {n : Int} (h : n.natAbs < 18446744073709551616) :
    (ofInt n).isFinite = true := by
  refine isFinite_round _ ?_
  obtain ⟨places, hplaces, hone⟩ := one_eq_pow
  rcases Nat.eq_zero_or_pos n.natAbs with hzero | hpos
  · rw [hzero, Nat.zero_mul]
    decide
  have hlt : n.natAbs * one < 2 ^ (64 + places) := by
    rw [hone, Nat.pow_add]
    exact Nat.mul_lt_mul_of_pos_right h (Nat.two_pow_pos _)
  have hne : n.natAbs * one ≠ 0 := by
    rw [hone]
    exact Nat.ne_of_gt (Nat.mul_pos hpos (Nat.two_pow_pos _))
  have hlog := (Nat.log2_lt hne).mpr hlt
  omega

end Binary64

namespace Document

namespace Number

/-- The number is the double, neither rounded nor cut. -/
def Denotes (n : Number) (x : Binary64) : Prop :=
  match n with
  | integer i => x.toInt? = some i
  | double y => y = x

/-- What a finite double is written as. -/
def ofBinary64 (x : Binary64) : Number :=
  match x.toInt? with
  | some i => if i.natAbs ≤ Nat.pow 2 53 then integer i else double x
  | none => double x

theorem ofBinary64_denotes (x : Binary64) : (ofBinary64 x).Denotes x := by
  unfold ofBinary64
  split
  · split
    · assumption
    · rfl
  · rfl

/-- A number that is a double reads as the double, up to the sign of a zero. -/
theorem Denotes.equal {n : Number} {x : Binary64} (h : n.Denotes x) (hx : x.isFinite = true) :
    n.toBinary64.equal x = true := by
  cases n with
  | integer i =>
    rw [Denotes, Binary64.toInt?, Option.ite_none_right_eq_some, Option.some.injEq] at h
    obtain ⟨hwhole, rfl⟩ := h
    exact Binary64.ofInt_toInt hwhole
  | double y =>
    cases h
    exact Binary64.equal_self hx

/-- Whole numbers of 64 bits, with or without a sign, and finite doubles. -/
def InRange : Number → Prop
  | integer i => -9223372036854775808 ≤ i ∧ i < 18446744073709551616
  | double x => x.isFinite = true

theorem InRange.isFinite {n : Number} (h : n.InRange) : n.toBinary64.isFinite = true := by
  cases n with
  | integer i =>
    obtain ⟨hlow, hhigh⟩ := h
    exact Binary64.isFinite_ofInt (by omega)
  | double x => exact h

end Number

theorem ofBinary64_of_finite {x : Binary64} (h : x.isFinite = true) :
    Document.ofBinary64 x = .number (.ofBinary64 x) := by
  rw [Document.ofBinary64, Number.ofBinary64]
  cases x.toInt? with
  | some i => rfl
  | none => exact if_pos h

end Document

end JsonTemplate
