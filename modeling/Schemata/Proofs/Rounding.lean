import Mathlib.Algebra.Order.Field.Power
import Mathlib.Data.Rat.Lemmas
import Mathlib.Tactic.FieldSimp
import Mathlib.Tactic.Linarith
import Mathlib.Tactic.Ring
import Schemata.Keywords.Bound
/-!
# Rounding — bounds compared as binary floating-point numbers

A bound is a number of 64 bits, signed, unsigned or binary, and is rounded to a binary number before
it is compared with an edge.  A whole number below `2 ^ 53` is not changed by that, and a larger one
stays at `2 ^ 53` or above; so rounding moves no number across an edge, and the comparison decides as
the exact values would (`Number.nearest_iff`).
-/
namespace Schemata

namespace Binary64

/-! ## Exact values -/

theorem magnitude_den_pos (x : Binary64) : 0 < x.magnitude.2 := by
  unfold magnitude
  split
  · exact Nat.two_pow_pos _
  · exact Nat.one_pos

/-- The exact value. -/
def value (x : Binary64) : ℚ := x.fraction.1 / x.fraction.2

theorem isLess_iff (x y : Binary64) : x.isLess y = true ↔ x.value < y.value := by
  have hx : (0 : ℚ) < x.fraction.2 := by exact_mod_cast x.magnitude_den_pos
  have hy : (0 : ℚ) < y.fraction.2 := by exact_mod_cast y.magnitude_den_pos
  rw [isLess, decide_eq_true_eq, value, value, div_lt_div_iff₀ hx hy]
  exact_mod_cast Iff.rfl

theorem magnitude_eq (x : Binary64) :
    (x.magnitude.1 : ℚ) / x.magnitude.2 = x.significand * 2 ^ x.exponent := by
  unfold magnitude
  split
  · rename_i h
    obtain ⟨k, hk⟩ : ∃ k : ℕ, x.exponent = -k := ⟨(-x.exponent).toNat, by omega⟩
    rw [hk, neg_neg, Int.toNat_natCast, zpow_neg, zpow_natCast, ← div_eq_mul_inv, Nat.pow_eq]
    push_cast
    rfl
  · rename_i h
    obtain ⟨k, hk⟩ : ∃ k : ℕ, x.exponent = k := ⟨x.exponent.toNat, by omega⟩
    rw [hk, Int.toNat_natCast, zpow_natCast, Nat.pow_eq]
    push_cast
    exact div_one _

theorem value_eq (x : Binary64) :
    x.value = (if x.negative then -1 else 1) * (x.significand * 2 ^ x.exponent) := by
  rw [← magnitude_eq, value, fraction]
  cases x.negative <;> simp [neg_div]

/-- Where the steps of a unit fill a binade, they are the significand and the unit is the
exponent. -/
theorem parts_of_ordinal {x : Binary64} {e m : Nat} (h : x.ordinal = e * binade + m)
    (hm : binade ≤ m) (hm' : m < 2 * binade) :
    x.significand = m ∧ x.exponent = (e : Int) - 1074 := by
  have hbinade : 0 < binade := by decide
  have hlarge : ¬x.ordinal < binade := by
    rw [h, Nat.not_lt]
    exact le_trans hm (Nat.le_add_left _ _)
  obtain ⟨j, rfl⟩ : ∃ j, m = binade + j := ⟨m - binade, by omega⟩
  have hj : j < binade := by omega
  have hord : x.ordinal = binade * (e + 1) + j := by rw [h]; ring
  constructor
  · rw [significand, if_neg hlarge, hord, Nat.mul_add_mod, Nat.mod_eq_of_lt hj]
  · rw [exponent, if_neg hlarge, hord, Nat.mul_add_div hbinade, Nat.div_eq_of_lt hj]
    push_cast
    ring

/-- The steps may also carry into the next binade: the value is their number times the unit. -/
theorem magnitude_of_ordinal {x : Binary64} {e m : Nat} (h : x.ordinal = e * binade + m)
    (hm : binade ≤ m) (hm' : m ≤ 2 * binade) :
    (x.significand : ℚ) * 2 ^ x.exponent = m * 2 ^ ((e : Int) - 1074) := by
  rcases Nat.lt_or_eq_of_le hm' with hlt | rfl
  · obtain ⟨hs, he⟩ := parts_of_ordinal h hm hlt
    rw [hs, he]
  · have h' : x.ordinal = (e + 1) * binade + binade := by rw [h]; ring
    obtain ⟨hs, he⟩ := parts_of_ordinal h' le_rfl (by decide)
    rw [hs, he]
    push_cast
    rw [show ((e : Int) + 1 - 1074) = ((e : Int) - 1074) + 1 by ring, zpow_add_one₀ two_ne_zero]
    ring

/-! ## Whole numbers -/

theorem roundQuotient_one (n : Nat) : roundQuotient n 1 = n := by
  simp [roundQuotient, Nat.mod_one]

theorem div_le_roundQuotient (num den : Nat) : num / den ≤ roundQuotient num den := by
  unfold roundQuotient
  dsimp only
  split
  · exact Nat.le_succ _
  · exact le_rfl

theorem roundQuotient_le (num den : Nat) : roundQuotient num den ≤ num / den + 1 := by
  unfold roundQuotient
  dsimp only
  split
  · exact le_rfl
  · exact Nat.le_succ _

theorem floorLog2_one {n : Nat} (h : n ≠ 0) : floorLog2 n 1 = n.log2 := by
  have hle : 2 ^ n.log2 ≤ n := Nat.log2_self_le h
  have hone : Nat.log2 1 = 0 := by decide
  simp [floorLog2, hone, hle]

/-- A whole number in units of the 52nd part of its leading binary digit. -/
def wholeSteps (n : Nat) : Nat :=
  if n.log2 < 52 then n * 2 ^ (52 - n.log2) else roundQuotient n (2 ^ (n.log2 - 52))

theorem wholeSteps_bounds {n : Nat} (h : n ≠ 0) :
    binade ≤ wholeSteps n ∧ wholeSteps n ≤ 2 * binade := by
  have hle : 2 ^ n.log2 ≤ n := Nat.log2_self_le h
  have hlt : n < 2 ^ (n.log2 + 1) := Nat.lt_log2_self
  have hbinade : binade = 2 ^ 52 := by decide
  have hdouble : 2 * binade = 2 ^ 53 := by decide
  unfold wholeSteps
  split
  · rename_i hsmall
    have hlow : 2 ^ n.log2 * 2 ^ (52 - n.log2) = 2 ^ 52 := by
      rw [← Nat.pow_add]
      congr 1
      omega
    have hhigh : 2 ^ (n.log2 + 1) * 2 ^ (52 - n.log2) = 2 ^ 53 := by
      rw [← Nat.pow_add]
      congr 1
      omega
    rw [hdouble, hbinade, ← hlow, ← hhigh]
    exact ⟨Nat.mul_le_mul_right _ hle, Nat.mul_le_mul_right _ hlt.le⟩
  · rename_i hlarge
    have hlow : 2 ^ 52 * 2 ^ (n.log2 - 52) = 2 ^ n.log2 := by
      rw [← Nat.pow_add]
      congr 1
      omega
    have hhigh : 2 ^ 53 * 2 ^ (n.log2 - 52) = 2 ^ (n.log2 + 1) := by
      rw [← Nat.pow_add]
      congr 1
      omega
    have hquotient : 2 ^ 52 ≤ n / 2 ^ (n.log2 - 52) :=
      (Nat.le_div_iff_mul_le (Nat.two_pow_pos _)).2 (hlow ▸ hle)
    have hquotient' : n / 2 ^ (n.log2 - 52) < 2 ^ 53 :=
      (Nat.div_lt_iff_lt_mul (Nat.two_pow_pos _)).2 (hhigh ▸ hlt)
    rw [hdouble, hbinade]
    exact ⟨hquotient.trans (div_le_roundQuotient _ _), (roundQuotient_le _ _).trans hquotient'⟩

/-- **A whole number of 64 bits has a nearest binary number**, which lies that many steps into the
binade of its leading digit. -/
theorem exists_ofRatio? (negative : Bool) {n : Nat} (h : n ≠ 0) (hn : n < 2 ^ 64) :
    ∃ x, ofRatio? negative n 1 = some x ∧ x.negative = negative ∧
      x.ordinal = (n.log2 + 1022) * binade + wholeSteps n := by
  have hlog : n.log2 < 64 := (Nat.log2_lt h).2 hn
  have hunit : max (-1074) (floorLog2 n 1 - 52) = (n.log2 : Int) - 52 := by
    rw [floorLog2_one h]
    omega
  have hplace : ((n.log2 : Int) - 52 + 1074).toNat = n.log2 + 1022 := by omega
  have hsteps : (if (n.log2 : Int) - 52 < 0 then
      roundQuotient (n * Nat.pow 2 (-((n.log2 : Int) - 52)).toNat) 1
      else roundQuotient n (1 * Nat.pow 2 ((n.log2 : Int) - 52).toNat)) = wholeSteps n := by
    unfold wholeSteps
    by_cases hsmall : n.log2 < 52
    · have hneg : (n.log2 : Int) - 52 < 0 := by omega
      have hshift : (-((n.log2 : Int) - 52)).toNat = 52 - n.log2 := by omega
      rw [if_pos hneg, if_pos hsmall, roundQuotient_one, hshift, Nat.pow_eq]
    · have hneg : ¬(n.log2 : Int) - 52 < 0 := by omega
      have hshift : ((n.log2 : Int) - 52).toNat = n.log2 - 52 := by omega
      rw [if_neg hneg, if_neg hsmall, hshift, Nat.one_mul, Nat.pow_eq]
  have hfinite : (n.log2 + 1022) * binade + wholeSteps n < magnitudes := by
    have hbound := (wholeSteps_bounds h).2
    have hbinade : 0 < binade := by decide
    calc (n.log2 + 1022) * binade + wholeSteps n
        ≤ (63 + 1022) * binade + 2 * binade :=
          Nat.add_le_add (Nat.mul_le_mul_right _ (by omega)) hbound
      _ < 2047 * binade := by omega
  refine ⟨⟨negative, _, hfinite⟩, ?_, rfl, rfl⟩
  unfold ofRatio?
  simp only [h, if_false, hunit, hplace, hsteps, dif_pos hfinite]

/-- **Rounding a whole number** changes nothing below `2 ^ 53`, and leaves it there or above if it
was. -/
theorem wholeSteps_value (n : Nat) (h : n ≠ 0) :
    (n < 2 ^ 53 → (wholeSteps n : ℚ) * 2 ^ ((n.log2 : Int) - 52) = n) ∧
    (2 ^ 53 ≤ n → (2 : ℚ) ^ 53 ≤ wholeSteps n * 2 ^ ((n.log2 : Int) - 52)) := by
  constructor
  · intro hn
    have hlog : n.log2 < 53 := (Nat.log2_lt h).2 hn
    have hsteps : wholeSteps n = n * 2 ^ (52 - n.log2) := by
      unfold wholeSteps
      split
      · rfl
      · have hlog : n.log2 = 52 := by omega
        rw [hlog, Nat.sub_self, Nat.pow_zero, roundQuotient_one, Nat.mul_one]
    have hinverse : (n.log2 : Int) - 52 = -((52 - n.log2 : Nat) : Int) := by omega
    rw [hsteps, hinverse, zpow_neg, zpow_natCast]
    push_cast
    rw [mul_assoc, mul_inv_cancel₀ (pow_ne_zero _ two_ne_zero), mul_one]
  · intro hn
    have hlog : 53 ≤ n.log2 := (Nat.le_log2 h).2 hn
    have hsteps : ((2 ^ 52 : Nat) : ℚ) ≤ wholeSteps n := by
      exact_mod_cast (wholeSteps_bounds h).1
    have hunit : (2 : ℚ) ≤ 2 ^ ((n.log2 : Int) - 52) := by
      calc (2 : ℚ) = 2 ^ (1 : Int) := (zpow_one 2).symm
        _ ≤ 2 ^ ((n.log2 : Int) - 52) := zpow_le_zpow_right₀ one_le_two (by omega)
    calc (2 : ℚ) ^ 53 = ((2 ^ 52 : Nat) : ℚ) * 2 := by norm_num
      _ ≤ wholeSteps n * 2 ^ ((n.log2 : Int) - 52) :=
        mul_le_mul hsteps hunit (by norm_num) (Nat.cast_nonneg _)

/-- The nearest binary number to a whole number, of either sign. -/
theorem ofRatio?_value (negative : Bool) (n : Nat) (hn : n < 2 ^ 64) (x : Binary64) :
    let y := (ofRatio? negative n 1).getD x
    let sign : ℚ := if negative then -1 else 1
    (n < 2 ^ 53 → y.value = sign * n) ∧ (2 ^ 53 ≤ n → (2 : ℚ) ^ 53 ≤ sign * y.value) := by
  intro y sign
  by_cases h : n = 0
  · subst h
    have hzero : y = zero negative := rfl
    refine ⟨fun _ => ?_, fun hn => absurd hn (by decide)⟩
    rw [hzero, value_eq]
    have hsignificand : (zero negative).significand = 0 := rfl
    simp [hsignificand]
  · obtain ⟨z, hz, hnegative, hordinal⟩ := exists_ofRatio? negative h hn
    have hy : y = z := by
      change (ofRatio? negative n 1).getD x = z
      rw [hz]
      rfl
    have hbounds := wholeSteps_bounds h
    have hmagnitude := magnitude_of_ordinal hordinal hbounds.1 hbounds.2
    have hunit : ((n.log2 + 1022 : Nat) : Int) - 1074 = (n.log2 : Int) - 52 := by omega
    have hvalue : y.value = sign * (wholeSteps n * 2 ^ ((n.log2 : Int) - 52)) := by
      rw [hy, value_eq, hnegative, hmagnitude, hunit]
    have hsign : sign * sign = 1 := by
      change (if negative then (-1 : ℚ) else 1) * (if negative then (-1 : ℚ) else 1) = 1
      cases negative <;> norm_num
    obtain ⟨hsmall, hlarge⟩ := wholeSteps_value n h
    refine ⟨fun hn => ?_, fun hn => ?_⟩
    · rw [hvalue, hsmall hn]
    · rw [hvalue, ← mul_assoc sign sign, hsign, one_mul]
      exact hlarge hn

end Binary64

/-! ## Numbers in their three forms -/

namespace Number

/-- The exact value. -/
def value (x : Number) : ℚ := x.fraction.1 / x.fraction.2

theorem value_natural (n : UInt64) : (natural n).value = n.toNat := by
  simp [value, fraction]

theorem value_negative (n : Fin negatives) : (negative n).value = -((n.val + 1 : Nat) : ℚ) := by
  simp [value, fraction]

/-- A whole number below `2 ^ 53` keeps its value when it is rounded. -/
theorem value_nearest_natural {n : UInt64} (h : n.toNat < 2 ^ 53) :
    (natural n).nearest.value = n.toNat := by
  have hvalue := (Binary64.ofRatio?_value false n.toNat n.toNat_lt (Binary64.zero false)).1 h
  simpa [nearest] using hvalue

variable {k : Nat}

/-- **Rounding moves no number across a whole number below `2 ^ 53`**, from either side. -/
theorem nearest_iff (x : Number) (hk : k < 2 ^ 53) :
    ((k : ℚ) < x.nearest.value ↔ (k : ℚ) < x.value) ∧
      (x.nearest.value < k ↔ x.value < k) := by
  have hk' : (k : ℚ) < 2 ^ 53 := by exact_mod_cast hk
  have hk0 : (0 : ℚ) ≤ k := Nat.cast_nonneg k
  cases x with
  | natural n =>
    obtain ⟨hsmall, hlarge⟩ := Binary64.ofRatio?_value false n.toNat n.toNat_lt (Binary64.zero false)
    by_cases hn : n.toNat < 2 ^ 53
    · rw [value_nearest_natural hn, value_natural]
      exact ⟨Iff.rfl, Iff.rfl⟩
    · have hn := Nat.le_of_not_lt hn
      have hn' : (2 : ℚ) ^ 53 ≤ n.toNat := by exact_mod_cast hn
      have hnearest : (2 : ℚ) ^ 53 ≤ (natural n).nearest.value := by
        simpa [nearest] using hlarge hn
      rw [value_natural]
      exact ⟨iff_of_true (by linarith) (by linarith), iff_of_false (by linarith) (by linarith)⟩
  | negative n =>
    have hlt : n.val + 1 < 2 ^ 64 := lt_of_le_of_lt n.isLt (by decide)
    obtain ⟨hsmall, hlarge⟩ := Binary64.ofRatio?_value true (n.val + 1) hlt (Binary64.zero true)
    have hvalue : (negative n).value < 0 := by
      rw [value_negative]
      exact neg_lt_zero.2 (by exact_mod_cast n.val.succ_pos)
    have hnearest : (negative n).nearest.value < 0 := by
      by_cases hn : n.val + 1 < 2 ^ 53
      · have heq : (negative n).nearest.value = (negative n).value := by
          rw [value_negative]
          simpa [nearest] using hsmall hn
        rw [heq]
        exact hvalue
      · have hle : (2 : ℚ) ^ 53 ≤ -(negative n).nearest.value := by
          simpa [nearest] using hlarge (Nat.le_of_not_lt hn)
        linarith
    exact ⟨iff_of_false (by linarith) (by linarith), iff_of_true (by linarith) (by linarith)⟩
  | binary x => exact ⟨Iff.rfl, Iff.rfl⟩

end Number

end Schemata
