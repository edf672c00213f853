import Mathlib.Tactic.Ring
import StrategicRewriting.Double.Decimal

/-!
Rounding of quotients. The nearest double depends on the quotient alone, not on
the numerator and denominator that stand for it, and a quotient that is a double
already is its own nearest double.
-/
namespace StrategicRewriting

namespace Double

theorem hidden_eq : hidden = 2 ^ 52 := rfl

theorem infinity_eq : infinity = 2047 * 2 ^ 52 := rfl

theorem unitsPerOne_pos : 0 < unitsPerOne := by
  decide +kernel

theorem roundDiv_mul_right (num den : Nat) {c : Nat} (hc : 0 < c) :
    roundDiv (num * c) (den * c) = roundDiv num den := by
  have hq : num * c / (den * c) = num / den := Nat.mul_div_mul_right num den hc
  have hr : num * c % (den * c) = num % den * c := Nat.mul_mod_mul_right c num den
  have lt_iff (a b : Nat) : a * c < b * c ↔ a < b := Nat.mul_lt_mul_right hc
  simp only [roundDiv, hq, hr, ← Nat.mul_assoc, lt_iff]

theorem nearest_mul_right (num den : Nat) {c : Nat} (hc : 0 < c) :
    nearest (num * c) (den * c) = nearest num den := by
  have hn : num * c * unitsPerOne = num * unitsPerOne * c := Nat.mul_right_comm ..
  have hd (p : Nat) : den * c * p = den * p * c := Nat.mul_right_comm ..
  simp only [nearest, hn, hd, Nat.mul_div_mul_right _ _ hc, roundDiv_mul_right _ _ hc]

/-- The nearest double is a function of the quotient. -/
theorem nearest_congr {a b c d : Nat} (hb : 0 < b) (hd : 0 < d) (h : a * d = c * b) :
    nearest a b = nearest c d :=
  calc
    nearest a b = nearest (a * d) (b * d) := (nearest_mul_right a b hd).symm
    _ = nearest (c * b) (d * b) := by rw [h, Nat.mul_comm b d]
    _ = nearest c d := nearest_mul_right c d hb

theorem roundDiv_mul_self (n : Nat) {den : Nat} (hd : 0 < den) : roundDiv (n * den) den = n := by
  simp [roundDiv, hd]

/-- A number of units with at most 53 significant bits is not rounded: `n` has
exactly 53 of them unless there is no shift. -/
theorem nearest_shifted (n shift : Nat) (hn : n < 2 ^ 53) (hs : 0 < shift → 2 ^ 52 ≤ n) :
    nearest (n * 2 ^ shift) unitsPerOne = min infinity (shift * hidden + n) := by
  have hpos := unitsPerOne_pos
  have hshift : (n * 2 ^ shift).log2 - 52 = shift := by
    by_cases h0 : n = 0
    · subst h0
      have : ¬ 0 < shift := fun h => by simpa using hs h
      simp only [Nat.zero_mul, Nat.log2_zero]
      omega
    · have hne : n * 2 ^ shift ≠ 0 := Nat.mul_ne_zero h0 (Nat.ne_of_gt (Nat.two_pow_pos shift))
      have upper : n * 2 ^ shift < 2 ^ (53 + shift) := by
        rw [Nat.pow_add]
        exact Nat.mul_lt_mul_of_pos_right hn (Nat.two_pow_pos shift)
      have hlt := (Nat.log2_lt hne).mpr upper
      by_cases hz : 0 < shift
      · have lower : 2 ^ (52 + shift) ≤ n * 2 ^ shift := by
          rw [Nat.pow_add]
          exact Nat.mul_le_mul_right _ (hs hz)
        have hle := (Nat.le_log2 hne).mpr lower
        omega
      · omega
  have hdiv : n * 2 ^ shift * unitsPerOne / unitsPerOne = n * 2 ^ shift :=
    Nat.mul_div_cancel _ hpos
  have hround : roundDiv (n * 2 ^ shift * unitsPerOne) (unitsPerOne * Nat.pow 2 shift) = n := by
    rw [Nat.mul_assoc, Nat.mul_comm (2 ^ shift)]
    exact roundDiv_mul_self n (Nat.mul_pos hpos (Nat.two_pow_pos shift))
  simp only [nearest, hdiv, hshift, hround]

/-- Reading the exact value of a finite magnitude gives the magnitude. -/
theorem nearest_units {g : Nat} (hg : g < infinity) : nearest (units g) unitsPerOne = g := by
  have hrec : g / 2 ^ 52 * 2 ^ 52 + g % 2 ^ 52 = g := Nat.div_add_mod' g _
  by_cases h : g < hidden
  · have hn := nearest_shifted g 0 (by rw [hidden_eq] at h; omega) (by simp)
    simp only [units, h, if_true]
    simpa [Nat.min_eq_right (Nat.le_of_lt hg)] using hn
  · rw [hidden_eq] at h
    have hmod : g % 2 ^ 52 < 2 ^ 52 := Nat.mod_lt _ (by decide)
    have hn := nearest_shifted (g % 2 ^ 52 + 2 ^ 52) (g / 2 ^ 52 - 1) (by omega) (by omega)
    simp only [units, hidden_eq, h, if_false]
    refine hn.trans ?_
    rw [hidden_eq, infinity_eq] at *
    omega

theorem units_pos {g : Nat} (hg : 0 < g) : 0 < units g := by
  simp only [units]
  split
  · exact hg
  · have hm : 0 < g % hidden + hidden := Nat.add_pos_right _ (by decide)
    exact Nat.mul_pos hm (Nat.two_pow_pos _)

theorem units_lt {g e : Nat} (he : g / hidden ≤ e + 1) : units g < 2 ^ 53 * 2 ^ e := by
  have hmant : g % hidden + hidden < 2 ^ 53 := by
    have : g % hidden < hidden := Nat.mod_lt _ (by decide)
    rw [hidden_eq] at *
    omega
  simp only [units]
  split
  case isTrue h =>
    have hlt : g < 2 ^ 53 := by
      rw [hidden_eq] at h
      omega
    exact Nat.lt_of_lt_of_le hlt (Nat.le_mul_of_pos_right _ (Nat.two_pow_pos e))
  case isFalse h =>
    have hexp : g / hidden - 1 ≤ e := by omega
    exact Nat.mul_lt_mul_of_lt_of_le hmant (Nat.pow_le_pow_right (by decide) hexp)
      (Nat.two_pow_pos _)

end Double

end StrategicRewriting
