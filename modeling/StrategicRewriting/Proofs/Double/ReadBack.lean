import Mathlib.Data.List.TakeWhile
import Mathlib.Tactic.Ring
import StrategicRewriting.Proofs.Double.Rounding
import StrategicRewriting.Token.Basic

/-!
The decimal text of a finite double reads back as the same double. The digits
are chosen among those that read back, so what has to be shown is that the exact
expansion behind them reads back too, and that dropping zeros and placing the
point change neither the value nor the way it is rounded.
-/
namespace StrategicRewriting

namespace Decimal

theorem digitCount_mul_pow {n : Nat} (hn : 0 < n) (j : Nat) :
    digitCount (n * 10 ^ j) = digitCount n + j := by
  induction j with
  | zero => simp
  | succ j ih =>
      have hpos : 0 < n * 10 ^ j := Nat.mul_pos hn (Nat.pow_pos (by decide))
      have happ := Nat.toDigits_append_toDigits (d := 0) (b := 10) (by decide) hpos (by decide)
      have hmul : n * 10 ^ (j + 1) = 10 * (n * 10 ^ j) + 0 := by ring
      have hlen : digitCount (n * 10 ^ (j + 1)) = digitCount (n * 10 ^ j) + 1 := by
        simp only [digitCount, hmul, ← happ, List.length_append, Nat.toDigits_zero,
          List.length_singleton]
      omega

/-- Zeros at the end of the digits count for the exponent. -/
theorem magnitude_mul_pow (n : Nat) (e : Int) (j : Nat) :
    magnitude (n * 10 ^ j) e = magnitude n (e + j) := by
  have hten (a : Nat) : 0 < 10 ^ a := Nat.pow_pos (by decide)
  rcases Nat.eq_zero_or_pos n with rfl | hn
  · simp [magnitude]
  · have hz : n * 10 ^ j ≠ 0 := Nat.mul_ne_zero (Nat.ne_of_gt hn) (Nat.ne_of_gt (hten j))
    have horder : ((digitCount n + j : Nat) : Int) + e = digitCount n + (e + j) := by
      push_cast
      ring
    have hexp : j + e.toNat + (-(e + j)).toNat = (e + j).toNat + (-e).toNat := by omega
    have hnear : Double.nearest (scale (n * 10 ^ j) e).1 (scale (n * 10 ^ j) e).2 =
        Double.nearest (scale n (e + j)).1 (scale n (e + j)).2 := by
      apply Double.nearest_congr (hten _) (hten _)
      calc
        n * 10 ^ j * 10 ^ e.toNat * 10 ^ (-(e + j)).toNat
          = n * 10 ^ (j + e.toNat + (-(e + j)).toNat) := by ring
        _ = n * 10 ^ ((e + j).toNat + (-e).toNat) := by rw [hexp]
        _ = n * 10 ^ (e + j).toNat * 10 ^ (-e).toNat := by ring
    simp only [magnitude, hz, Nat.ne_of_gt hn, if_false, digitCount_mul_pow hn, horder, hnear]

theorem nearest_five_pow (u k : Nat) :
    Double.nearest (u * 5 ^ k) (10 ^ k) = Double.nearest u (2 ^ k) := by
  apply Double.nearest_congr (Nat.pow_pos (by decide)) (Nat.two_pow_pos k)
  rw [Nat.mul_assoc, ← Nat.mul_pow]

/-- The exact decimal expansion of a finite magnitude reads back. -/
theorem magnitude_exact {g : Nat} (hpos : 0 < g) (hg : g < Double.infinity) :
    magnitude (Double.units g * Nat.pow 5 1074) (-1074) = g := by
  have hu := Double.units_pos hpos
  have hfive (k : Nat) : 0 < Nat.pow 5 k := Nat.pow_pos (by decide)
  have hne (k : Nat) : Double.units g * Nat.pow 5 k ≠ 0 :=
    Nat.ne_of_gt (Nat.mul_pos hu (hfive k))
  have hexp : g / Double.hidden ≤ 2045 + 1 := by
    rw [Double.hidden_eq]
    rw [Double.infinity_eq] at hg
    omega
  have hupper : digitCount (Double.units g * Nat.pow 5 1074) ≤ 1384 := by
    refine (Nat.length_toDigits_le_iff (by decide) (by decide)).mpr ?_
    calc
      Double.units g * Nat.pow 5 1074 < 2 ^ 53 * 2 ^ 2045 * Nat.pow 5 1074 :=
        Nat.mul_lt_mul_of_pos_right (Double.units_lt hexp) (hfive _)
      _ ≤ 10 ^ 1384 := by decide +kernel
  have hlower : ¬ digitCount (Double.units g * Nat.pow 5 1074) ≤ 743 := by
    intro h
    have hlt := (Nat.length_toDigits_le_iff (by decide) (by decide)).mp h
    have hbig : 10 ^ 743 ≤ Nat.pow 5 1074 := by decide +kernel
    exact Nat.not_le_of_lt hlt (Nat.le_trans hbig (Nat.le_mul_of_pos_left _ hu))
  have hnear : Double.nearest (scale (Double.units g * Nat.pow 5 1074) (-1074)).1
      (scale (Double.units g * Nat.pow 5 1074) (-1074)).2 = g := by
    have h := (nearest_five_pow (Double.units g) 1074).trans (Double.nearest_units hg)
    simpa [scale] using h
  simp only [magnitude, hne, if_false, hnear]
  rw [if_neg (by omega), if_neg (by omega)]

end Decimal

namespace Double

theorem onGrid?_reads {g n : Nat} {e e' : Int} (h : onGrid? g e = some (n, e')) :
    Decimal.magnitude n e' = g := by
  simp only [onGrid?] at h
  split at h
  case isTrue hl =>
    simp only [Bool.and_eq_true, decide_eq_true_eq] at hl
    cases h
    exact hl.1
  case isFalse =>
    split at h
    case isTrue hu =>
      cases h
      exact of_decide_eq_true hu
    case isFalse => cases h

/-- Whatever digits are chosen, they read back. -/
theorem magnitude_shortest {g : Nat} (hpos : 0 < g) (hg : g < infinity) :
    Decimal.magnitude (shortest g).1 (shortest g).2 = g := by
  simp only [shortest]
  cases hf : (List.range 17).findSome? fun (n : Nat) => onGrid? g (order g - (n + 1)) with
  | none => exact Decimal.magnitude_exact hpos hg
  | some p =>
      obtain ⟨i, _, hi⟩ := List.exists_of_findSome?_eq_some hf
      exact onGrid?_reads hi

/-- Only zeros are missing from the significant digits. -/
theorem toDigits_eq_significant (n : Nat) :
    ∃ z, Nat.toDigits 10 n = significant n ++ zeros z := by
  let ds := (Nat.toDigits 10 n).reverse
  refine ⟨(ds.takeWhile (· == '0')).length, ?_⟩
  have hsplit : ds = ds.takeWhile (· == '0') ++ ds.dropWhile (· == '0') :=
    (List.takeWhile_append_dropWhile ..).symm
  have hzeros : ds.takeWhile (· == '0') = zeros (ds.takeWhile (· == '0')).length := by
    apply List.eq_replicate_of_mem
    intro c hc
    have heq := List.mem_takeWhile_imp hc
    exact eq_of_beq heq
  calc
    Nat.toDigits 10 n = ds.reverse := (List.reverse_reverse _).symm
    _ = (ds.dropWhile (· == '0')).reverse ++ (ds.takeWhile (· == '0')).reverse := by
      rw [← List.reverse_append, ← hsplit]
    _ = significant n ++ zeros (ds.takeWhile (· == '0')).length := by
      rw [hzeros]
      simp [significant, zeros, ds]

end Double

/-- A number as it is written: digits on both sides of a point and an exponent. -/
structure Numeral where
  whole : List Char
  fraction : List Char
  exponent : Option Int
  whole_ne_nil : whole ≠ []
  whole_isDigit : ∀ c ∈ whole, c.isDigit
  fraction_isDigit : ∀ c ∈ fraction, c.isDigit

namespace Numeral

def exponentText (x : Numeral) : List Char :=
  match x.exponent with
  | none => []
  | some e => 'e' :: renderInt e

def text (x : Numeral) : List Char :=
  x.whole ++ '.' :: x.fraction ++ x.exponentText

/-- What the text stands for. -/
def value (x : Numeral) (negative : Bool) : Decimal :=
  ⟨negative, Nat.ofDigitChars 10 (x.whole ++ x.fraction) 0, x.exponent.getD 0 - x.fraction.length⟩

/-- The numeral stands for the digits `m`, scaled by `10 ^ e`. -/
def Spells (x : Numeral) (m : Nat) (e : Int) : Prop :=
  ∃ j : Nat, Nat.ofDigitChars 10 (x.whole ++ x.fraction) 0 = m * 10 ^ j ∧
    x.exponent.getD 0 - x.fraction.length + j = e

theorem Spells.magnitude {x : Numeral} {m : Nat} {e : Int} (h : x.Spells m e) (negative : Bool) :
    Decimal.magnitude (x.value negative).digits (x.value negative).exponent =
      Decimal.magnitude m e := by
  obtain ⟨j, hdigits, rfl⟩ := h
  simp only [value, hdigits]
  exact Decimal.magnitude_mul_pow ..

end Numeral

namespace Double

variable {ds : List Char}

theorem isDigit_zeros {n : Nat} {c : Char} (h : c ∈ zeros n) : c.isDigit := by
  rw [List.eq_of_mem_replicate h]
  decide

theorem exists_numeral_scientific (hne : ds ≠ []) (hds : ∀ c ∈ ds, c.isDigit) (k : Int) :
    ∃ x : Numeral, scientific ds k = x.text ∧
      x.Spells (Nat.ofDigitChars 10 ds 0) (k - ds.length) := by
  have hmark (e : Int) :
      (if e < 0 then ['e', '-'] else ['e']) ++ Nat.toDigits 10 e.natAbs = 'e' :: renderInt e := by
    simp only [renderInt]
    split <;> rfl
  obtain ⟨d, ds, rfl⟩ := List.exists_cons_of_ne_nil hne
  cases ds with
  | nil =>
      refine ⟨⟨[d], ['0'], some (k - 1), by simp, hds, by simp⟩, ?_, 1, ?_, ?_⟩
      · simp only [scientific, Numeral.text, Numeral.exponentText, List.append_assoc, hmark]
        rfl
      · simp [Nat.ofDigitChars_cons, Nat.mul_comm]
      · simp
  | cons d' ds =>
      refine ⟨⟨[d], d' :: ds, some (k - 1), by simp, ?_, ?_⟩, ?_, 0, ?_, ?_⟩
      · exact fun c hc => hds c (by simp_all)
      · exact fun c hc => hds c (List.mem_cons_of_mem _ hc)
      · simp only [scientific, Numeral.text, Numeral.exponentText, List.append_assoc, hmark]
        simp
      · simp
      · simp
        omega

theorem exists_numeral_positional (hne : ds ≠ []) (hds : ∀ c ∈ ds, c.isDigit) (k : Int) :
    ∃ x : Numeral, positional ds k = x.text ∧
      x.Spells (Nat.ofDigitChars 10 ds 0) (k - ds.length) := by
  simp only [positional]
  split
  case isTrue hk =>
    refine ⟨⟨['0'], zeros (-k).toNat ++ ds, none, by simp, by simp, ?_⟩, ?_, 0, ?_, ?_⟩
    · intro c hc
      rcases List.mem_append.mp hc with h | h
      · exact isDigit_zeros h
      · exact hds c h
    · simp [Numeral.text, Numeral.exponentText]
    · simp [Nat.ofDigitChars_cons, Nat.ofDigitChars_append, zeros]
    · simp [zeros]
      omega
  case isFalse hk =>
    obtain ⟨i, rfl⟩ : ∃ i : Nat, k = i := ⟨k.toNat, by omega⟩
    simp only [Int.toNat_natCast]
    split
    case isTrue hlen =>
      refine ⟨⟨ds ++ zeros (i - ds.length), ['0'], none, by simp [hne], ?_, by simp⟩, ?_,
        i - ds.length + 1, ?_, ?_⟩
      · intro c hc
        rcases List.mem_append.mp hc with h | h
        · exact hds c h
        · exact isDigit_zeros h
      · simp [Numeral.text, Numeral.exponentText]
      · simp [Nat.ofDigitChars_cons, Nat.ofDigitChars_append, zeros]
        ring
      · simp
        omega
    case isFalse hlen =>
      refine ⟨⟨ds.take i, ds.drop i, none, ?_, ?_, ?_⟩, ?_, 0, ?_, ?_⟩
      · intro h
        rcases List.take_eq_nil_iff.mp h with hi | hnil
        · omega
        · exact hne hnil
      · exact fun c hc => hds c (List.mem_of_mem_take hc)
      · exact fun c hc => hds c (List.mem_of_mem_drop hc)
      · simp [Numeral.text, Numeral.exponentText]
      · simp
      · simp only [Option.getD_none, List.length_drop]
        omega

theorem exists_numeral_layout {n g : Nat} {e : Int} (hpos : 0 < g)
    (hreads : Decimal.magnitude n e = g) :
    ∃ x : Numeral, layout n e = x.text ∧
      ∀ negative, Decimal.magnitude (x.value negative).digits (x.value negative).exponent = g := by
  obtain ⟨z, hz⟩ := toDigits_eq_significant n
  have hvalue : Nat.ofDigitChars 10 (significant n) 0 * 10 ^ z = n := by
    have h := Nat.ofDigitChars_ten_toDigits (n := n)
    rw [hz, Nat.ofDigitChars_append, zeros, Nat.ofDigitChars_replicate_zero] at h
    rw [Nat.mul_comm]
    exact h
  have hlen : Decimal.digitCount n = (significant n).length + z := by
    rw [Decimal.digitCount, hz]
    simp [zeros]
  have hne : significant n ≠ [] := by
    intro h
    have hn : n = 0 := by rw [← hvalue, h]; simp
    rw [hn] at hreads
    simp only [Decimal.magnitude, if_true] at hreads
    omega
  have hds : ∀ c ∈ significant n, c.isDigit := by
    intro c hc
    apply Nat.isDigit_of_mem_toDigits (b := 10) (n := n) (by decide) (by decide)
    rw [hz]
    exact List.mem_append_left _ hc
  have hspelt : Decimal.magnitude (Nat.ofDigitChars 10 (significant n) 0)
      (Decimal.digitCount n + e - (significant n).length) = g := by
    have hexp : (Decimal.digitCount n + e - (significant n).length : Int) = e + z := by
      rw [hlen]
      push_cast
      ring
    rw [hexp, ← Decimal.magnitude_mul_pow, hvalue, hreads]
  simp only [layout]
  split
  · obtain ⟨x, htext, hx⟩ := exists_numeral_scientific hne hds (Decimal.digitCount n + e)
    exact ⟨x, htext, fun negative => (hx.magnitude negative).trans hspelt⟩
  · obtain ⟨x, htext, hx⟩ := exists_numeral_positional hne hds (Decimal.digitCount n + e)
    exact ⟨x, htext, fun negative => (hx.magnitude negative).trans hspelt⟩

theorem ofMagnitude_isNegative_magnitude (x : Double) :
    ofMagnitude x.isNegative x.magnitude = x := by
  have hlt : x.bits.toNat < 2 ^ 64 := x.bits.toNat_lt
  have hbits : (if x.isNegative then x.magnitude + signWeight else x.magnitude) = x.bits.toNat := by
    by_cases h : signWeight ≤ x.bits.toNat
    · simp only [isNegative, magnitude, h, decide_true, if_true]
      rw [signWeight] at *
      omega
    · simp only [isNegative, magnitude, h, decide_false, Bool.false_eq_true, if_false]
      exact Nat.mod_eq_of_lt (Nat.lt_of_not_le h)
  rw [ofMagnitude, hbits]
  simp

/-- The text of a finite double is a numeral, with a sign before it, that stands
for the double. -/
theorem exists_numeral_render (x : Double) (hx : x.isFinite) :
    ∃ y : Numeral, x.render = (if x.isNegative then ['-'] else []) ++ y.text ∧
      (y.value x.isNegative).toDouble = x := by
  have hfin : x.magnitude < infinity := of_decide_eq_true hx
  have hdouble (y : Numeral) (h : Decimal.magnitude (y.value x.isNegative).digits
      (y.value x.isNegative).exponent = x.magnitude) : (y.value x.isNegative).toDouble = x := by
    rw [Decimal.toDouble, h]
    exact ofMagnitude_isNegative_magnitude x
  simp only [render]
  split
  case isTrue hzero =>
    refine ⟨⟨['0'], ['0'], none, by simp, by simp, by simp⟩, rfl, hdouble _ ?_⟩
    rw [hzero]
    rfl
  case isFalse hpos =>
    have hg := Nat.pos_of_ne_zero hpos
    obtain ⟨y, htext, hy⟩ := exists_numeral_layout hg (magnitude_shortest hg hfin)
    rw [renderMagnitude, htext]
    exact ⟨y, rfl, hdouble y (hy _)⟩

end Double

end StrategicRewriting
