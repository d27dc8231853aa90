import FormulaCode.Decimal.Shortest
import Mathlib.Algebra.Order.Field.Power
import Mathlib.Data.Rat.Floor
import Mathlib.Tactic.FieldSimp
import Mathlib.Tactic.Linarith
import Mathlib.Tactic.Positivity
import Mathlib.Tactic.Ring

namespace FormulaCode

namespace Binary64

-- The three fields are all the bits.
theorem eq_of_fields {x y : Binary64} (hnegative : x.negative = y.negative)
    (hexponent : x.exponentField = y.exponentField) (hfraction : x.fractionField = y.fractionField) :
    x = y := by
  have hx := x.bits.toNat_lt
  have hy := y.bits.toNat_lt
  have hbits : x.bits.toNat = y.bits.toNat := by
    simp only [negative, decide_eq_decide] at hnegative
    simp only [exponentField] at hexponent
    simp only [fractionField] at hfraction
    omega
  cases x
  cases y
  rw [mk.injEq]
  exact UInt64.toNat_inj.mp hbits

theorem fractionField_lt (x : Binary64) : x.fractionField < 2 ^ 52 :=
  Nat.mod_lt _ (by decide)

theorem mantissa_lt (x : Binary64) : x.mantissa < 2 ^ 53 := by
  have hfraction := x.fractionField_lt
  unfold mantissa
  split <;> omega

-- A finite number is given by its sign, its mantissa and its exponent.
theorem fields_of_mantissa {x y : Binary64} (hmantissa : x.mantissa = y.mantissa)
    (hexponent : x.exponent = y.exponent) :
    x.exponentField = y.exponentField ∧ x.fractionField = y.fractionField := by
  have hx := x.fractionField_lt
  have hy := y.fractionField_lt
  unfold exponent at hexponent
  unfold mantissa at hmantissa
  split at hmantissa <;> split at hmantissa <;> omega

end Binary64

namespace Decimal

def value (d : Decimal) : ℚ :=
  d.digits * 10 ^ d.exponent

theorem pow_toNat {b : ℚ} (hb : b ≠ 0) (z : Int) : b ^ z.toNat = b ^ z * b ^ (-z).toNat := by
  rw [← zpow_natCast, ← zpow_natCast b (-z).toNat, ← zpow_add₀ hb]
  congr 1
  omega

-- A number with so many digits lies between two powers of ten.
theorem pow_length_toDigits {n : Nat} (h : 0 < n) :
    10 ^ ((Nat.toDigits 10 n).length - 1) ≤ n ∧ n < 10 ^ (Nat.toDigits 10 n).length := by
  have hpos : 0 < (Nat.toDigits 10 n).length := Nat.length_toDigits_pos
  constructor
  · by_cases hone : (Nat.toDigits 10 n).length = 1
    · rw [hone]
      exact h
    · by_contra hlt
      have hle := (Nat.length_toDigits_le_iff (b := 10) (by decide)
        (show 0 < (Nat.toDigits 10 n).length - 1 by omega)).mpr (Nat.lt_of_not_le hlt)
      omega
  · exact (Nat.length_toDigits_le_iff (by decide) hpos).mp (Nat.le_refl _)

-- The estimate from the numbers of digits is one too large at most.
theorem pow_leadingExponent_le {num den : Nat} (hnum : 0 < num) (hden : 0 < den) :
    (10 : ℚ) ^ leadingExponent num den ≤ num / den := by
  have hdenQ : (0 : ℚ) < den := by exact_mod_cast hden
  unfold leadingExponent
  dsimp only
  generalize hestimate : ((Nat.toDigits 10 num).length : Int) - (Nat.toDigits 10 den).length = estimate
  rw [le_div_iff₀ hdenQ]
  split
  · rename_i hle
    have hleQ : (den : ℚ) * 10 ^ estimate.toNat ≤ num * 10 ^ (-estimate).toNat := by
      exact_mod_cast hle
    have hpos : (0 : ℚ) < 10 ^ (-estimate).toNat := by positivity
    rw [pow_toNat (by norm_num), ← mul_assoc] at hleQ
    rw [mul_comm]
    exact le_of_mul_le_mul_right hleQ hpos
  · have hlower : (10 : ℚ) ^ ((Nat.toDigits 10 num).length - 1) ≤ num := by
      exact_mod_cast (pow_length_toDigits hnum).1
    have hupper : (den : ℚ) ≤ 10 ^ (Nat.toDigits 10 den).length := by
      exact_mod_cast (pow_length_toDigits hden).2.le
    have hlength : 0 < (Nat.toDigits 10 num).length := Nat.length_toDigits_pos
    calc (10 : ℚ) ^ (estimate - 1) * den
        ≤ 10 ^ (estimate - 1) * 10 ^ (Nat.toDigits 10 den).length := by gcongr
      _ = 10 ^ ((Nat.toDigits 10 num).length - 1) := by
          rw [← zpow_natCast, ← zpow_natCast, ← zpow_add₀ (by norm_num)]
          congr 1
          omega
      _ ≤ num := hlower

namespace Interval

-- A number lies in the interval, and strictly between its bounds if they do not belong to it.
structure Holds (i : Interval) (q : ℚ) : Prop where
  ge : i.lower * 2 ^ i.exponent ≤ q
  le : q ≤ i.upper * 2 ^ i.exponent
  strict : i.closed = false → i.lower * 2 ^ i.exponent < q ∧ q < i.upper * 2 ^ i.exponent

theorem holds_of_lt {i : Interval} {q : ℚ} (hlower : i.lower * 2 ^ i.exponent < q)
    (hupper : q < i.upper * 2 ^ i.exponent) : i.Holds q :=
  ⟨hlower.le, hupper.le, fun _ => ⟨hlower, hupper⟩⟩

theorem Holds.convex {i : Interval} {a b c : ℚ} (ha : i.Holds a) (hc : i.Holds c) (hab : a ≤ b)
    (hbc : b ≤ c) : i.Holds b where
  ge := ha.ge.trans hab
  le := hbc.trans hc.le
  strict hopen := ⟨(ha.strict hopen).1.trans_le hab, hbc.trans_lt (hc.strict hopen).2⟩

section Grid

variable (i : Interval) (power : Int)

-- Both sides of a comparison with a multiple of `10 ^ power`, in whole numbers.
def unit : Nat :=
  Nat.pow 10 power.toNat * Nat.pow 2 (-i.exponent).toNat

def scale : Nat :=
  Nat.pow 2 i.exponent.toNat * Nat.pow 10 (-power).toNat

def accepts (n : Nat) : Bool :=
  if i.closed then i.lower * i.scale power ≤ n * i.unit power &&
    n * i.unit power ≤ i.upper * i.scale power
  else i.lower * i.scale power < n * i.unit power && n * i.unit power < i.upper * i.scale power

theorem unit_pos : 0 < i.unit power :=
  Nat.mul_pos (Nat.pow_pos (by decide)) (Nat.pow_pos (by decide))

-- What both sides have been multiplied by.
def factor : ℚ :=
  10 ^ (-power).toNat * 2 ^ (-i.exponent).toNat

theorem factor_pos : 0 < i.factor power := by
  unfold factor
  positivity

theorem cast_unit : (i.unit power : ℚ) = 10 ^ power * i.factor power := by
  have hten := pow_toNat (show (10 : ℚ) ≠ 0 by norm_num) power
  simp only [unit, factor, Nat.pow_eq]
  push_cast
  rw [hten]
  ring

theorem cast_scale : (i.scale power : ℚ) = 2 ^ i.exponent * i.factor power := by
  have htwo := pow_toNat (show (2 : ℚ) ≠ 0 by norm_num) i.exponent
  simp only [scale, factor, Nat.pow_eq]
  push_cast
  rw [htwo]
  ring

theorem mul_scale_le_iff (l n : Nat) :
    l * i.scale power ≤ n * i.unit power ↔ (l : ℚ) * 2 ^ i.exponent ≤ n * 10 ^ power := by
  rw [← mul_le_mul_iff_of_pos_right (i.factor_pos power), mul_assoc, mul_assoc, ← cast_scale,
    ← cast_unit]
  exact_mod_cast Iff.rfl

theorem mul_unit_le_iff (n u : Nat) :
    n * i.unit power ≤ u * i.scale power ↔ (n : ℚ) * 10 ^ power ≤ u * 2 ^ i.exponent := by
  rw [← mul_le_mul_iff_of_pos_right (i.factor_pos power), mul_assoc, mul_assoc, ← cast_scale,
    ← cast_unit]
  exact_mod_cast Iff.rfl

theorem mul_unit_lt_iff (n u : Nat) :
    n * i.unit power < u * i.scale power ↔ (n : ℚ) * 10 ^ power < u * 2 ^ i.exponent := by
  rw [← not_le, ← not_le, mul_scale_le_iff]

theorem mul_scale_lt_iff (l n : Nat) :
    l * i.scale power < n * i.unit power ↔ (l : ℚ) * 2 ^ i.exponent < n * 10 ^ power := by
  rw [← not_le, ← not_le, mul_unit_le_iff]

theorem accepts_iff (n : Nat) : i.accepts power n = true ↔ i.Holds (n * 10 ^ power) := by
  unfold accepts
  cases hclosed : i.closed with
  | true =>
      simp only [if_true, Bool.and_eq_true, decide_eq_true_eq, mul_scale_le_iff, mul_unit_le_iff]
      exact ⟨fun h => ⟨h.1, h.2, by simp [hclosed]⟩, fun h => ⟨h.ge, h.le⟩⟩
  | false =>
      simp only [Bool.false_eq_true, if_false, Bool.and_eq_true, decide_eq_true_eq,
        mul_scale_lt_iff, mul_unit_lt_iff]
      exact ⟨fun h => holds_of_lt h.1 h.2, fun h => h.strict hclosed⟩

-- The neighbour of the value below it on the grid.
def below : Nat :=
  i.value * i.scale power / i.unit power

theorem below_le : (i.below power : ℚ) * 10 ^ power ≤ i.value * 2 ^ i.exponent :=
  (i.mul_unit_le_iff power _ _).mp (Nat.div_mul_le_self _ _)

theorem lt_above : (i.value : ℚ) * 2 ^ i.exponent < (i.below power + 1 : Nat) * 10 ^ power := by
  refine (i.mul_scale_lt_iff power _ _).mp ?_
  rw [Nat.mul_comm (i.below power + 1)]
  exact Nat.lt_mul_div_succ _ (i.unit_pos power)

theorem nearest?_eq :
    i.nearest? power = match i.accepts power (i.below power), i.accepts power (i.below power + 1) with
      | true, true =>
          some (if i.value * i.scale power - i.below power * i.unit power <
              (i.below power + 1) * i.unit power - i.value * i.scale power
            then i.below power else i.below power + 1)
      | true, false => some (i.below power)
      | false, true => some (i.below power + 1)
      | false, false => none :=
  rfl

theorem holds_of_nearest? {n : Nat} (h : i.nearest? power = some n) : i.Holds (n * 10 ^ power) := by
  rw [← accepts_iff]
  rw [nearest?_eq] at h
  split at h
  · rename_i hbelow habove
    cases h
    split
    · exact hbelow
    · exact habove
  · rename_i hbelow _
    cases h
    exact hbelow
  · rename_i habove
    cases h
    exact habove
  · cases h

-- If any point of the grid lies in the interval, so does a neighbour of the value.
theorem isSome_nearest? (hvalue : i.Holds (i.value * 2 ^ i.exponent)) {n : Nat}
    (h : i.Holds (n * 10 ^ power)) : (i.nearest? power).isSome := by
  have hten : (0 : ℚ) < 10 ^ power := by positivity
  have hneighbour : i.accepts power (i.below power) = true ∨
      i.accepts power (i.below power + 1) = true := by
    rw [accepts_iff, accepts_iff]
    rcases Nat.lt_or_ge (i.below power) n with hlt | hle
    · right
      have hn : ((i.below power + 1 : Nat) : ℚ) ≤ n := by exact_mod_cast hlt
      exact hvalue.convex h (i.lt_above power).le (by gcongr)
    · left
      have hn : (n : ℚ) ≤ i.below power := by exact_mod_cast hle
      exact h.convex hvalue (by gcongr) (i.below_le power)
  rw [nearest?_eq]
  split
  · rfl
  · rfl
  · rfl
  · rename_i hbelow habove
    simp [hbelow, habove] at hneighbour

end Grid

-- An interval that is wider than a step of a grid has a point of the grid inside.
theorem exists_multiple_between {step lower upper : ℚ} (hstep : 0 < step) (hupper : 0 < upper)
    (hwide : lower + step < upper) : ∃ n : Nat, lower < n * step ∧ n * step < upper := by
  have hpos : 0 < ⌈upper / step⌉₊ := Nat.ceil_pos.mpr (div_pos hupper hstep)
  obtain ⟨n, hn⟩ : ∃ n, ⌈upper / step⌉₊ = n + 1 := ⟨⌈upper / step⌉₊ - 1, by omega⟩
  have habove : upper ≤ (n + 1 : Nat) * step := by
    rw [← hn]
    exact (div_le_iff₀ hstep).mp (Nat.le_ceil _)
  have hbelow : (n : ℚ) < upper / step := Nat.lt_ceil.mp (by omega)
  refine ⟨n, ?_, (lt_div_iff₀ hstep).mp hbelow⟩
  push_cast at habove
  linarith

-- The lower bound is nearer where the step below the number is half as wide.
theorem lower_of (x : Binary64) :
    ((Interval.of x).lower = 4 * x.mantissa - 2 ∧ (x.fractionField = 0 → x.exponentField ≤ 1)) ∨
      ((Interval.of x).lower = 4 * x.mantissa - 1 ∧ x.fractionField = 0 ∧ 1 < x.exponentField) := by
  simp only [Interval.of, Bool.and_eq_true, decide_eq_true_eq]
  split
  · rename_i hpower
    exact Or.inr ⟨rfl, hpower⟩
  · rename_i hpower
    exact Or.inl ⟨rfl, fun hzero => Nat.not_lt.mp fun hlt => hpower ⟨hzero, hlt⟩⟩

theorem value_lt_upper (x : Binary64) : (Interval.of x).value < (Interval.of x).upper := by
  simp only [Interval.of]
  omega

-- The value is less than `10 ^ 16` widths of its interval.
theorem value_lt_width (x : Binary64) :
    (Interval.of x).value + 10 ^ 16 * (Interval.of x).lower < 10 ^ 16 * (Interval.of x).upper := by
  have hmantissa := x.mantissa_lt
  have hvalue : (Interval.of x).value = 4 * x.mantissa := rfl
  have hupper : (Interval.of x).upper = 4 * x.mantissa + 2 := rfl
  rcases lower_of x with ⟨hlower, -⟩ | ⟨hlower, hzero, hfield⟩
  · omega
  · have hleast : x.mantissa = x.fractionField + 2 ^ 52 := if_neg (by omega)
    omega

section Of

variable {x : Binary64} (hx : x.mantissa ≠ 0)

include hx

theorem lower_lt_value : (Interval.of x).lower < (Interval.of x).value := by
  have hvalue : (Interval.of x).value = 4 * x.mantissa := rfl
  rcases lower_of x with h | h <;> omega

theorem holds_value : (Interval.of x).Holds ((Interval.of x).value * 2 ^ (Interval.of x).exponent) := by
  have hlower : ((Interval.of x).lower : ℚ) < (Interval.of x).value := by
    exact_mod_cast lower_lt_value hx
  have hupper : ((Interval.of x).value : ℚ) < (Interval.of x).upper := by
    exact_mod_cast value_lt_upper x
  exact holds_of_lt (by gcongr) (by gcongr)

theorem pow_leadingExponent_le_value : (10 : ℚ) ^ (Interval.of x).leadingExponent ≤
    (Interval.of x).value * 2 ^ (Interval.of x).exponent := by
  have hvalue := Nat.lt_of_le_of_lt (Nat.zero_le _) (lower_lt_value hx)
  have hnum : 0 < (Interval.of x).value * Nat.pow 2 (Interval.of x).exponent.toNat :=
    Nat.mul_pos hvalue (Nat.pow_pos (by decide))
  have hden : 0 < Nat.pow 2 (-(Interval.of x).exponent).toNat := Nat.pow_pos (by decide)
  have htwo := pow_toNat (show (2 : ℚ) ≠ 0 by norm_num) (Interval.of x).exponent
  refine (pow_leadingExponent_le hnum hden).trans (le_of_eq ?_)
  simp only [Nat.pow_eq]
  push_cast
  rw [htwo]
  field_simp

-- Seventeen digits are enough: the grid of the seventeenth digit is finer than the interval.
theorem exists_holds : ∃ n : Nat,
    (Interval.of x).Holds (n * 10 ^ ((Interval.of x).leadingExponent - 16)) := by
  have hstep : (0 : ℚ) < 10 ^ ((Interval.of x).leadingExponent - 16) := by positivity
  have hunit : (0 : ℚ) < 2 ^ (Interval.of x).exponent := by positivity
  have hleading : (10 : ℚ) ^ ((Interval.of x).leadingExponent - 16) * 10 ^ 16 ≤
      (Interval.of x).value * 2 ^ (Interval.of x).exponent := by
    refine (le_of_eq ?_).trans (pow_leadingExponent_le_value hx)
    rw [← zpow_natCast, ← zpow_add₀ (by norm_num)]
    congr 1
    omega
  have hwidth : ((Interval.of x).value : ℚ) + 10 ^ 16 * (Interval.of x).lower <
      10 ^ 16 * (Interval.of x).upper := by exact_mod_cast value_lt_width x
  have hscaled := mul_lt_mul_of_pos_right hwidth hunit
  have hupper : (0 : ℚ) < (Interval.of x).upper := by
    exact_mod_cast Nat.lt_of_le_of_lt (Nat.zero_le _) (value_lt_upper x)
  obtain ⟨n, hlower, hn⟩ := exists_multiple_between hstep (mul_pos hupper hunit)
    (show (Interval.of x).lower * 2 ^ (Interval.of x).exponent +
      10 ^ ((Interval.of x).leadingExponent - 16) <
        (Interval.of x).upper * (2 : ℚ) ^ (Interval.of x).exponent by linarith)
  exact ⟨n, holds_of_lt hlower hn⟩

end Of

-- Two intervals that share a number overlap, or touch in a bound that belongs to both.
theorem Holds.overlap {i j : Interval} {q : ℚ} (hi : i.Holds q) (hj : j.Holds q) :
    (j.lower : ℚ) * 2 ^ j.exponent ≤ i.upper * 2 ^ i.exponent ∧
      (i.closed = false ∨ j.closed = false →
        (j.lower : ℚ) * 2 ^ j.exponent < i.upper * 2 ^ i.exponent) := by
  refine ⟨hj.ge.trans hi.le, ?_⟩
  rintro (hopen | hopen)
  · exact hj.ge.trans_lt (hi.strict hopen).2
  · exact (hj.strict hopen).1.trans_le hi.le

theorem Holds.not_mantissa_lt {x y : Binary64} {q : ℚ} (hx : (Interval.of x).Holds q)
    (hy : (Interval.of y).Holds q) (hexponent : x.exponent = y.exponent) :
    ¬x.mantissa < y.mantissa := by
  intro hlt
  have hunit : (0 : ℚ) < 2 ^ (x.exponent - 2) := by positivity
  have hy' : (Interval.of y).exponent = x.exponent - 2 := congrArg (· - 2) hexponent.symm
  have hx' : (Interval.of x).exponent = x.exponent - 2 := rfl
  obtain ⟨hle, hstrict⟩ := hx.overlap hy
  rw [hy', hx', mul_le_mul_iff_of_pos_right hunit, Nat.cast_le] at hle
  rw [hy', hx', mul_lt_mul_iff_of_pos_right hunit, Nat.cast_lt] at hstrict
  have hupper : (Interval.of x).upper = 4 * x.mantissa + 2 := rfl
  -- Neighbours are not both even.
  have hneighbour : y.mantissa = x.mantissa + 1 → (Interval.of y).lower < (Interval.of x).upper := by
    intro hnext
    apply hstrict
    simp only [Interval.of, decide_eq_false_iff_not]
    omega
  rcases lower_of y with ⟨hlower, -⟩ | ⟨hlower, -⟩ <;> omega

-- The step doubles with the exponent, so the intervals of larger numbers lie above.
theorem Holds.not_exponent_lt {x y : Binary64} {q : ℚ} (hx : (Interval.of x).Holds q)
    (hy : (Interval.of y).Holds q) : ¬x.exponent < y.exponent := by
  intro hlt
  have hunit : (0 : ℚ) < 2 ^ (x.exponent - 2) := by positivity
  have hdouble : 2 * (2 : ℚ) ^ (x.exponent - 2) ≤ 2 ^ (y.exponent - 2) := by
    rw [← zpow_one_add₀ (by norm_num)]
    exact zpow_le_zpow_right₀ (by norm_num) (by omega)
  have hlower : ∀ lower : Nat, ((2 * lower : Nat) : ℚ) * 2 ^ (x.exponent - 2) ≤
      lower * 2 ^ (y.exponent - 2) := by
    intro lower
    have := mul_le_mul_of_nonneg_left hdouble (Nat.cast_nonneg (α := ℚ) lower)
    push_cast
    linarith
  obtain ⟨hle, hstrict⟩ := hx.overlap hy
  have hle : 2 * (Interval.of y).lower ≤ (Interval.of x).upper := by
    have := (hlower (Interval.of y).lower).trans hle
    exact_mod_cast le_of_mul_le_mul_right this hunit
  have hstrict : (Interval.of x).closed = false → 2 * (Interval.of y).lower < (Interval.of x).upper := by
    intro hopen
    have := (hlower (Interval.of y).lower).trans_lt (hstrict (Or.inl hopen))
    exact_mod_cast lt_of_mul_lt_mul_right this hunit.le
  have hmantissa := x.mantissa_lt
  have hfield : 1 < y.exponentField := by
    simp only [Binary64.exponent] at hlt
    omega
  have hleading : y.mantissa = y.fractionField + 2 ^ 52 := if_neg (by omega)
  have hupper : (Interval.of x).upper = 4 * x.mantissa + 2 := rfl
  have hgreatest : x.mantissa = 2 ^ 53 - 1 → 2 * (Interval.of y).lower < (Interval.of x).upper := by
    intro hgreatest
    apply hstrict
    simp only [Interval.of, decide_eq_false_iff_not]
    omega
  rcases lower_of y with ⟨hlower, hpower⟩ | ⟨hlower, -⟩ <;> omega

-- Every number rounds to at most one mantissa and exponent.
theorem Holds.unique {x y : Binary64} {q : ℚ} (hx : (Interval.of x).Holds q)
    (hy : (Interval.of y).Holds q) : x.mantissa = y.mantissa ∧ x.exponent = y.exponent := by
  have hexponent : x.exponent = y.exponent :=
    Int.le_antisymm (Int.not_lt.mp (hy.not_exponent_lt hx)) (Int.not_lt.mp (hx.not_exponent_lt hy))
  refine ⟨Nat.le_antisymm ?_ ?_, hexponent⟩
  · exact Nat.not_lt.mp (hy.not_mantissa_lt hx hexponent.symm)
  · exact Nat.not_lt.mp (hx.not_mantissa_lt hy hexponent)

end Interval

-- The shortest decimal rounds to the number that it is made for.
theorem holds_shortest {x : Binary64} (hx : x.mantissa ≠ 0) :
    (Interval.of x).Holds (shortest x).value := by
  let found : Nat → Option Decimal := fun n =>
    ((Interval.of x).nearest? ((Interval.of x).leadingExponent - n)).map fun digits =>
      ⟨digits, (Interval.of x).leadingExponent - n⟩
  obtain ⟨n, hn⟩ := Interval.exists_holds hx
  have hlast : (found 16).isSome := by
    rw [Option.isSome_map]
    exact Interval.isSome_nearest? _ _ (Interval.holds_value hx) hn
  have hsome : ((List.range 17).findSome? found).isSome := by
    rw [List.findSome?_isSome_iff]
    exact ⟨16, by simp, hlast⟩
  obtain ⟨d, hd⟩ := Option.isSome_iff_exists.mp hsome
  have hshortest : shortest x = d := by
    show ((List.range 17).findSome? found).getD ⟨0, 0⟩ = d
    rw [hd]
    rfl
  obtain ⟨m, -, hm⟩ := List.exists_of_findSome?_eq_some hd
  obtain ⟨digits, hdigits, rfl⟩ := Option.map_eq_some_iff.mp hm
  rw [hshortest]
  exact Interval.holds_of_nearest? _ _ hdigits

end Decimal

end FormulaCode
