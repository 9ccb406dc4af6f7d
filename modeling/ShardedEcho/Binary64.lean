import Mathlib.Algebra.Order.Field.Rat
import Mathlib.Tactic.FieldSimp

/-!
# `double` arithmetic

The t-digest of `src/common/tdigest.hpp` computes in `double`: IEEE 754 binary64, rounding to
nearest with ties to even. A finite double is a rational `m · 2 ^ k` with `|m| < 2 ^ 53` and
`-1074 ≤ k`; here a double is that rational. `+`, `*` and `/` give their exact result,
a quotient `n / d` of integers, rounded to the nearest double (`roundQuot`), and `none` when
it lies beyond the largest finite double, where the source would go on with an infinity or a
NaN. Comparisons of finite doubles are exact, so they are the order of `ℚ`; `-0.0` and `0.0`
are not told apart.

This file proves the following.
* `roundQuot_natCast`, `add_natCast`: every whole number up to `2 ^ 53` is a double, and
  whole numbers add exactly up to `2 ^ 53`, as the t-digest's weights do.
-/

namespace ShardedEcho
namespace Binary64

/-! ## Rounding -/

/-- `⌊log₂ n⌋` for `0 < n < 2 ^ 2 ^ j`, by halving the range of bit positions `j` times. -/
def log2Below : Nat → Nat → Nat
  | 0, _ => 0
  | j + 1, n => if n >>> 2 ^ j = 0 then log2Below j n else 2 ^ j + log2Below j (n >>> 2 ^ j)

/-- `⌊log₂ n⌋` for `0 < n < 2 ^ 4096`, which bounds the numerator and the denominator of the
exact result of `+`, `*` and `/` on finite doubles. -/
def log2 (n : Nat) : Nat := log2Below 12 n

/-- `a < d · 2 ^ e`. -/
def ltScaled (a d : Nat) (e : Int) : Bool :=
  a <<< (-e).toNat < d <<< e.toNat

/-- The exponent `k` of the last place of the doubles around `a / d` (`a, d > 0`):
`2 ^ (k + 52) ≤ a / d < 2 ^ (k + 53)`, or the least exponent `-1074` below the normal range. -/
def ulpExponent (a d : Nat) : Int :=
  let e : Int := (log2 a : Int) - log2 d
  let e := if ltScaled a d e then e - 1 else e
  max (e - 52) (-1074)

/-- `a / d` rounded to a whole number, ties to even. -/
def roundHalfEven (a d : Nat) : Nat :=
  if 2 * (a % d) < d then a / d
  else if d < 2 * (a % d) then a / d + 1
  else if a / d % 2 = 0 then a / d else a / d + 1

/-- The double nearest `n / d` (`d > 0`), ties to the even significand: `n / d` is rounded to
a whole multiple `m` of `2 ^ k` at its last place `k`; `none` from `2 ^ 1024` on, where it
overflows. -/
def roundQuot (n : Int) (d : Nat) : Option ℚ :=
  if n = 0 ∨ d = 0 then some 0
  else
    let k := ulpExponent n.natAbs d
    let m := roundHalfEven (n.natAbs <<< (-k).toNat) (d <<< k.toNat)
    if 971 < k ∨ (k = 971 ∧ m = 2 ^ 53) then none
    else some (mkRat (n.sign * (m <<< k.toNat : Nat)) (1 <<< (-k).toNat))

/-! ## Operations -/

/-- `x + y` on doubles. -/
def add (x y : ℚ) : Option ℚ := roundQuot (x.num * y.den + y.num * x.den) (x.den * y.den)

/-- `x * y` on doubles. -/
def mul (x y : ℚ) : Option ℚ := roundQuot (x.num * y.num) (x.den * y.den)

/-- `x / y` on doubles; division by zero gives an infinity or a NaN. -/
def div (x y : ℚ) : Option ℚ :=
  if y = 0 then none else roundQuot (x.num * y.den * y.num.sign) (x.den * y.num.natAbs)

/-- What `add` rounds is `x + y`. -/
theorem add_quot (x y : ℚ) :
    ((x.num * y.den + y.num * x.den : Int) : ℚ) / ((x.den * y.den : Nat) : ℚ) = x + y := by
  rw [Rat.add_def', Rat.mkRat_eq_div]

/-- What `mul` rounds is `x * y`. -/
theorem mul_quot (x y : ℚ) :
    ((x.num * y.num : Int) : ℚ) / ((x.den * y.den : Nat) : ℚ) = x * y := by
  rw [Rat.mul_eq_mkRat, Rat.mkRat_eq_div]

/-! ## Whole numbers -/

/-- `log2Below j n` is `⌊log₂ n⌋`. -/
theorem log2Below_spec : ∀ (j n : Nat), 0 < n → n < 2 ^ 2 ^ j →
    2 ^ log2Below j n ≤ n ∧ n < 2 ^ (log2Below j n + 1)
  | 0, n, _, h1 => by
    simp only [log2Below, pow_zero, pow_one] at h1 ⊢
    omega
  | j + 1, n, h0, h1 => by
    have hsq : 2 ^ 2 ^ (j + 1) = 2 ^ 2 ^ j * 2 ^ 2 ^ j := by rw [pow_succ, pow_mul, sq]
    have hp : 0 < 2 ^ 2 ^ j := Nat.two_pow_pos _
    unfold log2Below
    rw [Nat.shiftRight_eq_div_pow]
    split
    · -- `n` has at most `2 ^ j` bits
      exact log2Below_spec j n h0 ((Nat.div_eq_zero_iff hp).1 ‹_›)
    · -- `2 ^ j` low bits, and the bits above them
      have hm0 : 0 < n / 2 ^ 2 ^ j := Nat.pos_of_ne_zero ‹_›
      obtain ⟨h2, h3⟩ := log2Below_spec j _ hm0 (Nat.div_lt_of_lt_mul (hsq ▸ h1))
      constructor
      · calc 2 ^ (2 ^ j + log2Below j (n / 2 ^ 2 ^ j))
            = 2 ^ 2 ^ j * 2 ^ log2Below j (n / 2 ^ 2 ^ j) := pow_add _ _ _
          _ ≤ 2 ^ 2 ^ j * (n / 2 ^ 2 ^ j) := Nat.mul_le_mul_left _ h2
          _ ≤ n := Nat.mul_div_le n _
      · calc n < 2 ^ 2 ^ j * (n / 2 ^ 2 ^ j + 1) := Nat.lt_mul_div_succ n hp
          _ ≤ 2 ^ 2 ^ j * 2 ^ (log2Below j (n / 2 ^ 2 ^ j) + 1) := Nat.mul_le_mul_left _ h3
          _ = 2 ^ (2 ^ j + log2Below j (n / 2 ^ 2 ^ j) + 1) := by rw [← pow_add, add_assoc]

/-- Rounding a whole number leaves it. -/
@[simp] theorem roundHalfEven_one (a : Nat) : roundHalfEven a 1 = a := by
  simp only [roundHalfEven, Nat.mod_one, Nat.mul_zero, Nat.zero_lt_one, if_true, Nat.div_one]

/-- The last place of a whole number `n` with `2 ^ L ≤ n`, `L = ⌊log₂ n⌋ ≤ 53`, is `2 ^ (L - 52)`. -/
theorem ulpExponent_natCast {n : Nat} (hl : 2 ^ log2 n ≤ n) (hL : log2 n ≤ 53) :
    ulpExponent n 1 = (log2 n : Int) - 52 := by
  have hlt : ltScaled n 1 (log2 n) = false := by
    have h1 : 1 <<< log2 n ≤ n <<< 0 := by rw [Nat.one_shiftLeft, Nat.shiftLeft_zero]; exact hl
    unfold ltScaled
    rw [Int.toNat_natCast, show (-(log2 n : Int)).toNat = 0 by omega]
    exact decide_eq_false (Nat.not_lt.2 h1)
  simp only [ulpExponent, show log2 1 = 0 by decide, Nat.cast_zero, sub_zero, hlt,
    Bool.false_eq_true, if_false]
  omega

/-- Every whole number up to `2 ^ 53` is a double. -/
theorem roundQuot_natCast {n : Nat} (hn : n ≤ 2 ^ 53) : roundQuot n 1 = some (n : ℚ) := by
  rcases Nat.eq_zero_or_pos n with rfl | h0
  · rfl
  obtain ⟨hl, hl'⟩ : 2 ^ log2 n ≤ n ∧ n < 2 ^ (log2 n + 1) := log2Below_spec 12 n h0
    (lt_of_le_of_lt hn (Nat.pow_lt_pow_right (by norm_num) (by decide)))
  have hL : log2 n ≤ 53 := by
    by_contra hL
    have := Nat.pow_le_pow_right (show 0 < 2 by norm_num) (show 54 ≤ log2 n by omega)
    omega
  unfold roundQuot
  rw [if_neg (by simp [h0.ne']), Int.natAbs_ofNat, ulpExponent_natCast hl hL]
  dsimp only
  rcases Nat.lt_or_ge (log2 n) 53 with hlt | hge
  · -- below `2 ^ 53`: `n · 2 ^ (52 - L)` over `2 ^ (52 - L)`, nothing to round
    rw [show ((log2 n : Int) - 52).toNat = 0 by omega,
      show (-((log2 n : Int) - 52)).toNat = 52 - log2 n by omega]
    simp only [Nat.shiftLeft_zero, roundHalfEven_one, Nat.shiftLeft_eq, Nat.one_mul]
    rw [if_neg (by omega), Int.sign_natCast_of_ne_zero h0.ne', one_mul, Rat.mkRat_eq_div]
    push_cast
    field_simp
  · -- `n = 2 ^ 53`: one halving, exact
    have h53 : n = 2 ^ 53 := le_antisymm hn (le_trans (Nat.pow_le_pow_right (by norm_num) hge) hl)
    have hm : roundHalfEven n 2 = n / 2 := by
      simp only [roundHalfEven, if_pos (show 2 * (n % 2) < 2 by omega)]
    rw [show (log2 n : Int) - 52 = 1 by omega, show (1 : Int).toNat = 1 from rfl,
      show (-1 : Int).toNat = 0 from rfl, Nat.shiftLeft_zero, Nat.one_shiftLeft, pow_one, hm,
      if_neg (by omega), Int.sign_natCast_of_ne_zero h0.ne', one_mul, Nat.shiftLeft_eq, pow_one,
      show n / 2 * 2 = n by omega, Rat.mkRat_eq_div]
    simp

/-- Whole numbers add exactly up to `2 ^ 53`. -/
theorem add_natCast {a b : Nat} (h : a + b ≤ 2 ^ 53) : add a b = some ((a + b : Nat) : ℚ) := by
  simp only [add, Rat.num_natCast, Rat.den_natCast, Int.natCast_one, mul_one, Nat.mul_one]
  exact_mod_cast roundQuot_natCast h

end Binary64
end ShardedEcho
