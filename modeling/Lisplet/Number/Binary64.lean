import Lisplet.Decimal

/-!
# Doubles as scaled integers

The magnitudes of the doubles, in increasing order from zero, are numbered by their *code*, the low
63 bits. Every finite magnitude is a whole number of units of `2 ^ -1074`, so that rounding a
quotient to the nearest double is one division in the naturals. Rounding depends on the quotient
alone (`nearest_mul_right`) and keeps what is a double already (`nearest_units`).
-/

namespace Lisplet.Binary64

/-- The quotient rounded to the nearest natural number, a half going to the even one. -/
def roundDiv (n d : Nat) : Nat :=
  if 2 * (n % d) < d then n / d
  else if d < 2 * (n % d) then n / d + 1
  else n / d + n / d % 2

/-- How many codes in a row have the same exponent: `2 ^ 52`. -/
def binade : Nat := Nat.pow 2 52

/-- The number of units in one: `2 ^ 1074`. -/
def one : Nat := Nat.pow 2 1074

/-- What the sign bit counts: `2 ^ 63`. -/
def signBit : Nat := Nat.pow 2 63

/-- The code of infinity, the first one beyond the finite magnitudes. -/
def infinity : Nat := 2047 * binade

/-- The significand of a finite magnitude, below `2 * binade`. -/
def significand (code : Nat) : Nat := if code < binade then code else binade + code % binade

/-- The power of two that scales the significand to units. -/
def shift (code : Nat) : Nat := code / binade - 1

/-- A finite magnitude in units of `2 ^ -1074`. -/
def units (code : Nat) : Nat := significand code * Nat.pow 2 (shift code)

/-- The code of the magnitude nearest to `n / d`, a tie going to the even significand. -/
def nearest (n d : Nat) : Nat :=
  let scaled := n * one
  let s := (scaled / d).log2 - 52
  min (s * binade + roundDiv scaled (d * Nat.pow 2 s)) infinity

/-- The code of the magnitude nearest to a decimal. Decimals far outside the range of doubles are
settled by the place of their point. -/
def nearestDecimal (d : Decimal) : Nat :=
  if d.coefficient = 0 ∨ d.point < -330 then 0
  else if 310 < d.point then infinity
  else nearest d.ratio.1 d.ratio.2

/-- The decimal that is exactly a finite magnitude. -/
def exactDecimal (code : Nat) : Decimal :=
  if 1074 ≤ shift code then ⟨significand code * Nat.pow 2 (shift code - 1074), 0⟩
  else ⟨significand code * Nat.pow 5 (1074 - shift code), -(1074 - shift code : Nat)⟩

/-- The double with a given sign and magnitude. -/
def ofCode (negative : Bool) (code : Nat) : Float :=
  Float.ofBits (UInt64.ofNat (if negative then signBit + code else code))

/-- The sign bit, also of zero. -/
def isNegative (x : Float) : Bool := signBit ≤ x.toBits.toNat

/-- The code of the magnitude of a double. -/
def code (x : Float) : Nat := x.toBits.toNat % signBit

/-- The double nearest to a signed quotient. -/
def ofRatio (negative : Bool) (n d : Nat) : Float := ofCode negative (nearest n d)

/-- The double nearest to a signed decimal. -/
def ofDecimal (negative : Bool) (d : Decimal) : Float := ofCode negative (nearestDecimal d)

/-- The double nearest to a signed quotient, if that is finite. -/
def ofRatio? (negative : Bool) (n d : Nat) : Option Float :=
  let code := nearest n d
  if code < infinity then some (ofCode negative code) else none

/-- The double nearest to a natural number. -/
def ofNat (n : Nat) : Float := ofRatio false n 1

/-- The double nearest to an integer, if that is finite. -/
def ofInt? (n : Int) : Option Float := ofRatio? (n < 0) n.natAbs 1

/-- The value of a finite double in units of `2 ^ -1074`. -/
def toUnits (x : Float) : Int :=
  if isNegative x then -(units (code x) : Int) else units (code x)

/-- The remainder of a division of finite doubles rounded toward zero, with the sign of `x`. -/
def remainder (x y : Float) : Float :=
  ofRatio (isNegative x) (units (code x) % units (code y)) one

/-- How an integer compares with a double, and `none` when the double is not a number. -/
def compareInt (n : Int) (x : Float) : Option Ordering :=
  if x.isNaN then none
  else if code x = infinity then some (if isNegative x then .gt else .lt)
  else some (compare (n * one) (toUnits x))

/-! ### Rounding -/

theorem roundDiv_mul_self {q d : Nat} (hd : 0 < d) : roundDiv (q * d) d = q := by
  simp [roundDiv, Nat.mul_div_cancel q hd, hd]

theorem binade_pos : 0 < binade := Nat.two_pow_pos 52

theorem one_pos : 0 < one := by decide +kernel

/-- The code of a magnitude is put together from its exponent and its significand. -/
theorem shift_mul_add_significand (code : Nat) :
    shift code * binade + significand code = code := by
  unfold shift significand
  split
  · next h => simp [Nat.div_eq_of_lt h]
  · next h =>
    have h1 : 1 ≤ code / binade := (Nat.le_div_iff_mul_le binade_pos).2 (by omega)
    have h2 := Nat.div_add_mod code binade
    rw [Nat.sub_mul, Nat.mul_comm (code / binade)]
    have h3 : binade * 1 ≤ binade * (code / binade) := Nat.mul_le_mul_left _ h1
    omega

theorem log2_units (code : Nat) : (units code).log2 - 52 = shift code := by
  unfold units
  rcases Nat.lt_or_ge code binade with h | h
  · have hs : shift code = 0 := by simp [shift, Nat.div_eq_of_lt h]
    have hm : significand code = code := by simp [significand, h]
    rw [hs, hm]
    show (code * 1).log2 - 52 = 0
    rw [Nat.mul_one]
    rcases Nat.eq_zero_or_pos code with rfl | hpos
    · rfl
    · have : code.log2 < 52 := (Nat.log2_lt (by omega)).2 h
      omega
  · have hm : significand code = binade + code % binade := by simp [significand, Nat.not_lt.2 h]
    have hlt : code % binade < binade := Nat.mod_lt _ binade_pos
    have hlow : Nat.pow 2 52 ≤ significand code := by rw [hm]; exact Nat.le_add_right ..
    have hhigh : significand code < Nat.pow 2 53 := by
      have : Nat.pow 2 53 = binade + binade := rfl
      omega
    have hpos : 0 < significand code := Nat.lt_of_lt_of_le (Nat.two_pow_pos 52) hlow
    have hne : significand code * Nat.pow 2 (shift code) ≠ 0 :=
      Nat.ne_of_gt (Nat.mul_pos hpos (Nat.two_pow_pos _))
    have hlog : (significand code * Nat.pow 2 (shift code)).log2 = 52 + shift code := by
      rw [Nat.log2_eq_iff hne]
      constructor
      · rw [Nat.pow_add]
        exact Nat.mul_le_mul_right _ hlow
      · rw [show 52 + shift code + 1 = 53 + shift code by omega, Nat.pow_add]
        exact Nat.mul_lt_mul_of_pos_right hhigh (Nat.two_pow_pos _)
    omega

/-- Rounding changes nothing about the magnitude of a double. -/
theorem nearest_units {code : Nat} (h : code ≤ infinity) : nearest (units code) one = code := by
  have hpos : 0 < Nat.pow 2 (shift code) := Nat.two_pow_pos _
  simp only [nearest, Nat.mul_div_cancel _ one_pos, log2_units]
  rw [show units code * one = significand code * (one * Nat.pow 2 (shift code)) by
    unfold units; rw [Nat.mul_assoc, Nat.mul_comm one]]
  rw [roundDiv_mul_self (Nat.mul_pos one_pos hpos), shift_mul_add_significand]
  exact Nat.min_eq_left h

theorem roundDiv_mul_right (n d : Nat) {k : Nat} (hk : 0 < k) :
    roundDiv (n * k) (d * k) = roundDiv n d := by
  simp only [roundDiv, Nat.mul_mod_mul_right, Nat.mul_div_mul_right _ _ hk, ← Nat.mul_assoc,
    Nat.mul_lt_mul_right hk]

/-- Rounding depends on the quotient alone. -/
theorem nearest_mul_right (n d : Nat) {k : Nat} (hk : 0 < k) :
    nearest (n * k) (d * k) = nearest n d := by
  simp only [nearest, Nat.mul_right_comm _ k, Nat.mul_div_mul_right _ _ hk,
    roundDiv_mul_right _ _ hk]

end Lisplet.Binary64
