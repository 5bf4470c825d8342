/-!
# Binary floating point

Double-precision numbers as exact values: a finite one is its significand times a power of two.
A ratio or a decimal is rounded to the nearest double, a tie to the even significand.
-/

namespace Lineage

/-- A double-precision number; a finite one has the magnitude `significand * 2 ^ exponent`. -/
inductive Binary64
  | finite (negative : Bool) (significand : Nat) (exponent : Int)
  | infinite (negative : Bool)
  | nan
  deriving DecidableEq, Repr, Inhabited

namespace Binary64

/-! ## Exact ratios -/

def divideHalfEven (num den : Nat) : Nat :=
  let q := num / den
  let r := num % den
  if 2 * r < den then q
  else if den < 2 * r then q + 1
  else q + q % 2

/-- Numerator and denominator of `num / den / base ^ exponent`. -/
def rescale (base num den : Nat) (exponent : Int) : Nat × Nat :=
  if 0 ≤ exponent then (num, den * Nat.pow base exponent.toNat)
  else (num * Nat.pow base (-exponent).toNat, den)

def minExponent : Int := -1074

def maxExponent : Int := 971

/-- The exponent that leaves a significand below `2 ^ 53` when `num / den` is cut to a double. -/
def exponentOf (num den : Nat) : Int :=
  let guess := max ((num.log2 : Int) - den.log2 - 53) minExponent
  let scaled := rescale 2 num den guess
  if Nat.pow 2 53 ≤ scaled.1 / scaled.2 then guess + 1 else guess

/-- The double nearest to `num / den`, infinite when that is out of range. -/
def ofRatio (negative : Bool) (num den : Nat) : Binary64 :=
  if num = 0 then .finite negative 0 minExponent
  else
    let e := exponentOf num den
    let scaled := rescale 2 num den e
    let m := divideHalfEven scaled.1 scaled.2
    let rounded := if m = Nat.pow 2 53 then (Nat.pow 2 52, e + 1) else (m, e)
    if maxExponent < rounded.2 then .infinite negative
    else .finite negative rounded.1 rounded.2

/-! ## Decimals -/

def digitCount (n : Nat) : Nat :=
  (Nat.toDigits 10 n).length

/--
The double nearest to `digits * 10 ^ exponent`. A value with more than 310 places before the point
is infinite and one with more than 325 zeros behind it is zero, so that the powers computed stay
small.
-/
def ofDecimal (negative : Bool) (digits : Nat) (exponent : Int) : Binary64 :=
  let places := (digitCount digits : Int) + exponent
  if digits = 0 || places < -325 then .finite negative 0 minExponent
  else if 310 < places then .infinite negative
  else
    let ratio := rescale 10 digits 1 (-exponent)
    ofRatio negative ratio.1 ratio.2

/-! ## Values -/

def magnitude (significand : Nat) (exponent : Int) : Nat × Nat :=
  rescale 2 significand 1 (-exponent)

/-- The integer that the number is, if it is finite and has no fractional part. -/
def toInt? : Binary64 → Option Int
  | .finite negative significand exponent =>
    let ratio := magnitude significand exponent
    if ratio.1 % ratio.2 = 0 then
      let n : Int := (ratio.1 / ratio.2 : Nat)
      some (if negative then -n else n)
    else none
  | _ => none

def isFinite : Binary64 → Bool
  | .finite .. => true
  | _ => false

/-- The number times a natural number, rounded to a double. -/
def scale (factor : Nat) : Binary64 → Binary64
  | .finite negative significand exponent =>
    let ratio := magnitude significand exponent
    ofRatio negative (factor * ratio.1) ratio.2
  | x => x

/-- The nearest integer to the magnitude of a finite number, a tie to the even one. -/
def roundMagnitude : Binary64 → Nat
  | .finite _ significand exponent =>
    let ratio := magnitude significand exponent
    divideHalfEven ratio.1 ratio.2
  | _ => 0

end Binary64

end Lineage
