import Lineage.Binary64

/-!
# Shortest decimals

The text of a double is the decimal with the fewest digits that reads back as the same double;
among those the nearest is taken, a tie going to the even digit. Magnitudes from 10⁻⁴ up to 10¹⁶
are written positionally, the others with an exponent.
-/

namespace Lineage.Binary64

/-! ## Digits -/

/-- The decimal `digits * 10 ^ exponent`. -/
structure Decimal where
  digits : Nat
  exponent : Int
  deriving DecidableEq, Repr

/-- The number `k` with `10 ^ (k - 1) ≤ num / den < 10 ^ k`. -/
def placesBeforePoint (num den : Nat) : Int :=
  if den ≤ num then digitCount (num / den)
  else
    match (List.range 330).find? fun j => den ≤ num * Nat.pow 10 (j + 1) with
    | some j => -j
    | none => -330

def Decimal.readsBack (d : Decimal) (significand : Nat) (exponent : Int) : Bool :=
  ofDecimal false d.digits d.exponent == .finite false significand exponent

/-- Of the two neighbours on the grid of `count` digits, the nearest that reads back. -/
def neighbour? (significand : Nat) (exponent : Int) (count : Nat) : Option Decimal :=
  let ratio := magnitude significand exponent
  let unit := placesBeforePoint ratio.1 ratio.2 - count
  let scaled := rescale 10 ratio.1 ratio.2 unit
  let near : Decimal := ⟨divideHalfEven scaled.1 scaled.2, unit⟩
  let below : Decimal := ⟨scaled.1 / scaled.2, unit⟩
  let above : Decimal := ⟨scaled.1 / scaled.2 + 1, unit⟩
  [near, below, above].find? (·.readsBack significand exponent)

def shortest (significand : Nat) (exponent : Int) : Decimal :=
  match (List.range 17).findSome? fun n => neighbour? significand exponent (n + 1) with
  | some d => d
  | none => ⟨0, 0⟩

/-! ## Notation -/

def zeros (n : Nat) : List Char :=
  List.replicate n '0'

/-- The exponent of scientific notation: its sign, then at least two digits. -/
def exponentText (e : Int) : List Char :=
  let ds := Nat.toDigits 10 e.natAbs
  (if e < 0 then '-' else '+') :: (zeros (2 - ds.length) ++ ds)

def dropTrailingZeros (ds : List Char) : List Char :=
  ((ds.reverse).dropWhile (· == '0')).reverse

def Decimal.text (d : Decimal) : List Char :=
  let all := Nat.toDigits 10 d.digits
  let point : Int := all.length + d.exponent
  let ds := dropTrailingZeros all
  if point ≤ -4 || 16 < point then
    let tail := ds.drop 1
    ds.take 1 ++ (if tail.isEmpty then [] else '.' :: tail) ++ 'e' :: exponentText (point - 1)
  else if point ≤ 0 then
    ['0', '.'] ++ zeros (-point).toNat ++ ds
  else
    let whole := ds.take point.toNat
    let rest := ds.drop point.toNat
    whole ++ zeros (point.toNat - whole.length) ++ '.' :: (if rest.isEmpty then ['0'] else rest)

def text : Binary64 → String
  | .finite negative significand exponent =>
    let body := if significand = 0 then ['0', '.', '0'] else (shortest significand exponent).text
    String.ofList (if negative then '-' :: body else body)
  | .infinite negative => if negative then "-inf" else "inf"
  | .nan => "nan"

def percent (x : Binary64) : String :=
  toString (x.scale 100).roundMagnitude ++ "%"

end Lineage.Binary64
