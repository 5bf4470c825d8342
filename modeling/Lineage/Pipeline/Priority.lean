import Lineage.Binary64

/-!
# Priorities

How early a listener is served. A priority is a number, or one of the two extremes that lie beyond
every number; any two different priorities are ordered one way or the other.
-/

namespace Lineage

/-- How early a listener is served. -/
inductive Priority
  | lowest
  | number (value : Rat)
  | highest
  deriving DecidableEq, Repr

namespace Priority

def ofInt (n : Int) : Priority :=
  .number n

/-- The priority that a double denotes; an undefined one has no place in the order. -/
def ofBinary64? : Binary64 → Option Priority
  | .finite negative significand exponent =>
    let ratio := Binary64.magnitude significand exponent
    some (.number (mkRat (if negative then -ratio.1 else ratio.1) ratio.2))
  | .infinite true => some .lowest
  | .infinite false => some .highest
  | .nan => none

/-! ## Order -/

def below : Priority → Priority → Bool
  | .lowest, .lowest => false
  | .lowest, _ => true
  | .number a, .number b => a < b
  | .number _, .highest => true
  | _, _ => false

theorem below_irrefl (a : Priority) : a.below a = false := by
  cases a with
  | number x => exact decide_eq_false Rat.lt_irrefl
  | lowest => rfl
  | highest => rfl

theorem below_number {x y : Rat} : (number x).below (number y) = false ↔ y ≤ x :=
  decide_eq_false_iff_not.trans Rat.not_lt

theorem not_below_trans {a b c : Priority} (hab : a.below b = false) (hbc : b.below c = false) :
    a.below c = false := by
  match a, b, c with
  | .lowest, .lowest, .lowest => rfl
  | .number _, .lowest, .lowest => rfl
  | .number _, .number _, .lowest => rfl
  | .number _, .number _, .number _ =>
    exact below_number.2 (Rat.le_trans (below_number.1 hbc) (below_number.1 hab))
  | .highest, _, _ => rfl

theorem eq_of_not_below {a b : Priority} (hab : a.below b = false) (hba : b.below a = false) :
    a = b := by
  match a, b with
  | .lowest, .lowest => rfl
  | .number _, .number _ =>
    exact congrArg _ (Rat.le_antisymm (below_number.1 hba) (below_number.1 hab))
  | .highest, .highest => rfl

end Priority

end Lineage
