/-!
# Decimal text

Integers are read and written in decimal digits, of which there are never more than 4300.
-/

namespace Lineage.Text

/-- Irreducible, since a power with this exponent is not to be evaluated by unification. -/
@[irreducible]
def maxDigits : Nat := 4300

/-- An integer that is short enough to be written. -/
def Writable (n : Int) : Prop :=
  n.natAbs < Nat.pow 10 maxDigits

instance (n : Int) : Decidable (Writable n) :=
  inferInstanceAs (Decidable (_ < _))

end Lineage.Text
