/-!
# Tallies

The counters of a run: how many declarations were delivered, what became of the references met
unlinked, and how many back edges and hierarchies came out.
-/

namespace Lineage

structure Tally where
  declarationsResolved : Nat := 0
  referencesSeen : Nat := 0
  referencesLinked : Nat := 0
  referencesDangling : Nat := 0
  backEdgesAdded : Nat := 0
  hierarchiesBuilt : Nat := 0
  deriving DecidableEq, Repr, Inhabited

namespace Tally

/-- Counts a reference that was met unlinked, by whether it could be linked. -/
def countReference (t : Tally) (linked : Bool) : Tally :=
  { t with
    referencesSeen := t.referencesSeen + 1
    referencesLinked := t.referencesLinked + linked.toNat
    referencesDangling := t.referencesDangling + (!linked).toNat }

/-- Counts a reference that was met unlinked and not looked up to the end. -/
def countSeen (t : Tally) : Tally :=
  { t with referencesSeen := t.referencesSeen + 1 }

def countDeclaration (t : Tally) : Tally :=
  { t with declarationsResolved := t.declarationsResolved + 1 }

def countBackEdges (t : Tally) (n : Nat) : Tally :=
  { t with backEdgesAdded := t.backEdgesAdded + n }

def countHierarchies (t : Tally) (n : Nat) : Tally :=
  { t with hierarchiesBuilt := t.hierarchiesBuilt + n }

end Tally

end Lineage
