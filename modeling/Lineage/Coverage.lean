import Lineage.Scope
import Lineage.Binary64

/-!
# Coverage

How much of a project is linked: the references that lead nowhere, and the figures of a report.
-/

namespace Lineage

/-- The figures of a report on a project. -/
structure Coverage where
  declarations : Nat
  classes : Nat
  linked : Nat
  dangling : Nat
  hierarchies : Nat
  deriving DecidableEq, Repr

namespace Coverage

def references (c : Coverage) : Nat :=
  c.linked + c.dangling

/-- The share of references that are linked, zero if there is no reference. -/
def rate (c : Coverage) : Binary64 :=
  if c.references = 0 then .ofRatio false 0 1 else .ofRatio false c.linked c.references

end Coverage

namespace Graph

/-- The references of a project, each with its declaration, in the order of resolution. -/
def referencesIn (g : Graph) (project : ProjectKey) : List (DeclKey × Reference) :=
  (g.declarationsOf project).flatMap fun key =>
    (((g.declaration? key).map (·.references)).getD []).map fun r => (key, r)

def danglingIn (g : Graph) (project : ProjectKey) : List (DeclKey × Reference) :=
  (g.referencesIn project).filter fun e => !g.isLinked e.2

def coverage (g : Graph) (project : ProjectKey) : Coverage where
  declarations := (g.declarationsOf project).length
  classes := (g.classesOf project).length
  linked := (g.referencesIn project).countP fun e => g.isLinked e.2
  dangling := (g.referencesIn project).countP fun e => !g.isLinked e.2
  hierarchies := (g.classesOf project).countP fun key =>
    (g.declaration? key).any (·.hierarchy.isSome)

end Graph

end Lineage
