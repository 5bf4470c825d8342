import Lineage.Json
import Lineage.Kind
import Lineage.Text.Decimal
import Lineage.Text.Quoted
import Lineage.TypeExpr

/-!
# Declarations

A named entity of a program with the types it mentions, the back edges it has received and the
chain of its ancestors and descendants.
-/

namespace Lineage

structure Decorator where
  name : String
  type : Option TypeExpr
  arguments : List (String × Json)

/-! ## Hierarchies -/

namespace Hierarchy

/--
Where a level finds its types: in the current list of the declaration, or in the list it had
before that was replaced.
-/
inductive Source
  | current
  | kept (types : List TypeExpr)

/-- The types of a level, `current` being the list that the declaration holds now. -/
def Source.types (current : Option (List TypeExpr)) : Source → List TypeExpr
  | .current => current.getD []
  | .kept types => types

/-- One level of a chain; the target is the declaration itself. -/
structure Level where
  isTarget : Bool
  types : List TypeExpr

end Hierarchy

/-- The chain of a declaration: what it extends, itself, and what extends it. -/
structure Hierarchy where
  ancestors : Option Hierarchy.Source
  self : Reference
  descendants : Option Hierarchy.Source

/-! ## Declarations -/

/-- A declaration; a negative `id` is assigned when it is registered. -/
structure Declaration where
  id : Int := -1
  name : String
  kind : Kind
  parent : Option Scope := none
  children : List DeclKey := []
  type : Option TypeExpr := none
  inheritedFrom : Option TypeExpr := none
  overwrites : Option TypeExpr := none
  extendedTypes : Option (List TypeExpr) := none
  extendedBy : Option (List TypeExpr) := none
  implementedTypes : Option (List TypeExpr) := none
  implementedBy : Option (List TypeExpr) := none
  decorators : Option (List Decorator) := none
  hierarchy : Option Hierarchy := none

namespace Declaration

def isClassLike (d : Declaration) : Bool :=
  d.kind.meets .classOrInterface

def describe? (d : Declaration) : Option String :=
  if Text.Writable d.id then
    some ("Declaration(id=" ++ toString d.id ++ ", name=" ++ Text.quoted d.name ++ ", kind=" ++
      d.kind.describe ++ ")")
  else none

/-! ## Types -/

/--
The types that resolution visits, in its order: the single types, then the lists, then the types
of the decorators. The list of implementers is not visited.
-/
def types (d : Declaration) : List TypeExpr :=
  d.type.toList ++ d.inheritedFrom.toList ++ d.overwrites.toList ++
    d.extendedTypes.getD [] ++ d.extendedBy.getD [] ++ d.implementedTypes.getD [] ++
    (d.decorators.getD []).filterMap (·.type)

/-- Every reference that resolution visits, in its order. -/
def references (d : Declaration) : List Reference :=
  TypeExpr.referencesOf d.types

/-! ## Chains -/

private def sourceOf (types : Option (List TypeExpr)) : Option Hierarchy.Source :=
  if (types.getD []).isEmpty then none else some .current

/-- The chain that the declaration, known by `key`, has at present. -/
def chain (d : Declaration) (key : DeclKey) : Hierarchy where
  ancestors := sourceOf d.extendedTypes
  self := .toDeclaration d.name key
  descendants := sourceOf d.extendedBy

/-- The levels of a chain of this declaration, from the ancestors down. -/
def levelsOf (d : Declaration) (h : Hierarchy) : List Hierarchy.Level :=
  (h.ancestors.map fun s => ⟨false, s.types d.extendedTypes⟩).toList ++
    ⟨true, [.reference h.self]⟩ ::
    (h.descendants.map fun s => ⟨false, s.types d.extendedBy⟩).toList

def levels? (d : Declaration) : Option (List Hierarchy.Level) :=
  d.hierarchy.map d.levelsOf

/-- Replaces the list of extended types; a stored chain keeps the list it was built on. -/
def setExtendedTypes (d : Declaration) (types : Option (List TypeExpr)) : Declaration :=
  { d with
    extendedTypes := types
    hierarchy := d.hierarchy.map fun h =>
      { h with ancestors := h.ancestors.map fun s => .kept (s.types d.extendedTypes) } }

/-- Replaces the list of extending types; a stored chain keeps the list it was built on. -/
def setExtendedBy (d : Declaration) (types : Option (List TypeExpr)) : Declaration :=
  { d with
    extendedBy := types
    hierarchy := d.hierarchy.map fun h =>
      { h with descendants := h.descendants.map fun s => .kept (s.types d.extendedBy) } }

/-! ## Implementers -/

/-- Whether `a` comes strictly before `b` in code point order; a type without a name never does. -/
def namePrecedes (a b : TypeExpr) : Bool :=
  match a.name?, b.name? with
  | some x, some y => x < y
  | _, _ => false

/-- Inserts a type behind all types that it does not precede. -/
def insertByName (t : TypeExpr) : List TypeExpr → List TypeExpr
  | [] => [t]
  | u :: us => if namePrecedes t u then t :: u :: us else u :: insertByName t us

def sortByName (ts : List TypeExpr) : List TypeExpr :=
  ts.foldl (fun sorted t => insertByName t sorted) []

def sortImplementers? (d : Declaration) : Option Declaration :=
  match d.implementedBy with
  | none => some d
  | some ts =>
    if ts.all (·.name?.isSome) then some { d with implementedBy := some (sortByName ts) }
    else none

end Declaration

end Lineage
