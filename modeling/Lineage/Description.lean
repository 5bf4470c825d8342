import Lineage.Json
import Lineage.Graph

/-!
# Descriptions

A project as it is described in a document: declarations with ids, names, kinds and the types they
mention, each naming the declaration that encloses it by id.
-/

namespace Lineage

/-! ## Types -/

/-- A described type. -/
inductive TypeEntry
  | reference (name : String) (symbol : Option Int) (arguments : Option (List TypeEntry))
  | tuple (elements : List TypeEntry)
  | union (members : List TypeEntry)
  | intrinsic (name : String)
  | literal (value : String)
  | unknown (name : String)
  deriving Repr, Inhabited

namespace TypeEntry

mutual

def referenceCount : TypeEntry → Nat
  | reference _ _ none => 1
  | reference _ _ (some arguments) => 1 + referenceCountOf arguments
  | tuple elements => referenceCountOf elements
  | union members => referenceCountOf members
  | _ => 0

def referenceCountOf : List TypeEntry → Nat
  | [] => 0
  | t :: ts => t.referenceCount + referenceCountOf ts

end

mutual

/--
The type that a description stands for, its references using the links from `link` on. A
reference without symbol number is looked up by name, and an empty list of arguments is none.
-/
def toExpr (link : LinkKey) : TypeEntry → TypeExpr
  | reference name symbol none => .reference ⟨name, symbol.getD Reference.byName, .link link⟩
  | reference name symbol (some []) =>
    .reference ⟨name, symbol.getD Reference.byName, .link link⟩
  | reference name symbol (some arguments) =>
    .applied ⟨name, symbol.getD Reference.byName, .link link⟩ (toExprs (link + 1) arguments)
  | tuple elements => .tuple (toExprs link elements)
  | union members => .union (toExprs link members)
  | intrinsic name => .intrinsic name
  | literal value => .literal value
  | unknown name => .unknown name

def toExprs (link : LinkKey) : List TypeEntry → List TypeExpr
  | [] => []
  | t :: ts => t.toExpr link :: toExprs (link + t.referenceCount) ts

end

end TypeEntry

/-! ## Declarations -/

structure DecoratorEntry where
  name : String
  type : Option TypeEntry
  arguments : List (String × Json)

/-- A described declaration. -/
structure DeclarationEntry where
  id : Int
  name : String
  kind : String
  symbol : Option Int
  parent : Option Int
  type : Option TypeEntry
  inheritedFrom : Option TypeEntry
  overwrites : Option TypeEntry
  extendedTypes : List TypeEntry
  implementedTypes : List TypeEntry
  decorators : List DecoratorEntry

/-- A described project. -/
structure Description where
  name : String
  declarations : List DeclarationEntry

namespace DeclarationEntry

/-- Every described type of a declaration, in the order of its fields. -/
def types (s : DeclarationEntry) : List TypeEntry :=
  s.type.toList ++ s.inheritedFrom.toList ++ s.overwrites.toList ++ s.extendedTypes ++
    s.implementedTypes ++ s.decorators.filterMap (·.type)

def referenceCount (s : DeclarationEntry) : Nat :=
  TypeEntry.referenceCountOf s.types

end DeclarationEntry

end Lineage
