import Lineage.Graph

/-!
# Scopes and names

A dotted name is looked up from the inside out: first below the scope itself, then below each
enclosing one up to the project. Within a scope the name is followed from child to child, always
to the first child of each name; a dead end in one scope leaves the search to the next one.
-/

namespace Lineage

/-! ## Dotted names -/

/-- The parts of a dotted name; there is always one, which may be empty. -/
def dottedParts (name : String) : List String :=
  (name.toList.splitOn '.').map String.ofList

namespace Graph

/-! ## Downward -/

def childrenOf (g : Graph) : Scope → List DeclKey
  | .declaration key => ((g.declaration? key).map (·.children)).getD []
  | .project key => ((g.project? key).map (·.children)).getD []

def firstNamed (g : Graph) (name : String) (keys : List DeclKey) : Option DeclKey :=
  keys.find? fun key => (g.declaration? key).any (·.name == name)

def below? (g : Graph) (scope : Scope) : List String → Option DeclKey
  | [] => none
  | [name] => g.firstNamed name (g.childrenOf scope)
  | name :: rest => do
    let key ← g.firstNamed name (g.childrenOf scope)
    g.below? (.declaration key) rest

/-! ## Outward -/

/-- What encloses a scope; nothing encloses a project. -/
def parentOf? (g : Graph) : Scope → Option Scope
  | .declaration key => (g.declaration? key).bind (·.parent)
  | .project _ => none

/-- The scope and at most `steps` of the scopes around it, from the inside out. -/
def scopesWithin (g : Graph) : Nat → Scope → List Scope
  | 0, scope => [scope]
  | steps + 1, scope =>
    scope :: ((g.parentOf? scope).map (g.scopesWithin steps)).getD []

/-- The scope and all scopes around it; without a cycle there are no more than declarations. -/
def scopes (g : Graph) (scope : Scope) : List Scope :=
  g.scopesWithin g.declarations.size scope

def find? (g : Graph) (scope : Scope) (parts : List String) : Option DeclKey :=
  (g.scopes scope).findSome? fun s => g.below? s parts

/-! ## Full names -/

/-- The name of a scope; a project adds nothing to the names of its declarations. -/
def scopeName? (g : Graph) : Scope → Option String
  | .declaration key => (g.declaration? key).map (·.name)
  | .project _ => none

/-- The names from the outermost declaration down to this one, joined by dots. -/
def fullName (g : Graph) (key : DeclKey) : String :=
  ".".intercalate ((g.scopes (.declaration key)).filterMap g.scopeName?).reverse

end Graph

end Lineage
