/-!
# Keys

Declarations, projects and links live in the tables of a graph and are named by their places in
them. Two declarations are the same declaration when their keys are equal, whatever they hold.
-/

namespace Lineage

/-- The place of a declaration in its graph. -/
abbrev DeclKey := Nat

/-- The place of a project in its graph. -/
abbrev ProjectKey := Nat

/-- The place of a link in its graph. -/
abbrev LinkKey := Nat

/-- What encloses a declaration: another declaration or a project. -/
inductive Scope
  | declaration (key : DeclKey)
  | project (key : ProjectKey)
  deriving DecidableEq, Repr

end Lineage
