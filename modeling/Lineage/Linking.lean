import Lineage.Scope
import Lineage.Tally

/-!
# Linking

References are linked one by one in the order in which the types of a declaration hold them. What
a reference names depends on names, scopes and symbol numbers alone, never on other links. A
reference that names nothing stays unlinked and is counted as dangling.
-/

namespace Lineage

namespace Graph

/-! ## Lookup -/

/-- The declaration that a reference names when it is looked up from `origin`. -/
def named? (g : Graph) (project : ProjectKey) (origin : Scope) (r : Reference) : Option DeclKey :=
  if r.symbol = Reference.byName then g.find? origin (dottedParts r.name)
  else if r.symbol = Reference.settled then none
  else g.bySymbol? project r.symbol

def setLink (g : Graph) (link : LinkKey) (key : DeclKey) : Graph :=
  { g with links := g.links.modify link fun _ => some key }

end Graph

/-! ## State -/

/-- A graph that is being linked, and the tally of the work. -/
structure Linking where
  graph : Graph
  tally : Tally

namespace Linking

/-- Records what an unlinked reference with the given link was found to name. -/
def settle (s : Linking) (link : LinkKey) : Option DeclKey → Linking
  | some key => ⟨s.graph.setLink link key, s.tally.countReference true⟩
  | none => ⟨s.graph, s.tally.countReference false⟩

/-- Links a reference in the types of `origin`, unless it is linked already. -/
def reference (project : ProjectKey) (origin : DeclKey) (s : Linking) (r : Reference) : Linking :=
  match r.anchor with
  | .bound _ => s
  | .link link =>
    if s.graph.isLinked r then s
    else s.settle link (s.graph.named? project (.declaration origin) r)

def references (project : ProjectKey) (origin : DeclKey) (rs : List Reference) (s : Linking) :
    Linking :=
  rs.foldl (reference project origin) s

def declaration (project : ProjectKey) (origin : DeclKey) (s : Linking) : Linking :=
  match s.graph.declaration? origin with
  | some d => s.references project origin d.references
  | none => s

end Linking

end Lineage
