import Lineage.Linking

/-!
# Linking detached types

A type may be linked that belongs to no declaration. Its names are then looked up in a project, or
nowhere at all. A dangling reference is reported under the full name of the declaration it belongs
to; a detached one has none, so linking stops at the first that has to be reported.
-/

namespace Lineage.Linking

/--
Links a detached reference. Without an origin it cannot be looked up by name. The flag tells
whether linking may go on.
-/
def detached (report : Bool) (project : ProjectKey) (origin : Option ProjectKey) (s : Linking)
    (r : Reference) : Linking × Bool :=
  match r.anchor with
  | .bound _ => (s, true)
  | .link link =>
    if s.graph.isLinked r then (s, true)
    else if origin.isNone && r.symbol = Reference.byName then
      ({ s with tally := s.tally.countSeen }, false)
    else
      let found := s.graph.named? project (.project (origin.getD project)) r
      (s.settle link found, found.isSome || !report)

/-- Links detached references in order, up to the first behind which linking may not go on. -/
def detachedAll (report : Bool) (project : ProjectKey) (origin : Option ProjectKey) (s : Linking) :
    List Reference → Linking × Bool
  | [] => (s, true)
  | r :: rs =>
    match s.detached report project origin r with
    | (s, true) => s.detachedAll report project origin rs
    | (s, false) => (s, false)

end Lineage.Linking
