import Lineage.Graph
import Lineage.Worklist

/-!
# Back edges

A class or interface leaves a reference to itself with every declaration that the tops of its
implemented and extended types are linked to, once for each of them. It and its targets then await
a hierarchy. Back edges are not merged: doing this twice leaves every reference twice.
-/

namespace Lineage.Graph

def addImplementer (source : Reference) (g : Graph) (target : DeclKey) : Graph :=
  g.modify target fun d =>
    { d with implementedBy := some (d.implementedBy.getD [] ++ [.reference source]) }

def addExtender (source : Reference) (g : Graph) (target : DeclKey) : Graph :=
  g.modify target fun d =>
    { d with extendedBy := some (d.extendedBy.getD [] ++ [.reference source]) }

/-- What a declaration contributes: a graph with its back edges, who awaits a hierarchy, a count. -/
structure Contribution where
  graph : Graph
  pending : Worklist
  added : Nat

def addBackEdges (g : Graph) (pending : Worklist) (key : DeclKey) : Contribution :=
  match g.declaration? key with
  | none => ⟨g, pending, 0⟩
  | some d =>
    if d.isClassLike then
      let source := Reference.toDeclaration d.name key
      let implemented := g.targets d.implementedTypes
      let extended := g.targets d.extendedTypes
      { graph := extended.foldl (addExtender source) (implemented.foldl (addImplementer source) g)
        pending := pending.addAll (key :: implemented ++ extended)
        added := implemented.length + extended.length }
    else ⟨g, pending, 0⟩

end Lineage.Graph
