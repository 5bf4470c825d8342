import Lineage.Graph

/-!
# Chains

The last step of a run: each declaration that awaits a hierarchy gets its implementers sorted and
the chain of what it extends, itself and what extends it.
-/

namespace Lineage.Graph

/-- Sorts the implementers of a declaration and stores its chain; none if they have no order. -/
def storeChain? (g : Graph) (key : DeclKey) : Option Graph :=
  match g.declaration? key with
  | none => some g
  | some d =>
    d.sortImplementers?.map fun sorted =>
      g.modify key fun _ => { sorted with hierarchy := some (sorted.chain key) }

/--
Stores the chains of declarations in order, up to the first whose implementers have no order; the
flag tells whether there is none.
-/
def storeChains (g : Graph) : List DeclKey → Graph × Bool
  | [] => (g, true)
  | key :: keys =>
    match g.storeChain? key with
    | some g => g.storeChains keys
    | none => (g, false)

end Lineage.Graph
