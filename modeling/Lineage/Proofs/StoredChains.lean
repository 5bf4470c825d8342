import Lineage.Chain
import Lineage.Proofs.Frame
import Lineage.Proofs.NameOrder

/-!
# Storing chains

Each declaration that awaits its hierarchy gets its implementers sorted and its chain stored. As
long as all implementers have names this comes to an end for all of them.
-/

namespace Lineage

/-- A declaration with sorted implementers and with the chain that it has at present. -/
def Declaration.chained (d : Declaration) (key : DeclKey) : Declaration :=
  { d with
    implementedBy := d.implementedBy.map sortByName
    hierarchy := some (d.chain key) }

namespace Graph

/-- A graph in which the chains of some declarations were stored. -/
structure Chained (g : Graph) (keys : List DeclKey) (g' : Graph) : Prop where
  alike : Alike g g'
  links : g'.links = g.links
  declaration : ∀ other, g'.declaration? other = (g.declaration? other).map fun d =>
    if other ∈ keys then d.chained other else d

def Sortable (g : Graph) (key : DeclKey) : Prop :=
  ∀ d, g.declaration? key = some d → ∀ ts, d.implementedBy = some ts → Declaration.AllNamed ts

theorem alike_storeChain? {g g' : Graph} {key : DeclKey} (h : g.storeChain? key = some g') :
    Alike g g' := by
  rw [storeChain?] at h
  split at h
  · cases h
    exact .refl g
  · next d hd =>
    obtain ⟨sorted, hsorted, rfl⟩ := Option.map_eq_some_iff.mp h
    refine Alike.modify g key fun d' hd' => ?_
    obtain rfl := Option.some.inj (hd.symm.trans hd')
    rw [Declaration.sortImplementers?] at hsorted
    split at hsorted
    · cases hsorted
      rfl
    · split at hsorted
      · cases hsorted
        rfl
      · cases hsorted

/-- Storing chains changes nothing but what a run adds, whether it comes to an end or not. -/
theorem alike_storeChains (keys : List DeclKey) (g : Graph) : Alike g (g.storeChains keys).1 := by
  induction keys generalizing g with
  | nil => exact .refl g
  | cons key keys ih =>
    rw [storeChains]
    cases hstored : g.storeChain? key with
    | none => exact .refl g
    | some g' => exact (alike_storeChain? hstored).trans (ih g')

theorem storeChain?_spec {g : Graph} {key : DeclKey} (h : g.Sortable key) :
    ∃ g', g.storeChain? key = some g' ∧ Chained g [key] g' := by
  cases hd : g.declaration? key with
  | none =>
    refine ⟨g, by simp [storeChain?, hd], Alike.refl g, rfl, fun other => ?_⟩
    by_cases he : other = key
    · simp [he, hd]
    · simp [he]
  | some d =>
    refine ⟨g.modify key fun _ => d.chained key, ?_, ?_, rfl, fun other => ?_⟩
    · simp only [storeChain?, hd, Declaration.sortImplementers?_eq (h d hd), Option.map_some]
      rfl
    · refine Alike.modify g key fun d' hd' => ?_
      obtain rfl := Option.some.inj (hd.symm.trans hd')
      rfl
    · by_cases he : other = key
      · simp [he, hd]
      · rw [declaration?_modify_of_ne g fun e => he e.symm]
        simp [he]

theorem storeChains_spec {keys : List DeclKey} (hnodup : keys.Nodup) {g : Graph}
    (h : ∀ key ∈ keys, g.Sortable key) :
    (g.storeChains keys).2 = true ∧ Chained g keys (g.storeChains keys).1 := by
  induction keys generalizing g with
  | nil => exact ⟨rfl, Alike.refl g, rfl, fun other => by simp [storeChains]⟩
  | cons key keys ih =>
    obtain ⟨hnot, hnodup⟩ := List.nodup_cons.mp hnodup
    obtain ⟨g₁, hg₁, hfirst⟩ := storeChain?_spec (h key List.mem_cons_self)
    -- The declarations that are still to come have not been touched.
    have hrest : ∀ k ∈ keys, g₁.Sortable k := by
      intro k hk d hd
      have hne : k ≠ key := fun e => hnot (e ▸ hk)
      have hsame : g₁.declaration? k = g.declaration? k := by
        rw [hfirst.declaration]
        simp [hne]
      rw [hsame] at hd
      exact h k (List.mem_cons_of_mem _ hk) d hd
    obtain ⟨hcomplete, hchained⟩ := ih hnodup hrest
    simp only [storeChains, hg₁]
    refine ⟨hcomplete, hfirst.alike.trans hchained.alike, hchained.links.trans hfirst.links, ?_⟩
    intro other
    rw [hchained.declaration, hfirst.declaration, Option.map_map]
    congr 1
    funext d
    by_cases he : other = key
    · subst he
      simp [hnot]
    · simp [he]

end Graph

end Lineage
