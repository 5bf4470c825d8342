import Lineage.Coverage
import Lineage.Proofs.Hierarchies

/-!
# Figures of chains

A run counts the chains that it builds, and a report counts those of classes and interfaces. A class
may also implement or extend a declaration of another kind, which gets a chain as well; by these
declarations the two figures differ, and by nothing else.
-/

namespace Lineage

namespace Graph

variable {g : Graph} {project : ProjectKey}

theorem inherited_iff_any {key : DeclKey} :
    ((g.classesOf project).any fun source => (g.declaration? source).any fun d =>
      decide (key ∈ g.targets d.implementedTypes ∨ key ∈ g.targets d.extendedTypes)) = true ↔
      g.Inherited project key := by
  simp only [Inherited, List.any_eq_true, Option.any_eq_true, decide_eq_true_eq]

instance (key : DeclKey) : Decidable (g.Inherited project key) :=
  decidable_of_iff _ inherited_iff_any

/-- What is neither class nor interface but implemented or extended by one. -/
def inheritedOthers (g : Graph) (project : ProjectKey) : List DeclKey :=
  (g.declarationsOf project).filter fun key =>
    key ∉ g.classesOf project ∧ g.Inherited project key

/-- Only classes and interfaces are inherited from just if there are no others that are. -/
theorem inheritedOthers_eq_nil :
    g.inheritedOthers project = [] ↔
      ∀ key ∈ g.declarationsOf project, g.Inherited project key → key ∈ g.classesOf project := by
  simp only [inheritedOthers, List.filter_eq_nil_iff, decide_eq_true_eq, not_and]
  exact forall₂_congr fun key _ => not_imp_not

/-- The chains of a project are those of its classes and those of its other declarations. -/
theorem hierarchyCount_eq_add (g : Graph) (project : ProjectKey) :
    g.hierarchyCount project = (g.coverage project).hierarchies +
      ((g.declarationsOf project).filter fun key => key ∉ g.classesOf project).countP
        fun key => (g.declaration? key).any (·.hierarchy.isSome) := by
  have hclasses : g.classesOf project =
      (g.declarationsOf project).filter fun key => key ∈ g.classesOf project := by
    conv_lhs => rw [classesOf, byKind]
    refine List.filter_congr fun key hkey => ?_
    rw [Bool.eq_iff_iff, decide_eq_true_iff, classesOf, byKind, List.mem_filter]
    exact (and_iff_right hkey).symm
  have hsplit := List.countP_eq_countP_filter_add (g.declarationsOf project)
    (fun key => (g.declaration? key).any (·.hierarchy.isSome))
    (fun key => decide (key ∈ g.classesOf project))
  simp only [hierarchyCount, coverage, decide_not]
  rw [hsplit, ← hclasses]

namespace Ranked

variable (h : g.Ranked project)
include h

theorem coverage_hierarchies :
    (g.coverage project).hierarchies = (g.classesOf project).length := by
  refine List.countP_eq_length.mpr fun key hkey => ?_
  obtain ⟨hmem, d, hd, hclass⟩ := mem_classesOf.mp hkey
  obtain ⟨d', hd', hiff⟩ := h.exists_iff key hmem
  obtain rfl := Option.some.inj (hd.symm.trans hd')
  rw [hd, Option.any_some]
  exact hiff.mpr (Or.inl hclass)

/-- Apart from classes and interfaces, what one of them inherits from has a chain. -/
theorem countP_others :
    (((g.declarationsOf project).filter fun key => key ∉ g.classesOf project).countP
      fun key => (g.declaration? key).any (·.hierarchy.isSome)) =
      (g.inheritedOthers project).length := by
  rw [List.countP_filter, List.countP_eq_length_filter]
  refine congrArg List.length (List.filter_congr fun key hkey => ?_)
  obtain ⟨d, hd, hiff⟩ := h.exists_iff key hkey
  have hclass : key ∈ g.classesOf project ↔ d.isClassLike := by
    simp only [mem_classesOf, hkey, hd, Option.some.injEq, exists_eq_left', true_and]
  rw [Bool.eq_iff_iff, hd, Option.any_some, Bool.and_eq_true, decide_eq_true_iff,
    decide_eq_true_iff, hiff, hclass]
  exact ⟨fun ⟨hor, hnot⟩ => ⟨hnot, hor.resolve_left hnot⟩, fun ⟨hnot, hin⟩ => ⟨Or.inr hin, hnot⟩⟩

theorem hierarchyCount_eq :
    g.hierarchyCount project =
      (g.coverage project).hierarchies + (g.inheritedOthers project).length := by
  rw [hierarchyCount_eq_add, h.countP_others]

end Ranked

end Graph

/-! ## Runs -/

namespace Pipeline

/--
After a run over a described project the report finds a chain at every class and interface. The run
has counted those, and one more for each declaration of another kind that one of them implements or
extends; so the two figures agree just if classes and interfaces inherit only from each other.
-/
theorem plainRun_chainFigures {g₀ g : Graph} {source : String} {spec : Description}
    (h : g₀.adopt source spec = .ok g) :
    ∃ tally g', plainRun g g₀.projects.size = (.ok tally, g') ∧
      (g'.coverage g₀.projects.size).hierarchies = (g'.classesOf g₀.projects.size).length ∧
      tally.hierarchiesBuilt = (g'.coverage g₀.projects.size).hierarchies +
        (g'.inheritedOthers g₀.projects.size).length ∧
      (tally.hierarchiesBuilt = (g'.coverage g₀.projects.size).hierarchies ↔
        ∀ key ∈ g'.declarationsOf g₀.projects.size, g'.Inherited g₀.projects.size key →
          key ∈ g'.classesOf g₀.projects.size) := by
  have hloaded := (Graph.adopt_spec h).loaded
  obtain ⟨tally, g', hrun, hresolved⟩ := plainRun_spec hloaded
  have hranked := hresolved.ranked hloaded
  have hbuilt := (hresolved.hierarchiesBuilt_eq hloaded).trans hranked.hierarchyCount_eq
  refine ⟨tally, g', hrun, hranked.coverage_hierarchies, hbuilt, ?_⟩
  rw [hbuilt, Nat.add_eq_left, List.length_eq_zero_iff, Graph.inheritedOthers_eq_nil]

theorem plainRun_chainFigures_sample :
    ∃ g, Graph.empty.adopt "sample" Description.sample = .ok g ∧
      ∃ tally g', plainRun g 0 = (.ok tally, g') ∧
        (g'.coverage 0).hierarchies = (g'.classesOf 0).length ∧
        tally.hierarchiesBuilt = (g'.coverage 0).hierarchies + (g'.inheritedOthers 0).length ∧
        (tally.hierarchiesBuilt = (g'.coverage 0).hierarchies ↔
          ∀ key ∈ g'.declarationsOf 0, g'.Inherited 0 key → key ∈ g'.classesOf 0) := by
  obtain ⟨g, h⟩ := Graph.exists_adopt_sample
  have hfigures := plainRun_chainFigures h
  exact ⟨g, h, hfigures⟩

def extendsVariable : Description where
  name := "mixed"
  declarations :=
    [ { id := 1, name := "A", kind := "class", symbol := none, parent := none,
        type := none, inheritedFrom := none, overwrites := none,
        extendedTypes := [.reference "B" none none], implementedTypes := [], decorators := [] },
      { id := 2, name := "B", kind := "variable", symbol := none, parent := none,
        type := none, inheritedFrom := none, overwrites := none,
        extendedTypes := [], implementedTypes := [], decorators := [] } ]

/-- The chain of a variable is built, but not reported. -/
theorem plainRun_extendsVariable :
    ∃ g, Graph.empty.adopt "mixed" extendsVariable = .ok g ∧
      (plainRun g 0).1.toOption.map (·.hierarchiesBuilt) = some 2 ∧
      ((plainRun g 0).2.coverage 0).hierarchies = 1 ∧
      (plainRun g 0).2.inheritedOthers 0 = [1] := by
  refine ⟨_, eq_ok_getD (by decide +kernel) .empty, ?_, ?_, ?_⟩
  all_goals decide +kernel

end Pipeline

end Lineage
