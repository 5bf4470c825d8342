import Lineage.Proofs.Acceptance

/-!
# Cycles of parents

Which declaration is named where the parents of a description run into a cycle: the first of the
list from which the walk along the parents does not end. The walk enters the cycle at some member of
it, which need not be the declaration that it came from.
-/

namespace Lineage

namespace Forest

open Relation

/--
The first declaration on the way from an id to its parent and on that lies on a cycle. A walk that
keeps what it has passed comes back to this one before all others.
-/
inductive Enters (all : List DeclarationEntry) : Int → Int → Prop
  | here {id : Int} : TransGen (ParentOf all) id id → Enters all id id
  | later {id parent member : Int} : ¬ TransGen (ParentOf all) id id → ParentOf all id parent →
    Enters all parent member → Enters all id member

namespace Enters

variable {all : List DeclarationEntry} {id member : Int}

theorem reaches (h : Enters all id member) : ReflTransGen (ParentOf all) id member := by
  induction h with
  | here => exact .refl
  | later _ hparent _ ih => exact ih.head hparent

theorem cycle (h : Enters all id member) : TransGen (ParentOf all) member member := by
  induction h with
  | here hcycle => exact hcycle
  | later _ _ _ ih => exact ih

/-- A declaration lies on a cycle exactly if this is where the walk from it enters one. -/
theorem cycle_iff (h : Enters all id member) : TransGen (ParentOf all) id id ↔ member = id := by
  constructor
  · intro hcycle
    cases h with
    | here => rfl
    | later hnot => exact absurd hcycle hnot
  · rintro rfl
    exact h.cycle

end Enters

theorem exists_enters_iff {all : List DeclarationEntry} {id : Int} :
    (∃ member, Enters all id member) ↔ Loops all id := by
  constructor
  · rintro ⟨member, h⟩
    exact ⟨member, h.reaches, h.cycle⟩
  · rintro ⟨member, hreach, hcycle⟩
    -- The last declaration of the way lies on a cycle, the others may do so or not.
    induction hreach using ReflTransGen.head_induction_on with
    | refl => exact ⟨member, .here hcycle⟩
    | @head id parent hparent _ ih =>
      by_cases hmember : TransGen (ParentOf all) id id
      · exact ⟨id, .here hmember⟩
      · obtain ⟨found, hfound⟩ := ih
        exact ⟨found, .later hmember hparent hfound⟩

/-- The declaration that is named for a cycle, in terms of where the walk from it enters one. -/
theorem firstDefect_parentCycle_iff {all : List DeclarationEntry} {name : String} {id : Int} :
    FirstDefect all (.parentCycle name id) ↔ EntriesFit all ∧ ParentsFit all all ∧
      ∃ before s after, all = before ++ s :: after ∧ s.name = name ∧ s.id = id ∧
        (∀ e ∈ before, ¬ Loops all e.id) ∧ ∃ member, Enters all id member := by
  constructor
  · intro h
    cases h with
    | entry _ _ h => cases h
    | parent _ _ _ h => cases h
    | cycle hentries hparents hall hbefore hloops =>
      exact ⟨hentries, hparents, _, _, _, hall, rfl, rfl, hbefore, exists_enters_iff.mpr hloops⟩
  · rintro ⟨hentries, hparents, before, s, after, hall, rfl, rfl, hbefore, henters⟩
    exact .cycle hentries hparents hall hbefore (exists_enters_iff.mp henters)

end Forest

namespace Graph

open Forest Relation

/--
A cycle of parents is reported once ids, kinds and parents fit, and under the first declaration of
the list from which a walk along the parents enters one, if its id can be written. This declaration
lies on a cycle itself exactly if the walk enters the cycle there and not at one of those above it.
-/
theorem adopt_parentCycle_iff (g₀ : Graph) (source : String) (spec : Description) (name : String)
    (id : Int) :
    g₀.adopt source spec = .error (.load source (.defect (.parentCycle name id))) ↔
      Text.Writable id ∧
      EntriesFit spec.declarations ∧ ParentsFit spec.declarations spec.declarations ∧
      ∃ before s after, spec.declarations = before ++ s :: after ∧ s.name = name ∧ s.id = id ∧
        (∀ e ∈ before, ¬ Loops spec.declarations e.id) ∧
        ∃ member, Enters spec.declarations id member ∧
          TransGen (ParentOf spec.declarations) member member ∧
          (TransGen (ParentOf spec.declarations) id id ↔ member = id) := by
  have hrefused : g₀.adopt source spec = .error (.load source (.defect (.parentCycle name id))) ↔
      Text.Writable id ∧ FirstDefect spec.declarations (.parentCycle name id) := by
    have hnumber : (Defect.parentCycle name id).Writable ↔ Text.Writable id := by
      simp [Defect.Writable, Defect.number?]
    rw [adopt_eq_defect_iff, hnumber]
  rw [hrefused, firstDefect_parentCycle_iff]
  refine and_congr_right fun _ => ?_
  constructor
  · rintro ⟨hentries, hparents, before, s, after, hall, hname, hid, hbefore, member, henters⟩
    exact ⟨hentries, hparents, before, s, after, hall, hname, hid, hbefore, member, henters,
      henters.cycle, henters.cycle_iff⟩
  · rintro ⟨hentries, hparents, before, s, after, hall, hname, hid, hbefore, member, henters, -⟩
    exact ⟨hentries, hparents, before, s, after, hall, hname, hid, hbefore, member, henters⟩

/-- Two namespaces, each the parent of the other, and before them a class inside the first one. -/
def Description.insideCycle : Description where
  name := "inside"
  declarations :=
    [ { id := 3, name := "Inner", kind := "class", symbol := none, parent := some 1,
        type := none, inheritedFrom := none, overwrites := none,
        extendedTypes := [], implementedTypes := [], decorators := [] },
      { id := 1, name := "a", kind := "namespace", symbol := none, parent := some 2,
        type := none, inheritedFrom := none, overwrites := none,
        extendedTypes := [], implementedTypes := [], decorators := [] },
      { id := 2, name := "b", kind := "namespace", symbol := none, parent := some 1,
        type := none, inheritedFrom := none, overwrites := none,
        extendedTypes := [], implementedTypes := [], decorators := [] } ]

/-- The class is named for the cycle, though nothing has it as its parent. -/
theorem adopt_insideCycle :
    Graph.empty.adopt "<memory>" Description.insideCycle =
        .error (.load "<memory>" (.defect (.parentCycle "Inner" 3))) ∧
      ¬ TransGen (ParentOf Description.insideCycle.declarations) 3 3 := by
  constructor
  · have hc : Forest.check Description.insideCycle.declarations =
        .error (.parentCycle "Inner" 3) := by decide +kernel
    rw [adopt_of_check_eq_error hc]
    exact congrArg Except.error (if_pos (by decide +kernel))
  · intro hcycle
    obtain ⟨last, -, s, hs, -, hparent⟩ := TransGen.tail'_iff.mp hcycle
    simp only [Description.insideCycle, List.mem_cons, List.not_mem_nil, or_false] at hs
    rcases hs with rfl | rfl | rfl <;> cases hparent

end Graph

end Lineage
