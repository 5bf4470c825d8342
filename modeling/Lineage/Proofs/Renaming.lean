import Lineage.Proofs.Loaded
import Lineage.Proofs.SameShape
import Mathlib.Data.List.Find

/-!
# Renaming

Two graphs hold the same project under different keys: a renaming carries the declarations of one
over to those of the other, with their scopes, their types and what their references lead to. The
links that references use may differ, and so may the order of the children of a scope.
-/

namespace Lineage

/-! ## Graphs -/

/-- A scope under another name; projects keep theirs. -/
def Scope.rename (π : DeclKey → DeclKey) : Scope → Scope
  | .declaration key => .declaration (π key)
  | .project p => .project p

/--
Two references of one name and symbol number are both unlinked, or lead to a declaration among
`keys` and to the one that it is renamed to.
-/
structure Reference.Follows (π : DeclKey → DeclKey) (keys : List DeclKey) (g g' : Graph)
    (r q : Reference) : Prop where
  name : q.name = r.name
  symbol : q.symbol = r.symbol
  target : (g.target? r = none ∧ g'.target? q = none) ∨ ∃ key ∈ keys,
    g.target? r = some (.declaration key) ∧ g'.target? q = some (.declaration (π key))

/--
Two graphs hold the same project, its declarations being renamed: the same declarations in the
order of their ids, with the same links, scopes and symbol numbers. Only the children of a scope
may come in another order.
-/
structure Graph.Renamed (π : DeclKey → DeclKey) (project : ProjectKey) (g g' : Graph) : Prop where
  injective : Function.Injective π
  size : g'.declarations.size = g.declarations.size
  name : (g'.project? project).map (·.name) = (g.project? project).map (·.name)
  declarationsOf : g'.declarationsOf project = (g.declarationsOf project).map π
  bySymbol? : ∀ symbol, g'.bySymbol? project symbol = (g.bySymbol? project symbol).map π
  declaration : ∀ key ∈ g.declarationsOf project, ∃ d e, g.declaration? key = some d ∧
    g'.declaration? (π key) = some e ∧
    d.Same (Reference.Follows π (g.declarationsOf project) g g') e
  parentOf? : ∀ key ∈ g.declarationsOf project,
    g'.parentOf? (.declaration (π key)) = (g.parentOf? (.declaration key)).map (.rename π)
  childrenOf : ∀ scope, scope.Within project (g.declarationsOf project) →
    (g'.childrenOf (scope.rename π)).Perm ((g.childrenOf scope).map π)

/-- No two declarations in one scope of a project have the same name. -/
def Graph.SiblingsApart (g : Graph) (project : ProjectKey) : Prop :=
  ∀ scope, scope.Within project (g.declarationsOf project) → ∀ key ∈ g.childrenOf scope,
    ∀ other ∈ g.childrenOf scope,
      g.scopeName? (.declaration key) = g.scopeName? (.declaration other) → key = other

/-! ## Lookup -/

namespace Graph.Renamed

variable {π : DeclKey → DeclKey} {project : ProjectKey} {g g' : Graph}
  (h : Renamed π project g g')
include h

theorem scopeName?_eq {key : DeclKey} (hkey : key ∈ g.declarationsOf project) :
    g'.scopeName? (.declaration (π key)) = g.scopeName? (.declaration key) := by
  obtain ⟨d, e, hd, he, hsame⟩ := h.declaration key hkey
  simp only [scopeName?, hd, he, Option.map_some, hsame.name]

theorem isClassLike_eq {key : DeclKey} (hkey : key ∈ g.declarationsOf project) :
    (g'.declaration? (π key)).any (·.isClassLike) =
      (g.declaration? key).any (·.isClassLike) := by
  obtain ⟨d, e, hd, he, hsame⟩ := h.declaration key hkey
  simp only [hd, he, Option.any_some, Declaration.isClassLike, hsame.kind]

theorem classesOf_eq : g'.classesOf project = (g.classesOf project).map π := by
  rw [classesOf, classesOf, byKind, byKind, h.declarationsOf, List.filter_map]
  congr 1
  exact List.filter_congr fun key hkey => h.isClassLike_eq hkey

end Graph.Renamed

namespace Graph.Renamed

variable {π : DeclKey → DeclKey} {project : ProjectKey} {g g' : Graph}
  (h : Renamed π project g g') (hencloses : g.Encloses project (g.declarationsOf project))
  (hapart : g.SiblingsApart project)
include h hencloses

theorem scopesWithin_eq {steps : Nat} {scope : Scope}
    (hscope : scope.Within project (g.declarationsOf project)) :
    g'.scopesWithin steps (scope.rename π) = (g.scopesWithin steps scope).map (.rename π) := by
  induction steps generalizing scope with
  | zero => rfl
  | succ steps ih =>
    rcases hscope with rfl | ⟨key, hkey, rfl⟩
    · rfl
    · have hparent := h.parentOf? key hkey
      rw [scopesWithin, scopesWithin, Scope.rename, hparent]
      cases hp : g.parentOf? (.declaration key) with
      | none => rfl
      | some parent =>
        exact congrArg (Scope.declaration (π key) :: ·) (ih (hencloses.parent key hkey parent hp))

theorem scopes_eq {scope : Scope} (hscope : scope.Within project (g.declarationsOf project)) :
    g'.scopes (scope.rename π) = (g.scopes scope).map (.rename π) := by
  rw [scopes, scopes, h.size, h.scopesWithin_eq hencloses hscope]

theorem fullName_eq {key : DeclKey} (hkey : key ∈ g.declarationsOf project) :
    g'.fullName (π key) = g.fullName key := by
  have hscope : Scope.Within project (g.declarationsOf project) (.declaration key) :=
    Or.inr ⟨key, hkey, rfl⟩
  have hscopes := h.scopes_eq hencloses hscope
  rw [Scope.rename] at hscopes
  rw [fullName, fullName, hscopes, List.filterMap_map]
  congr 2
  refine List.filterMap_congr fun scope hs => ?_
  rcases hencloses.within_of_mem_scopesWithin hscope hs with rfl | ⟨k, hk, rfl⟩
  · rfl
  · exact h.scopeName?_eq hk

include hapart

theorem firstNamed_eq (name : String) {scope : Scope}
    (hscope : scope.Within project (g.declarationsOf project)) :
    g'.firstNamed name (g'.childrenOf (scope.rename π)) =
      (g.firstNamed name (g.childrenOf scope)).map π := by
  have hname : ∀ key ∈ g.childrenOf scope,
      g'.scopeName? (.declaration (π key)) = g.scopeName? (.declaration key) :=
    fun key hkey => h.scopeName?_eq (hencloses.children scope hscope key hkey)
  have hone : {k ∈ (g.childrenOf scope).map π |
      decide (g'.scopeName? (.declaration k) = some name)}.Subsingleton := by
    rintro a ⟨ha, hpa⟩ b ⟨hb, hpb⟩
    obtain ⟨key, hkey, rfl⟩ := List.mem_map.mp ha
    obtain ⟨other, hother, rfl⟩ := List.mem_map.mp hb
    rw [decide_eq_true_iff, hname key hkey] at hpa
    rw [decide_eq_true_iff, hname other hother] at hpb
    rw [hapart scope hscope key hkey other hother (hpa.trans hpb.symm)]
  rw [firstNamed_eq_find?, firstNamed_eq_find?,
    ← List.find?_eq_find?_of_perm (h.childrenOf scope hscope).symm hone, List.find?_map]
  congr 1
  exact List.find?_congr fun key hkey => by rw [Function.comp_apply, hname key hkey]

theorem below?_eq {parts : List String} {scope : Scope}
    (hscope : scope.Within project (g.declarationsOf project)) :
    g'.below? (scope.rename π) parts = (g.below? scope parts).map π := by
  induction parts generalizing scope with
  | nil => rfl
  | cons name rest ih =>
    have hfirst := h.firstNamed_eq hencloses hapart name hscope
    cases rest with
    | nil => exact hfirst
    | cons next rest =>
      simp only [below?, hfirst]
      cases hchild : g.firstNamed name (g.childrenOf scope) with
      | none => rfl
      | some child =>
        have hmem := hencloses.children scope hscope child (List.mem_of_find?_eq_some hchild)
        exact ih (Or.inr ⟨child, hmem, rfl⟩)

/-- A dotted name leads to the same declaration, from wherever it is looked up. -/
theorem find?_eq (parts : List String) {scope : Scope}
    (hscope : scope.Within project (g.declarationsOf project)) :
    g'.find? (scope.rename π) parts = (g.find? scope parts).map π := by
  have hall : ∀ scopes : List Scope,
      (∀ s ∈ scopes, s.Within project (g.declarationsOf project)) →
      (scopes.map (Scope.rename π)).findSome? (fun s => g'.below? s parts) =
        (scopes.findSome? fun s => g.below? s parts).map π := fun scopes hscopes => by
    induction scopes with
    | nil => rfl
    | cons s scopes ih =>
      rw [List.forall_mem_cons] at hscopes
      rw [List.map_cons, List.findSome?_cons, List.findSome?_cons,
        h.below?_eq hencloses hapart hscopes.1]
      cases g.below? s parts with
      | none => exact ih hscopes.2
      | some key => rfl
  rw [find?, find?, h.scopes_eq hencloses hscope]
  exact hall _ fun s hs => hencloses.within_of_mem_scopesWithin hscope hs

/-- References of one name and symbol number name the same declaration. -/
theorem named?_eq {key : DeclKey} (hkey : key ∈ g.declarationsOf project) {r q : Reference}
    (hname : q.name = r.name) (hsymbol : q.symbol = r.symbol) :
    g'.named? project (.declaration (π key)) q =
      (g.named? project (.declaration key) r).map π := by
  have hfind := h.find?_eq hencloses hapart (dottedParts r.name) (Or.inr ⟨key, hkey, rfl⟩)
  rw [named?, named?, hsymbol, hname]
  split
  · exact hfind
  · split
    · rfl
    · exact h.bySymbol? r.symbol

end Graph.Renamed

end Lineage
