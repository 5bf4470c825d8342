import Lineage.Linking
import Mathlib.Logic.Function.Iterate

/-!
# What a run leaves alone

A run adds links, back edges and hierarchies. Graphs that differ in nothing else are alike: every
name is looked up in them with the same result.
-/

namespace Lineage

/-- A declaration without what a run adds to it. -/
def Declaration.bare (d : Declaration) : Declaration :=
  { d with extendedBy := none, implementedBy := none, hierarchy := none }

theorem Declaration.bare_eq_self {d : Declaration} (hextended : d.extendedBy = none)
    (himplemented : d.implementedBy = none) (hhierarchy : d.hierarchy = none) : d.bare = d := by
  cases d with
  | mk id name kind parent children =>
    simp only at hextended himplemented hhierarchy
    subst hextended himplemented hhierarchy
    rfl

/-- What does not depend on additions is the same for declarations that differ in them alone. -/
theorem Declaration.eq_of_bare_eq {α : Type*} (f : Declaration → α) (hf : ∀ d, f d.bare = f d)
    {d d' : Declaration} (h : d'.bare = d.bare) : f d' = f d := by
  rw [← hf d', h, hf d]

namespace Graph

/-! ## Tables -/

theorem declaration?_modify (g : Graph) (key other : DeclKey) (f : Declaration → Declaration) :
    (g.modify key f).declaration? other =
      if key = other then (g.declaration? other).map f else g.declaration? other := by
  simp only [modify, declaration?, Array.getElem?_modify]

@[simp] theorem declaration?_modify_self (g : Graph) (key : DeclKey)
    (f : Declaration → Declaration) :
    (g.modify key f).declaration? key = (g.declaration? key).map f := by
  rw [declaration?_modify, if_pos rfl]

theorem declaration?_modify_of_ne (g : Graph) {key other : DeclKey} (h : key ≠ other)
    (f : Declaration → Declaration) :
    (g.modify key f).declaration? other = g.declaration? other := by
  rw [declaration?_modify, if_neg h]

@[simp] theorem size_declarations_modify (g : Graph) (key : DeclKey)
    (f : Declaration → Declaration) :
    (g.modify key f).declarations.size = g.declarations.size := by
  simp [modify]

/-- Changing declarations one after the other changes each as often as its key occurs. -/
theorem declaration?_foldl_modify (f : Declaration → Declaration) (keys : List DeclKey) (g : Graph)
    (key : DeclKey) :
    (keys.foldl (fun g k => g.modify k f) g).declaration? key =
      (g.declaration? key).map f^[keys.count key] := by
  induction keys generalizing g with
  | nil => simp
  | cons k keys ih =>
    rw [List.foldl_cons, ih]
    by_cases h : k = key
    · subst h
      rw [declaration?_modify_self, List.count_cons_self, Function.iterate_succ, Option.map_map]
    · rw [declaration?_modify_of_ne g h, List.count_cons_of_ne (fun e => h e)]

/-! ## Graphs that are alike -/

/-- Graphs that differ at most in links and in what a run adds to declarations. -/
structure Alike (g g' : Graph) : Prop where
  size : g'.declarations.size = g.declarations.size
  projects : g'.projects = g.projects
  bare : ∀ key,
    (g'.declaration? key).map Declaration.bare = (g.declaration? key).map Declaration.bare

namespace Alike

variable {g g' g'' : Graph}

theorem refl (g : Graph) : Alike g g :=
  ⟨rfl, rfl, fun _ => rfl⟩

theorem symm (h : Alike g g') : Alike g' g :=
  ⟨h.size.symm, h.projects.symm, fun key => (h.bare key).symm⟩

theorem trans (h : Alike g g') (h' : Alike g' g'') : Alike g g'' :=
  ⟨h'.size.trans h.size, h'.projects.trans h.projects, fun key => (h'.bare key).trans (h.bare key)⟩

theorem setLinks (g : Graph) (links : Links) : Alike g { g with links := links } :=
  ⟨rfl, rfl, fun _ => rfl⟩

/-- Changing what a run adds keeps a graph as it is otherwise. -/
theorem modify (g : Graph) (key : DeclKey) {f : Declaration → Declaration}
    (hf : ∀ d, g.declaration? key = some d → (f d).bare = d.bare) : Alike g (g.modify key f) := by
  refine ⟨by simp, rfl, fun other => ?_⟩
  rw [declaration?_modify]
  split
  · next h =>
    subst h
    cases hd : g.declaration? key with
    | none => rfl
    | some d => exact congrArg some (hf d hd)
  · rfl

/-- What does not depend on additions is the same in both graphs. -/
theorem map_eq {α : Type*} (h : Alike g g') (f : Declaration → α) (hf : ∀ d, f d.bare = f d)
    (key : DeclKey) : (g'.declaration? key).map f = (g.declaration? key).map f := by
  have hb := congrArg (Option.map f) (h.bare key)
  simpa only [Option.map_map, Function.comp_def, hf] using hb

theorem exists_declaration (h : Alike g g') {key : DeclKey} {d : Declaration}
    (hd : g.declaration? key = some d) :
    ∃ d', g'.declaration? key = some d' ∧ d'.bare = d.bare := by
  have hb := h.bare key
  rw [hd, Option.map_some] at hb
  obtain ⟨d', hd', he⟩ := Option.map_eq_some_iff.mp hb
  exact ⟨d', hd', he⟩

/-! ## Lookup -/

theorem childrenOf_eq (h : Alike g g') (scope : Scope) :
    g'.childrenOf scope = g.childrenOf scope := by
  cases scope with
  | declaration key =>
    exact congrArg (Option.getD · []) (h.map_eq Declaration.children (fun _ => rfl) key)
  | project key => simp only [childrenOf, project?, h.projects]

theorem firstNamed_eq (h : Alike g g') (name : String) (keys : List DeclKey) :
    g'.firstNamed name keys = g.firstNamed name keys := by
  unfold firstNamed
  congr 1
  funext key
  have hn := congrArg (Option.any (· == name)) (h.map_eq Declaration.name (fun _ => rfl) key)
  simpa only [Option.any_map] using hn

theorem below?_eq (h : Alike g g') (scope : Scope) (parts : List String) :
    g'.below? scope parts = g.below? scope parts := by
  induction parts generalizing scope with
  | nil => rfl
  | cons name rest ih =>
    cases rest with
    | nil => simp only [below?, h.firstNamed_eq, h.childrenOf_eq]
    | cons next rest => simp only [below?, h.firstNamed_eq, h.childrenOf_eq, ih]

theorem parentOf?_eq (h : Alike g g') (scope : Scope) : g'.parentOf? scope = g.parentOf? scope := by
  cases scope with
  | declaration key =>
    have hp := congrArg Option.join (h.map_eq Declaration.parent (fun _ => rfl) key)
    simpa only [parentOf?, ← Option.bind_id_eq_join, Option.bind_map, Function.id_comp] using hp
  | project key => rfl

theorem scopesWithin_eq (h : Alike g g') (steps : Nat) (scope : Scope) :
    g'.scopesWithin steps scope = g.scopesWithin steps scope := by
  induction steps generalizing scope with
  | zero => rfl
  | succ steps ih =>
    simp only [scopesWithin, h.parentOf?_eq]
    congr 3
    funext s
    exact ih s

theorem scopes_eq (h : Alike g g') (scope : Scope) : g'.scopes scope = g.scopes scope := by
  simp only [scopes, h.size, h.scopesWithin_eq]

theorem find?_eq (h : Alike g g') (scope : Scope) (parts : List String) :
    g'.find? scope parts = g.find? scope parts := by
  simp only [find?, h.scopes_eq, h.below?_eq]

theorem project?_eq (h : Alike g g') (project : ProjectKey) :
    g'.project? project = g.project? project := by
  simp only [project?, h.projects]

theorem bySymbol?_eq (h : Alike g g') (project : ProjectKey) (symbol : Int) :
    g'.bySymbol? project symbol = g.bySymbol? project symbol := by
  simp only [bySymbol?, h.project?_eq]

theorem declarationsOf_eq (h : Alike g g') (project : ProjectKey) :
    g'.declarationsOf project = g.declarationsOf project := by
  simp only [declarationsOf, h.project?_eq]

theorem classesOf_eq (h : Alike g g') (project : ProjectKey) :
    g'.classesOf project = g.classesOf project := by
  simp only [classesOf, byKind, h.declarationsOf_eq]
  congr 1
  funext key
  have hk := congrArg (Option.any (Kind.meets · .classOrInterface))
    (h.map_eq Declaration.kind (fun _ => rfl) key)
  simpa only [Option.any_map] using hk

theorem named?_eq (h : Alike g g') (project : ProjectKey) (origin : Scope) (r : Reference) :
    g'.named? project origin r = g.named? project origin r := by
  simp only [named?, h.find?_eq, h.bySymbol?_eq]

end Alike

end Graph

end Lineage
