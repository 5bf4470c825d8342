import Lineage.Proofs.Runs

/-!
# Links

After a run every reference of a described project, however deep in a type it stands, leads to what
it named when the project was loaded. The run leaves all else as it was described.
-/

namespace Lineage

/-! ## Nested references -/

/-- A reference stands somewhere in a type. -/
inductive TypeExpr.Mentions (r : Reference) : TypeExpr → Prop
  | reference : Mentions r (.reference r)
  | head (arguments : List TypeExpr) : Mentions r (.applied r arguments)
  | argument {head : Reference} {arguments : List TypeExpr} {t : TypeExpr} :
    t ∈ arguments → Mentions r t → Mentions r (.applied head arguments)
  | element {elements : List TypeExpr} {t : TypeExpr} :
    t ∈ elements → Mentions r t → Mentions r (.tuple elements)
  | member {members : List TypeExpr} {t : TypeExpr} :
    t ∈ members → Mentions r t → Mentions r (.union members)

namespace TypeExpr

theorem mem_references_of_mentions {r : Reference} {t : TypeExpr} (h : Mentions r t) :
    r ∈ t.references := by
  induction h with
  | reference => simp [references]
  | head arguments => simp [references]
  | argument ht _ ih => exact List.mem_cons_of_mem _ (references_subset_referencesOf ht ih)
  | element ht _ ih => exact references_subset_referencesOf ht ih
  | member ht _ ih => exact references_subset_referencesOf ht ih

end TypeExpr

/-- A declaration was described with a type, or with an annotation of that type. -/
def Declaration.Holds (d : Declaration) (t : TypeExpr) : Prop :=
  d.type = some t ∨ d.inheritedFrom = some t ∨ d.overwrites = some t ∨
    t ∈ d.extendedTypes.getD [] ∨ t ∈ d.implementedTypes.getD [] ∨
    ∃ annotation ∈ d.decorators.getD [], annotation.type = some t

theorem Declaration.mem_references {d : Declaration} {t : TypeExpr} {r : Reference}
    (ht : d.Holds t) (hr : t.Mentions r) : r ∈ d.references := by
  have hmem : t ∈ d.types := by
    simp only [types, List.mem_append, Option.mem_toList, List.mem_filterMap]
    rcases ht with ht | ht | ht | ht | ht | ht
    · simp [ht]
    · simp [ht]
    · simp [ht]
    · simp [ht]
    · simp [ht]
    · exact Or.inr ht
  exact TypeExpr.references_subset_referencesOf hmem (TypeExpr.mem_references_of_mentions hr)

/-! ## What references mean -/

/--
What a reference of a declaration is meant to lead to in a described project: the declaration that
its name is found to name from there, nothing, or the last declaration with its symbol number.
-/
def Description.meant? (spec : Description) (g : Graph) (project : ProjectKey) (key : DeclKey)
    (r : Reference) : Option DeclKey :=
  if r.symbol = Reference.byName then g.find? (.declaration key) (dottedParts r.name)
  else if r.symbol = Reference.settled then none
  else (spec.lastCarrying? r.symbol).bind fun s => g.byId? project s.id

theorem Graph.Adopted.named?_eq_meant? {g₀ g : Graph} {spec : Description} (h : g₀.Adopted spec g)
    (key : DeclKey) (r : Reference) :
    g.named? g₀.projects.size (.declaration key) r = spec.meant? g g₀.projects.size key r := by
  simp only [Graph.named?, Description.meant?, h.bySymbol?_eq]

/-- A described project is linked as its references mean it, and is otherwise as it was loaded. -/
structure Description.Linked (spec : Description) (g : Graph) (project : ProjectKey) (g' : Graph) :
    Prop where
  /-- A described id leads to the declaration that was described with it. -/
  described : ∀ s ∈ spec.declarations, ∃ key d, g.byId? project s.id = some key ∧
    g.declaration? key = some d ∧ d.id = s.id ∧ d.name = s.name
  link : ∀ key ∈ g.declarationsOf project, ∀ d, g.declaration? key = some d → ∀ t, d.Holds t →
    ∀ r, t.Mentions r → g'.target? r = (spec.meant? g project key r).map .declaration
  projects : g'.projects = g.projects
  size : g'.declarations.size = g.declarations.size
  /-- Nothing but back edges and hierarchies is added to a declaration. -/
  declaration : ∀ key d, g.declaration? key = some d → ∃ extendedBy implementedBy hierarchy,
    g'.declaration? key = some { d with
      extendedBy := extendedBy, implementedBy := implementedBy, hierarchy := hierarchy }

namespace Pipeline

/--
A run over a described project links each reference to what it is meant to lead to, whichever
declarations were linked and left back edges before.
-/
theorem plainRun_links {g₀ g : Graph} {source : String} {spec : Description}
    (h : g₀.adopt source spec = .ok g) :
    ∃ tally g', plainRun g g₀.projects.size = (.ok tally, g') ∧
      spec.Linked g g₀.projects.size g' := by
  have hadopted := Graph.adopt_spec h
  obtain ⟨tally, g', hrun, hresolved⟩ := plainRun_spec hadopted.loaded
  refine ⟨tally, g', hrun, ?_, ?_, hresolved.alike.projects, hresolved.alike.size, ?_⟩
  · intro s hs
    obtain ⟨i, hi⟩ := List.getElem?_of_mem hs
    obtain ⟨d, hd, hid, hname, -⟩ := hadopted.declaration i s hi
    exact ⟨_, d, hadopted.byId?_eq hi, hd, hid, hname⟩
  · intro key hkey d hd t ht r hr
    have hmem : r ∈ g.referencesAt key := by
      rw [Graph.referencesAt, hd]
      exact Declaration.mem_references ht hr
    rw [hresolved.settled hadopted.loaded hkey r hmem, hadopted.named?_eq_meant?]
  · intro key d hd
    obtain ⟨d', hd', hbare⟩ := hresolved.alike.exists_declaration hd
    refine ⟨d'.extendedBy, d'.implementedBy, d'.hierarchy, hd'.trans (congrArg some ?_)⟩
    exact congrArg (fun e : Declaration => { e with
      extendedBy := d'.extendedBy, implementedBy := d'.implementedBy, hierarchy := d'.hierarchy })
      hbare

theorem plainRun_links_sample :
    ∃ g, Graph.empty.adopt "sample" Description.sample = .ok g ∧
      ∃ tally g', plainRun g 0 = (.ok tally, g') ∧ Description.sample.Linked g 0 g' := by
  obtain ⟨g, h⟩ := Graph.exists_adopt_sample
  have hlinks := plainRun_links h
  exact ⟨g, h, hlinks⟩

end Pipeline

end Lineage
