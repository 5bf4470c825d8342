import Lineage.Proofs.Places
import Lineage.Proofs.Realization
import Lineage.Proofs.Runs
import Mathlib.Algebra.BigOperators.Group.List.Basic

/-!
# Accounting

The counters of a run, the report on a project and the list of its dangling references are made by
different walks over the same types. They agree, but for the back edges to extending types, which
the report counts as linked and the run does not count at all.
-/

namespace Lineage

namespace Graph

/-- The number of back edges to extending types that the declarations of a project hold. -/
def extenderCount (g : Graph) (project : ProjectKey) : Nat :=
  ((g.declarationsOf project).map fun key =>
    ((g.declaration? key).map fun d => (d.extendedBy.getD []).length).getD 0).sum

/-- What the counters of a run say agrees with the description, the report and the listing. -/
structure Accounted (spec : Description) (g : Graph) (project : ProjectKey) (t : Tally) : Prop where
  seen : t.referencesSeen = spec.referenceCount
  split : t.referencesSeen = t.referencesLinked + t.referencesDangling
  listed : t.referencesDangling = (g.danglingIn project).length
  dangling : t.referencesDangling = (g.coverage project).dangling
  /-- Besides what the run has linked, the report counts the back edges to extending types. -/
  linked : (g.coverage project).linked = t.referencesLinked + g.extenderCount project
  total : (g.coverage project).references = (g.coverage project).linked +
    (g.coverage project).dangling
  /-- Each unlinked site is listed once, by ascending id and then by place. -/
  listing : ∃ os : List Site,
    os.map (fun o => (o.key, o.reference)) = g.danglingIn project ∧
      (∀ o, o ∈ os ↔ g.Dangles project o) ∧ os.Pairwise g.Precedes

end Graph

/-! ## One declaration -/

namespace Resolved

variable {g g' : Graph} {project : ProjectKey} {keys : List DeclKey} {t : Tally}

theorem isLinked_eq (h : Resolved g project keys g' t) (hloaded : g.Loaded project) {key : DeclKey}
    (hkey : key ∈ g.declarationsOf project) {r : Reference} (hr : r ∈ g.referencesAt key) :
    g'.isLinked r = (g.named? project (.declaration key) r).isSome := by
  rw [Graph.isLinked, h.settled hloaded hkey r hr, Option.isSome_map]

theorem isLinked_of_mem_received {types : Declaration → Option (List TypeExpr)} {key : DeclKey}
    {r : Reference} (hr : r ∈ g.received project types keys key) : g'.isLinked r = true := by
  obtain ⟨other, -, hr⟩ := List.mem_flatMap.mp hr
  obtain ⟨d, -, -, rfl, -⟩ := Graph.mem_edges hr
  rfl

/-- A declaration holds the links it has been given, its extenders, and what names nothing. -/
theorem countP_references (h : Resolved g project keys g' t) (hloaded : g.Loaded project)
    {key : DeclKey} (hkey : key ∈ g.declarationsOf project) :
    ∃ d, g'.declaration? key = some d ∧
      d.references.countP g'.isLinked = ((g.referencesAt key).countP fun r =>
        (g.named? project (.declaration key) r).isSome) + (d.extendedBy.getD []).length ∧
      d.references.countP (fun r => !g'.isLinked r) = (g.referencesAt key).countP fun r =>
        (g.named? project (.declaration key) r).isNone := by
  obtain ⟨d, -, -, hd'⟩ := h.exists_resolved hloaded hkey
  have hperm := h.referencesAt_perm hloaded hkey
  rw [Graph.referencesAt, hd', Option.map_some, Option.getD_some] at hperm
  have hbound : ∀ r ∈ g.received project Declaration.extendedTypes keys key,
      g'.isLinked r = true := fun r => isLinked_of_mem_received
  refine ⟨_, hd', ?_, ?_⟩
  · rw [hperm.countP_eq, List.countP_append, Declaration.extendedBy_resolved, getD_nonempty?,
      List.length_map, List.countP_eq_length.mpr hbound]
    congr 1
    exact List.countP_congr fun r hr => by rw [h.isLinked_eq hloaded hkey hr]
  · have hnone : (g.received project Declaration.extendedTypes keys key).countP
        (fun r => !g'.isLinked r) = 0 :=
      List.countP_eq_zero.mpr fun r hr => by simp [hbound r hr]
    rw [hperm.countP_eq, List.countP_append, hnone, Nat.add_zero]
    exact List.countP_congr fun r hr => by rw [h.isLinked_eq hloaded hkey hr]; simp

/-! ## All declarations -/

/-- What is counted over the references of a project is the sum over its declarations. -/
theorem countP_referencesIn (g : Graph) (project : ProjectKey) (p : Reference → Bool) :
    ((g.referencesIn project).countP fun e => p e.2) = ((g.declarationsOf project).map fun key =>
      ((g.declaration? key).map fun d => d.references.countP p).getD 0).sum := by
  rw [Graph.referencesIn, List.countP_flatMap]
  congr 1
  refine List.map_congr_left fun key _ => ?_
  cases hd : g.declaration? key <;> simp [hd, List.countP_map, Function.comp_def]

theorem countP_mentions (g : Graph) (keys : List DeclKey) (p : DeclKey → Reference → Bool) :
    ((g.mentions keys).countP fun m => p m.1 m.2) =
      (keys.map fun key => (g.referencesAt key).countP (p key)).sum := by
  rw [Graph.mentions, List.countP_flatMap]
  congr 1
  refine List.map_congr_left fun key _ => ?_
  simp [List.countP_map, Function.comp_def]

/-- The report counts as linked what the run has linked and the extenders. -/
theorem coverage_linked (h : Resolved g project (g.declarationsOf project) g' t)
    (hloaded : g.Loaded project) :
    (g'.coverage project).linked = t.referencesLinked + g'.extenderCount project := by
  have hreport : (g'.coverage project).linked =
      (g'.referencesIn project).countP fun e => g'.isLinked e.2 := rfl
  rw [hreport, h.linked, Graph.extenderCount, countP_referencesIn g' project g'.isLinked,
    countP_mentions g _ fun key r => (g.named? project (.declaration key) r).isSome,
    h.alike.declarationsOf_eq, ← List.sum_map_add]
  congr 1
  refine List.map_congr_left fun key hkey => ?_
  obtain ⟨d, hd, hlinked, -⟩ := h.countP_references hloaded hkey
  rw [hd, Option.map_some, Option.getD_some, hlinked]
  rfl

theorem coverage_dangling (h : Resolved g project (g.declarationsOf project) g' t)
    (hloaded : g.Loaded project) : t.referencesDangling = (g'.coverage project).dangling := by
  have hreport : (g'.coverage project).dangling =
      (g'.referencesIn project).countP fun e => !g'.isLinked e.2 := rfl
  rw [hreport, h.dangling, countP_referencesIn g' project fun r => !g'.isLinked r,
    countP_mentions g _ fun key r => (g.named? project (.declaration key) r).isNone,
    h.alike.declarationsOf_eq]
  congr 1
  refine List.map_congr_left fun key hkey => ?_
  obtain ⟨d, hd, -, hdangling⟩ := h.countP_references hloaded hkey
  rw [hd, Option.map_some, Option.getD_some, hdangling]

theorem seen_eq_length (h : Resolved g project keys g' t) :
    t.referencesSeen = (g.mentions keys).length := by
  rw [h.seen, h.linked, h.dangling, List.length_eq_countP_add_countP
    (fun m : DeclKey × Reference => (g.named? project (.declaration m.1) m.2).isSome)]
  congr 1
  exact List.countP_congr fun m _ => by simp

end Resolved

theorem Graph.Adopted.length_mentions {g₀ g : Graph} {spec : Description}
    (h : g₀.Adopted spec g) :
    (g.mentions (g.declarationsOf g₀.projects.size)).length = spec.referenceCount := by
  have hlength := congrArg List.length h.references
  rw [List.length_map, List.length_map, List.length_range'] at hlength
  rw [← hlength, ← (h.declarationsOf_perm.flatMap_right g.referencesAt).length_eq, mentions]
  simp only [List.length_flatMap, List.length_map]

/-! ## Runs -/

namespace Pipeline

/-- After a run over a described project its accounts agree. -/
theorem plainRun_accounts {g₀ g : Graph} {source : String} {spec : Description}
    (h : g₀.adopt source spec = .ok g) :
    ∃ tally g', plainRun g g₀.projects.size = (.ok tally, g') ∧
      g'.Accounted spec g₀.projects.size tally := by
  have hadopted := Graph.adopt_spec h
  have hloaded := hadopted.loaded
  obtain ⟨tally, g', hrun, hresolved⟩ := plainRun_spec hloaded
  have hdangling := hresolved.coverage_dangling hloaded
  refine ⟨tally, g', hrun, ?_, hresolved.seen, ?_, hdangling, hresolved.coverage_linked hloaded,
    rfl, Graph.exists_dangling ?_⟩
  · rw [hresolved.seen_eq_length, hadopted.length_mentions]
  · rw [hdangling, Graph.danglingIn, ← List.countP_eq_length_filter]
    rfl
  · rw [hresolved.alike.declarationsOf_eq]
    exact hadopted.pairwise_idBelow.imp (Graph.IdBelow.alike hresolved.alike)

theorem plainRun_accounts_nested :
    ∃ g, Graph.empty.adopt "nested" Description.nested = .ok g ∧
      ∃ tally g', plainRun g 0 = (.ok tally, g') ∧ g'.Accounted Description.nested 0 tally := by
  obtain ⟨g, h⟩ := Graph.exists_adopt_nested
  have haccounts := plainRun_accounts h
  exact ⟨g, h, haccounts⟩

end Pipeline

end Lineage
