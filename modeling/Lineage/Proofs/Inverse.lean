import Lineage.Proofs.Runs
import Mathlib.Algebra.BigOperators.Group.List.Lemmas

/-!
# Back edges as inverse

After a run the back edges of a described project are the inverse of its links: what a declaration
holds is said by the links of the classes and interfaces alone.
-/

namespace Lineage

namespace Graph

/-! ## The inverse of the links -/

/--
References to the classes and interfaces of a project, in order, one for each type at the top of
the given list that is linked to a declaration.
-/
def incoming (g : Graph) (project : ProjectKey) (types : Declaration → Option (List TypeExpr))
    (target : DeclKey) : List Reference :=
  (g.classesOf project).flatMap fun key => ((g.declaration? key).map fun d =>
    List.replicate ((g.targets (types d)).count target) (.toDeclaration d.name key)).getD []

def backEdgeCount (g : Graph) (project : ProjectKey) : Nat :=
  ((g.declarationsOf project).map fun key => ((g.declaration? key).map fun d =>
    (d.extendedBy.getD []).length + (d.implementedBy.getD []).length).getD 0).sum

/-- The back edges of a project are the inverse of its links. -/
structure Inverted (g : Graph) (project : ProjectKey) : Prop where
  /-- Classes and interfaces come in ascending order of their ids. -/
  ids : (g.classesOf project).Pairwise g.IdBelow
  extendedBy : ∀ key ∈ g.declarationsOf project, ∃ d, g.declaration? key = some d ∧
    d.extendedBy = nonempty? ((g.incoming project Declaration.extendedTypes key).map .reference)
  /-- Implementers are sorted by name, those of one name in the order of their ids. -/
  implementedBy : ∀ key ∈ g.declarationsOf project, ∃ d, g.declaration? key = some d ∧
    d.implementedBy = nonempty? (((g.incoming project Declaration.implementedTypes key).mergeSort
      (ascending (·.name))).map .reference)

/-! ## Counting -/

/-- The entries of a list are spread over those they are equal to. -/
private theorem sum_map_count {xs keys : List DeclKey} (hkeys : keys.Nodup) (hsub : xs ⊆ keys) :
    (keys.map fun key => xs.count key).sum = xs.length := by
  induction xs with
  | nil => simp
  | cons x xs ih =>
    have hx : keys.count x = 1 := List.count_eq_one_of_mem hkeys (hsub List.mem_cons_self)
    have hone : (keys.map fun key => if x = key then 1 else 0).sum = 1 := by
      refine (List.sum_map_eq_nsmul_single x _ fun key hne _ => if_neg hne.symm).trans ?_
      simp [hx]
    simp only [List.count_cons, List.length_cons, List.sum_map_add, beq_iff_eq, hone,
      ih fun y hy => hsub (List.mem_cons_of_mem _ hy)]

variable {g g' : Graph} {project : ProjectKey}

/-- Every back edge that a declaration leaves is received somewhere in the project. -/
theorem Loaded.sum_length_edges (h : g.Loaded project) {key : DeclKey}
    (hkey : key ∈ g.declarationsOf project) :
    ((g.declarationsOf project).map fun target =>
      (g.edges project Declaration.extendedTypes key target).length +
        (g.edges project Declaration.implementedTypes key target).length).sum =
      g.edgeCount project key := by
  obtain ⟨d, hd, -⟩ := h.declaration key hkey
  simp only [edges_of_declaration? hd, edgeCount, hd, Option.map_some, Option.getD_some,
    Declaration.edges, Declaration.edgeCount]
  split
  · simp only [List.length_replicate, List.sum_map_add]
    rw [sum_map_count h.nodup (h.namedBy_subset hkey hd Declaration.visited_extendedTypes),
      sum_map_count h.nodup (h.namedBy_subset hkey hd Declaration.visited_implementedTypes),
      Nat.add_comm]
  · simp

theorem Loaded.sum_length_received (h : g.Loaded project) {keys : List DeclKey}
    (hkeys : keys ⊆ g.declarationsOf project) :
    ((g.declarationsOf project).map fun target =>
      (g.received project Declaration.extendedTypes keys target).length +
        (g.received project Declaration.implementedTypes keys target).length).sum =
      (keys.map (g.edgeCount project)).sum := by
  induction keys with
  | nil => simp [received]
  | cons key keys ih =>
    have hkey := hkeys List.mem_cons_self
    have hrest := ih fun k hk => hkeys (List.mem_cons_of_mem _ hk)
    rw [List.map_cons, List.sum_cons, ← hrest, ← h.sum_length_edges hkey, ← List.sum_map_add]
    congr 2
    funext target
    simp only [received, List.flatMap_cons, List.length_append]
    omega

end Graph

namespace Resolved

variable {g g' : Graph} {project : ProjectKey} {t : Tally}

/-- What declarations have received is what the links of a resolved graph lead to them. -/
theorem incoming_eq {keys : List DeclKey} (h : Resolved g project keys g' t)
    (hloaded : g.Loaded project) {types : Declaration → Option (List TypeExpr)}
    (hv : Declaration.Visited types) (target : DeclKey) :
    g'.incoming project types target =
      g.received project types (g.declarationsOf project) target := by
  have hfilter : ∀ keys ⊆ g.declarationsOf project,
      ((keys.filter fun key => (g.declaration? key).any (·.isClassLike)).flatMap fun key =>
        ((g'.declaration? key).map fun d =>
          List.replicate ((g'.targets (types d)).count target)
            (Reference.toDeclaration d.name key)).getD []) =
      keys.flatMap fun key => g.edges project types key target := by
    intro keys hkeys
    induction keys with
    | nil => rfl
    | cons key keys ih =>
      have hkey := hkeys List.mem_cons_self
      have hrest := ih fun k hk => hkeys (List.mem_cons_of_mem _ hk)
      obtain ⟨d, hd, -⟩ := hloaded.declaration key hkey
      obtain ⟨d', hd', he⟩ := h.alike.exists_declaration hd
      rw [List.flatMap_cons, Graph.edges_of_declaration? hd, Declaration.edges, ← hrest]
      by_cases hclass : d.isClassLike
      · rw [List.filter_cons_of_pos (by simpa [hd] using hclass), List.flatMap_cons, hd',
          if_pos hclass, ← Declaration.eq_of_bare_eq types hv.bare he,
          ← Declaration.eq_of_bare_eq Declaration.name (fun _ => rfl) he,
          ← h.targets_eq hloaded hkey hd' hv]
        rfl
      · rw [List.filter_cons_of_neg (by simpa [hd] using hclass), if_neg hclass, List.nil_append]
  rw [Graph.incoming, h.alike.classesOf_eq]
  exact hfilter _ (List.Subset.refl _)

/-- A run over all declarations in order leaves the inverse of the links. -/
theorem inverted (h : Resolved g project (g.declarationsOf project) g' t)
    (hloaded : g.Loaded project) (hids : (g.declarationsOf project).Pairwise g.IdBelow) :
    g'.Inverted project where
  ids := by
    rw [h.alike.classesOf_eq]
    exact (hids.imp (Graph.IdBelow.alike h.alike)).sublist List.filter_sublist
  extendedBy key hkey := by
    rw [h.alike.declarationsOf_eq] at hkey
    obtain ⟨d, -, -, hd'⟩ := h.exists_resolved hloaded hkey
    refine ⟨_, hd', ?_⟩
    rw [Declaration.extendedBy_resolved,
      h.incoming_eq hloaded Declaration.visited_extendedTypes]
  implementedBy key hkey := by
    rw [h.alike.declarationsOf_eq] at hkey
    obtain ⟨d, -, -, hd'⟩ := h.exists_resolved hloaded hkey
    refine ⟨_, hd', ?_⟩
    rw [Declaration.implementedBy_resolved,
      h.incoming_eq hloaded Declaration.visited_implementedTypes]

theorem backEdgesAdded_eq (h : Resolved g project (g.declarationsOf project) g' t)
    (hloaded : g.Loaded project) : t.backEdgesAdded = g'.backEdgeCount project := by
  rw [h.edges, ← hloaded.sum_length_received (List.Subset.refl _), Graph.backEdgeCount,
    h.alike.declarationsOf_eq]
  congr 1
  apply List.map_congr_left
  intro key hkey
  obtain ⟨d, -, -, hd'⟩ := h.exists_resolved hloaded hkey
  simp only [hd', Option.map_some, Option.getD_some, Declaration.extendedBy_resolved,
    Declaration.implementedBy_resolved, getD_nonempty?, List.length_map, List.length_mergeSort]

end Resolved

namespace Pipeline

/--
A run over a described project leaves one back edge for each type at the top of a class or interface
that is linked to a declaration, and counts them.
-/
theorem plainRun_backEdges {g₀ g : Graph} {source : String} {spec : Description}
    (h : g₀.adopt source spec = .ok g) :
    ∃ tally g', plainRun g g₀.projects.size = (.ok tally, g') ∧ g'.Inverted g₀.projects.size ∧
      tally.backEdgesAdded = g'.backEdgeCount g₀.projects.size := by
  have hadopted := Graph.adopt_spec h
  have hloaded := hadopted.loaded
  obtain ⟨tally, g', hrun, hresolved⟩ := plainRun_spec hloaded
  exact ⟨tally, g', hrun, hresolved.inverted hloaded hadopted.pairwise_idBelow,
    hresolved.backEdgesAdded_eq hloaded⟩

theorem plainRun_backEdges_sample :
    ∃ g, Graph.empty.adopt "sample" Description.sample = .ok g ∧
      ∃ tally g', plainRun g 0 = (.ok tally, g') ∧ g'.Inverted 0 ∧
        tally.backEdgesAdded = g'.backEdgeCount 0 := by
  obtain ⟨g, h⟩ := Graph.exists_adopt_sample
  have hedges := plainRun_backEdges h
  exact ⟨g, h, hedges⟩

end Pipeline

end Lineage
