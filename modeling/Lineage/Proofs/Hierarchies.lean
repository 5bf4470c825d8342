import Lineage.Proofs.Runs
import Mathlib.Algebra.BigOperators.Group.List.Lemmas

/-!
# Hierarchies

After a run the classes and interfaces of a described project and all they inherit from have
chains. A chain holds the lists that its declaration has in the end, so that a class is found below
exactly those that are found above it.
-/

namespace Lineage

/-! ## Levels -/

namespace Hierarchy

def side (types : Option (List TypeExpr)) : List Level :=
  if (types.getD []).isEmpty then [] else [⟨false, types.getD []⟩]

def above (levels : List Level) : List TypeExpr :=
  (levels.takeWhile (!·.isTarget)).flatMap (·.types)

def below (levels : List Level) : List TypeExpr :=
  ((levels.dropWhile (!·.isTarget)).drop 1).flatMap (·.types)

theorem flatMap_side (types : Option (List TypeExpr)) :
    (side types).flatMap (·.types) = types.getD [] := by
  unfold side
  split
  · next h => simpa using h.symm
  · simp

theorem isTarget_of_mem_side {types : Option (List TypeExpr)} {level : Level}
    (h : level ∈ side types) : level.isTarget = false := by
  unfold side at h
  split at h
  · cases h
  · obtain rfl := List.mem_singleton.mp h
    rfl

theorem length_side_le (types : Option (List TypeExpr)) : (side types).length ≤ 1 := by
  unfold side
  split
  · exact Nat.zero_le 1
  · exact Nat.le_refl 1

/-- The chain of a declaration between its two sides. -/
def chainOf (upper : Option (List TypeExpr)) (self : Reference) (lower : Option (List TypeExpr)) :
    List Level :=
  side upper ++ ⟨true, [.reference self]⟩ :: side lower

variable (upper lower : Option (List TypeExpr)) (self : Reference)

theorem above_chainOf : above (chainOf upper self lower) = upper.getD [] := by
  unfold above chainOf
  rw [List.takeWhile_append_of_pos fun level hl => by simp [isTarget_of_mem_side hl]]
  simp [flatMap_side]

theorem below_chainOf : below (chainOf upper self lower) = lower.getD [] := by
  unfold below chainOf
  rw [List.dropWhile_append_of_pos fun level hl => by simp [isTarget_of_mem_side hl]]
  simp [flatMap_side]

theorem length_chainOf_le : (chainOf upper self lower).length ≤ 3 := by
  have hupper := length_side_le upper
  have hlower := length_side_le lower
  simp only [chainOf, List.length_append, List.length_cons]
  omega

theorem countP_isTarget_chainOf : (chainOf upper self lower).countP (·.isTarget) = 1 := by
  have hside : ∀ types, (side types).countP (·.isTarget) = 0 := fun types =>
    List.countP_eq_zero.mpr fun level hl => by simp [isTarget_of_mem_side hl]
  simp [chainOf, List.countP_append, hside]

end Hierarchy

namespace Declaration

/-- The chain that a declaration has at present reads its own lists. -/
theorem levelsOf_chain (d : Declaration) (key : DeclKey) :
    d.levelsOf (d.chain key) =
      Hierarchy.chainOf d.extendedTypes (.toDeclaration d.name key) d.extendedBy := by
  have hancestors : (d.chain key).ancestors =
      if (d.extendedTypes.getD []).isEmpty then none else some .current := rfl
  have hdescendants : (d.chain key).descendants =
      if (d.extendedBy.getD []).isEmpty then none else some .current := rfl
  rw [levelsOf, hancestors, hdescendants]
  unfold Hierarchy.chainOf Hierarchy.side
  split
  · split
    · rfl
    · rfl
  · split
    · rfl
    · rfl

theorem levels?_resolved {d : Declaration} (hd : d.hierarchy = none) (key : DeclKey)
    (implementers extenders : List Reference) (awaited : Bool) :
    (d.resolved key implementers extenders awaited).levels? =
      if awaited then some (Hierarchy.chainOf d.extendedTypes (.toDeclaration d.name key)
        (nonempty? (extenders.map .reference))) else none := by
  cases awaited with
  | false => simp [resolved, levels?, hd]
  | true =>
    simp only [resolved, levels?, if_true, Option.map_some]
    exact congrArg some (levelsOf_chain _ key)

theorem isSome_hierarchy_resolved {d : Declaration} (hd : d.hierarchy = none) (key : DeclKey)
    (implementers extenders : List Reference) (awaited : Bool) :
    (d.resolved key implementers extenders awaited).hierarchy.isSome = awaited := by
  cases awaited <;> simp [resolved, hd]

end Declaration

/-! ## Hierarchies of a project -/

namespace Graph

def levelsAt (g : Graph) (key : DeclKey) : List Hierarchy.Level :=
  ((g.declaration? key).bind (·.levels?)).getD []

/-- A class or interface implements or extends the declaration. -/
def Inherited (g : Graph) (project : ProjectKey) (key : DeclKey) : Prop :=
  ∃ source ∈ g.classesOf project, ∃ d, g.declaration? source = some d ∧
    (key ∈ g.targets d.implementedTypes ∨ key ∈ g.targets d.extendedTypes)

/-- Who has a chain, what it holds, and how chains fit together. -/
structure Ranked (g : Graph) (project : ProjectKey) : Prop where
  exists_iff : ∀ key ∈ g.declarationsOf project, ∃ d, g.declaration? key = some d ∧
    (d.hierarchy.isSome ↔ d.isClassLike ∨ g.Inherited project key)
  levels : ∀ key ∈ g.declarationsOf project, ∀ d, g.declaration? key = some d →
    ∀ levels, d.levels? = some levels →
      levels = Hierarchy.chainOf d.extendedTypes (.toDeclaration d.name key) d.extendedBy ∧
        levels.length ≤ 3 ∧ levels.countP (·.isTarget) = 1
  /-- A class is named below a declaration as often as it names it above. -/
  matched : ∀ key ∈ g.classesOf project, ∀ target ∈ g.declarationsOf project,
    (g.targets (some (Hierarchy.below (g.levelsAt target)))).count key =
      (g.targets (some (Hierarchy.above (g.levelsAt key)))).count target
  /-- Only who extends a declaration is found below it. -/
  extenders : ∀ target ∈ g.declarationsOf project,
    ∀ key ∈ g.targets (some (Hierarchy.below (g.levelsAt target))), key ∈ g.classesOf project ∧
      ∃ d, g.declaration? key = some d ∧ target ∈ g.targets d.extendedTypes

def hierarchyCount (g : Graph) (project : ProjectKey) : Nat :=
  (g.declarationsOf project).countP fun key => (g.declaration? key).any (·.hierarchy.isSome)

variable {g g' : Graph} {project : ProjectKey}

theorem mem_classesOf {key : DeclKey} : key ∈ g.classesOf project ↔
    key ∈ g.declarationsOf project ∧ ∃ d, g.declaration? key = some d ∧ d.isClassLike := by
  simp only [classesOf, byKind, List.mem_filter, Option.any_eq_true, Declaration.isClassLike]

/-! ## Who is named below whom -/

theorem targets_map_reference (g : Graph) (rs : List Reference) :
    g.targets (some (rs.map TypeExpr.reference)) = rs.filterMap (·.declaration? g.links) := by
  simp [targets, List.filterMap_map, TypeExpr.head?]

theorem targets_edges (g' : Graph) (types : Declaration → Option (List TypeExpr))
    (key target : DeclKey) :
    g'.targets (some ((g.edges project types key target).map TypeExpr.reference)) =
      (g.edges project types key target).map fun _ => key := by
  rw [targets_map_reference, ← List.filterMap_eq_map]
  apply List.filterMap_congr
  intro r hr
  obtain ⟨d, -, -, rfl, -⟩ := mem_edges hr
  rfl

theorem length_edges {key : DeclKey} {d : Declaration} (hd : g.declaration? key = some d)
    (hclass : d.isClassLike) (types : Declaration → Option (List TypeExpr)) (target : DeclKey) :
    (g.edges project types key target).length = (g.namedBy project key (types d)).count target := by
  rw [edges_of_declaration? hd, Declaration.edges, if_pos hclass, List.length_replicate]

theorem targets_received (g' : Graph) (types : Declaration → Option (List TypeExpr))
    (keys : List DeclKey) (target : DeclKey) :
    g'.targets (some ((g.received project types keys target).map TypeExpr.reference)) =
      keys.flatMap fun key => (g.edges project types key target).map fun _ => key := by
  induction keys with
  | nil => rfl
  | cons key keys ih =>
    rw [List.flatMap_cons, ← ih, ← targets_edges g', targets_map_reference, targets_map_reference,
      targets_map_reference, ← List.filterMap_append]
    rfl

/-- A class is found among those that left a reference as often as it names where it left it. -/
theorem count_targets_received {keys : List DeclKey} (hnodup : keys.Nodup) {key : DeclKey}
    (hkey : key ∈ keys) {d : Declaration} (hd : g.declaration? key = some d)
    (hclass : d.isClassLike) (types : Declaration → Option (List TypeExpr)) (target : DeclKey) :
    (g'.targets (some ((g.received project types keys target).map TypeExpr.reference))).count key =
      (g.namedBy project key (types d)).count target := by
  rw [targets_received, List.count_flatMap, ← length_edges hd hclass]
  refine (List.sum_map_eq_nsmul_single key _ fun other hne _ => ?_).trans ?_
  · simp [List.count_eq_zero, hne.symm]
  · simp [List.count_eq_one_of_mem hnodup hkey, List.map_const']

theorem mem_targets_received {types : Declaration → Option (List TypeExpr)} {keys : List DeclKey}
    {key target : DeclKey}
    (h : key ∈ g'.targets (some ((g.received project types keys target).map .reference))) :
    key ∈ keys ∧ ∃ d, g.declaration? key = some d ∧ d.isClassLike ∧
      target ∈ g.namedBy project key (types d) := by
  rw [targets_received] at h
  obtain ⟨source, hsource, hmem⟩ := List.mem_flatMap.mp h
  obtain ⟨r, hr, rfl⟩ := List.mem_map.mp hmem
  obtain ⟨d, hd, hclass, -, hnamed⟩ := mem_edges hr
  exact ⟨hsource, d, hd, hclass, hnamed⟩

end Graph

namespace Resolved

variable {g g' : Graph} {project : ProjectKey} {t : Tally} {keys : List DeclKey}

/-- Who awaits a hierarchy on behalf of a declaration, by the links of the resolved graph. -/
theorem mem_awaiting_iff (h : Resolved g project keys g' t) (hloaded : g.Loaded project)
    {source : DeclKey} (hsource : source ∈ g.declarationsOf project) {d : Declaration}
    (hd : g'.declaration? source = some d) {key : DeclKey} :
    key ∈ g.awaiting project source ↔ d.isClassLike ∧ (key = source ∨
      key ∈ g'.targets d.implementedTypes ∨ key ∈ g'.targets d.extendedTypes) := by
  obtain ⟨d₀, hd₀, hbare⟩ := h.alike.symm.exists_declaration hd
  rw [h.targets_eq hloaded hsource hd Declaration.visited_implementedTypes,
    h.targets_eq hloaded hsource hd Declaration.visited_extendedTypes, Graph.mem_awaiting, hd₀,
    ← Declaration.eq_of_bare_eq Declaration.isClassLike (fun _ => rfl) hbare,
    ← Declaration.eq_of_bare_eq Declaration.implementedTypes (fun _ => rfl) hbare,
    ← Declaration.eq_of_bare_eq Declaration.extendedTypes (fun _ => rfl) hbare]
  simp only [Option.some.injEq, exists_eq_left']

/-- A declaration awaits a hierarchy if it takes part in inheritance or is inherited from. -/
theorem awaited_iff (h : Resolved g project keys g' t) (hloaded : g.Loaded project)
    (hkeys : keys.Perm (g.declarationsOf project)) {key : DeclKey}
    (hkey : key ∈ g.declarationsOf project) {d : Declaration} (hd : g'.declaration? key = some d) :
    g.awaited project keys key ↔ d.isClassLike ∨ g'.Inherited project key := by
  rw [Graph.awaited, decide_eq_true_iff, List.mem_flatMap]
  constructor
  · rintro ⟨source, hsource, hawaiting⟩
    have hsource := hkeys.mem_iff.mp hsource
    obtain ⟨d₀, hd₀, -⟩ := Graph.mem_awaiting.mp hawaiting
    obtain ⟨e, he, -⟩ := h.alike.exists_declaration hd₀
    obtain ⟨hclass, rfl | hmem⟩ := (h.mem_awaiting_iff hloaded hsource he).mp hawaiting
    · obtain rfl := Option.some.inj (hd.symm.trans he)
      exact Or.inl hclass
    · refine Or.inr ⟨source, Graph.mem_classesOf.mpr ⟨?_, e, he, hclass⟩, e, he, hmem⟩
      rwa [h.alike.declarationsOf_eq]
  · rintro (hclass | ⟨source, hsource, e, he, hmem⟩)
    · exact ⟨key, hkeys.mem_iff.mpr hkey,
        (h.mem_awaiting_iff hloaded hkey hd).mpr ⟨hclass, Or.inl rfl⟩⟩
    · obtain ⟨hsource, e', he', hclass⟩ := Graph.mem_classesOf.mp hsource
      obtain rfl := Option.some.inj (he.symm.trans he')
      rw [h.alike.declarationsOf_eq] at hsource
      exact ⟨source, hkeys.mem_iff.mpr hsource,
        (h.mem_awaiting_iff hloaded hsource he).mpr ⟨hclass, Or.inr hmem⟩⟩

theorem levelsAt_eq (h : Resolved g project keys g' t) (hloaded : g.Loaded project) {key : DeclKey}
    (hkey : key ∈ g.declarationsOf project) {d : Declaration} (hd : g.declaration? key = some d) :
    g'.levelsAt key =
      if g.awaited project keys key then
        Hierarchy.chainOf d.extendedTypes (.toDeclaration d.name key)
          (nonempty? ((g.received project Declaration.extendedTypes keys key).map .reference))
      else [] := by
  obtain ⟨d', hd₀, hnone, hd'⟩ := h.exists_resolved hloaded hkey
  obtain rfl := Option.some.inj (hd.symm.trans hd₀)
  rw [Graph.levelsAt, hd', Option.bind_some, Declaration.levels?_resolved hnone]
  split <;> rfl

section Ranked

variable (h : Resolved g project (g.declarationsOf project) g' t) (hloaded : g.Loaded project)
include h hloaded

theorem exists_hierarchy_iff {key : DeclKey} (hkey : key ∈ g.declarationsOf project) :
    ∃ d, g'.declaration? key = some d ∧
      d.hierarchy.isSome = g.awaited project (g.declarationsOf project) key ∧
      (d.hierarchy.isSome ↔ d.isClassLike ∨ g'.Inherited project key) := by
  obtain ⟨d, -, hnone, hd'⟩ := h.exists_resolved hloaded hkey
  have hsome := Declaration.isSome_hierarchy_resolved hnone key
    (g.received project Declaration.implementedTypes (g.declarationsOf project) key)
    (g.received project Declaration.extendedTypes (g.declarationsOf project) key)
    (g.awaited project (g.declarationsOf project) key)
  refine ⟨_, hd', hsome, ?_⟩
  rw [hsome]
  exact h.awaited_iff hloaded (List.Perm.refl _) hkey hd'

/-- What stands above a class in its chain is what it extends. -/
theorem targets_above {key : DeclKey} (hkey : key ∈ g'.classesOf project) {d : Declaration}
    (hd : g.declaration? key = some d) :
    g'.targets (some (Hierarchy.above (g'.levelsAt key))) =
      g.namedBy project key d.extendedTypes := by
  obtain ⟨hmem, d', hd', hclass⟩ := Graph.mem_classesOf.mp hkey
  rw [h.alike.declarationsOf_eq] at hmem
  have hawaited := (h.awaited_iff hloaded (List.Perm.refl _) hmem hd').mpr (Or.inl hclass)
  rw [h.levelsAt_eq hloaded hmem hd, if_pos hawaited, Hierarchy.above_chainOf]
  exact (h.settled hloaded hmem).targets_eq hd Declaration.visited_extendedTypes

/-- What stands below a declaration in its chain is what extends it. -/
theorem targets_below {target : DeclKey} (htarget : target ∈ g.declarationsOf project) :
    g'.targets (some (Hierarchy.below (g'.levelsAt target))) =
      g'.targets (some ((g.received project Declaration.extendedTypes (g.declarationsOf project)
        target).map .reference)) := by
  obtain ⟨d, hd, -⟩ := hloaded.declaration target htarget
  rw [h.levelsAt_eq hloaded htarget hd]
  split
  · rw [Hierarchy.below_chainOf, getD_nonempty?]
  · next hnot =>
    rw [Graph.received_eq_nil (Or.inr rfl) hnot]
    rfl

theorem ranked : g'.Ranked project where
  exists_iff key hkey := by
    rw [h.alike.declarationsOf_eq] at hkey
    obtain ⟨d, hd, -, hiff⟩ := h.exists_hierarchy_iff hloaded hkey
    exact ⟨d, hd, hiff⟩
  levels key hkey d hd levels hlevels := by
    rw [h.alike.declarationsOf_eq] at hkey
    obtain ⟨d₀, -, hnone, hd'⟩ := h.exists_resolved hloaded hkey
    obtain rfl := Option.some.inj (hd.symm.trans hd')
    have hsame := Declaration.bare_resolved d₀ key
      (g.received project Declaration.implementedTypes (g.declarationsOf project) key)
      (g.received project Declaration.extendedTypes (g.declarationsOf project) key)
      (g.awaited project (g.declarationsOf project) key)
    rw [Declaration.levels?_resolved hnone] at hlevels
    split at hlevels
    · obtain rfl := Option.some.inj hlevels
      refine ⟨?_, Hierarchy.length_chainOf_le _ _ _, Hierarchy.countP_isTarget_chainOf _ _ _⟩
      rw [Declaration.extendedBy_resolved,
        Declaration.eq_of_bare_eq Declaration.extendedTypes (fun _ => rfl) hsame,
        Declaration.eq_of_bare_eq Declaration.name (fun _ => rfl) hsame]
    · cases hlevels
  matched key hkey target htarget := by
    rw [h.alike.declarationsOf_eq] at htarget
    obtain ⟨hmem, d', hd', hclass⟩ := Graph.mem_classesOf.mp hkey
    rw [h.alike.declarationsOf_eq] at hmem
    obtain ⟨d, hd, hbare⟩ := h.alike.symm.exists_declaration hd'
    rw [← Declaration.eq_of_bare_eq Declaration.isClassLike (fun _ => rfl) hbare] at hclass
    rw [h.targets_below hloaded htarget, h.targets_above hloaded hkey hd]
    exact Graph.count_targets_received hloaded.nodup hmem hd hclass _ target
  extenders target htarget key hkey := by
    rw [h.alike.declarationsOf_eq] at htarget
    rw [h.targets_below hloaded htarget] at hkey
    obtain ⟨hmem, d, hd, hclass, hnamed⟩ := Graph.mem_targets_received hkey
    obtain ⟨d', hd', hbare⟩ := h.alike.exists_declaration hd
    rw [← Declaration.eq_of_bare_eq Declaration.isClassLike (fun _ => rfl) hbare] at hclass
    rw [← Declaration.eq_of_bare_eq Declaration.extendedTypes (fun _ => rfl) hbare,
      ← h.targets_eq hloaded hmem hd' Declaration.visited_extendedTypes] at hnamed
    refine ⟨Graph.mem_classesOf.mpr ⟨?_, d', hd', hclass⟩, d', hd', hnamed⟩
    rwa [h.alike.declarationsOf_eq]

theorem hierarchiesBuilt_eq : t.hierarchiesBuilt = g'.hierarchyCount project := by
  rw [h.built, Graph.hierarchyCount, h.alike.declarationsOf_eq]
  apply List.countP_congr
  intro key hkey
  obtain ⟨d, hd, hsome, -⟩ := h.exists_hierarchy_iff hloaded hkey
  rw [hd, Option.any_some, hsome]

end Ranked

end Resolved

namespace Pipeline

/--
A run over a described project gives a chain to each class and interface and to whatever one of them
implements or extends, and to no one else. Chains hold the lists of the end of the run.
-/
theorem plainRun_hierarchies {g₀ g : Graph} {source : String} {spec : Description}
    (h : g₀.adopt source spec = .ok g) :
    ∃ tally g', plainRun g g₀.projects.size = (.ok tally, g') ∧ g'.Ranked g₀.projects.size ∧
      tally.hierarchiesBuilt = g'.hierarchyCount g₀.projects.size := by
  have hloaded := (Graph.adopt_spec h).loaded
  obtain ⟨tally, g', hrun, hresolved⟩ := plainRun_spec hloaded
  exact ⟨tally, g', hrun, hresolved.ranked hloaded, hresolved.hierarchiesBuilt_eq hloaded⟩

theorem plainRun_hierarchies_sample :
    ∃ g, Graph.empty.adopt "sample" Description.sample = .ok g ∧
      ∃ tally g', plainRun g 0 = (.ok tally, g') ∧ g'.Ranked 0 ∧
        tally.hierarchiesBuilt = g'.hierarchyCount 0 := by
  obtain ⟨g, h⟩ := Graph.exists_adopt_sample
  have hhierarchies := plainRun_hierarchies h
  exact ⟨g, h, hhierarchies⟩

end Pipeline

end Lineage
