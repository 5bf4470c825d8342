import Lineage.Proofs.Delivery
import Lineage.Proofs.StoredChains

/-!
# Received back edges

What the deliveries of some declarations leave with each declaration of a loaded project, and the
form that a declaration has once it has been sorted and given its chain.
-/

namespace Lineage

/-! ## Resolved declarations -/

/-- A loaded declaration with what a run adds to it. -/
def Declaration.resolved (d : Declaration) (key : DeclKey) (implementers extenders : List Reference)
    (awaited : Bool) : Declaration :=
  let d := { d with
    extendedBy := nonempty? (extenders.map .reference)
    implementedBy := nonempty? ((implementers.mergeSort (ascending (·.name))).map .reference) }
  if awaited then { d with hierarchy := some (d.chain key) } else d

section Resolved

variable (d : Declaration) (key : DeclKey) (implementers extenders : List Reference)
variable (awaited : Bool)

@[simp] theorem Declaration.bare_resolved :
    (d.resolved key implementers extenders awaited).bare = d.bare := by
  cases awaited <;> rfl

@[simp] theorem Declaration.extendedBy_resolved :
    (d.resolved key implementers extenders awaited).extendedBy =
      nonempty? (extenders.map .reference) := by
  cases awaited <;> rfl

@[simp] theorem Declaration.implementedBy_resolved :
    (d.resolved key implementers extenders awaited).implementedBy =
      nonempty? ((implementers.mergeSort (ascending (·.name))).map .reference) := by
  cases awaited <;> rfl

end Resolved

/-- Sorting references as types is sorting them by their names. -/
theorem Declaration.map_sortByName_nonempty? (rs : List Reference) :
    (nonempty? (rs.map TypeExpr.reference)).map sortByName =
      nonempty? ((rs.mergeSort (ascending (·.name))).map .reference) := by
  have hnamed : AllNamed (rs.map TypeExpr.reference) := by
    intro t ht
    obtain ⟨r, -, rfl⟩ := List.mem_map.mp ht
    rfl
  have hsort : sortByName (rs.map TypeExpr.reference) =
      (rs.mergeSort (ascending (·.name))).map .reference := by
    rw [sortByName_eq_mergeSort hnamed]
    exact (List.map_mergeSort (f := TypeExpr.reference) (s := ascending nameKey)
      fun _ _ _ _ => rfl).symm
  rw [← hsort]
  cases rs with
  | nil => rfl
  | cons r rs =>
    cases hs : sortByName ((r :: rs).map TypeExpr.reference) with
    | nil =>
      have hlen := congrArg List.length hs
      rw [hsort, List.length_map, List.length_mergeSort] at hlen
      simp at hlen
    | cons t ts => exact congrArg some hs

/-- Sorting and building the chain again takes in what was gained since. -/
theorem Declaration.chained_gain_resolved (d : Declaration) (key : DeclKey)
    (implementers extenders newImplementers newExtenders : List Reference) (awaited : Bool) :
    ((d.resolved key implementers extenders awaited).gain newImplementers newExtenders).chained
        key =
      d.resolved key (implementers ++ newImplementers) (extenders ++ newExtenders) true := by
  have hextended : TypeExpr.grow (nonempty? (extenders.map .reference)) newExtenders =
      nonempty? ((extenders ++ newExtenders).map .reference) := by
    rw [← TypeExpr.grow_none, TypeExpr.grow_grow, TypeExpr.grow_none]
  have himplemented : (TypeExpr.grow (nonempty? ((implementers.mergeSort
        (ascending (·.name))).map .reference)) newImplementers).map sortByName =
      nonempty? (((implementers ++ newImplementers).mergeSort (ascending (·.name))).map
        .reference) := by
    rw [← TypeExpr.grow_none, TypeExpr.grow_grow, TypeExpr.grow_none, map_sortByName_nonempty?,
      mergeSort_ascending_append]
  cases awaited with
  | false =>
    simp only [chained, gain, resolved, hextended, himplemented, Bool.false_eq_true, if_false]
    rfl
  | true =>
    simp only [chained, gain, resolved, hextended, himplemented, if_true]
    rfl

theorem Declaration.gain_eq_resolved {d : Declaration} (hd : d.bare = d) (key : DeclKey)
    (extenders : List Reference) : d.gain [] extenders = d.resolved key [] extenders false := by
  rw [← hd]
  simp [gain, bare, TypeExpr.grow_none, resolved, nonempty?]

/-! ## References -/

/-- The references of a declaration are those it was described with and those of its extenders. -/
theorem Declaration.references_perm (d : Declaration) :
    d.references.Perm (d.bare.references ++ TypeExpr.referencesOf (d.extendedBy.getD [])) := by
  simp only [references, types, bare, TypeExpr.referencesOf_append, Option.getD_none,
    List.append_nil, List.append_assoc]
  refine List.Perm.append_left _ (List.Perm.append_left _ (List.Perm.append_left _
    (List.Perm.append_left _ ?_)))
  rw [← List.append_assoc (TypeExpr.referencesOf (d.implementedTypes.getD []))]
  exact List.perm_append_comm

theorem TypeExpr.referencesOf_map_reference (rs : List Reference) :
    referencesOf (rs.map .reference) = rs := by
  induction rs with
  | nil => rfl
  | cons r rs ih => simp [referencesOf, references, ih]

/-! ## Who receives what -/

namespace Graph

variable {g g' : Graph} {project : ProjectKey}

/-- The references that declarations, in order, leave with another one through some types. -/
def received (g : Graph) (project : ProjectKey) (types : Declaration → Option (List TypeExpr))
    (keys : List DeclKey) (target : DeclKey) : List Reference :=
  keys.flatMap fun key => g.edges project types key target

/-- Whether a declaration awaits a hierarchy once others are delivered. -/
def awaited (g : Graph) (project : ProjectKey) (keys : List DeclKey) (key : DeclKey) : Bool :=
  decide (key ∈ keys.flatMap (g.awaiting project))

theorem mem_namedBy {key target : DeclKey} {types : Option (List TypeExpr)} :
    target ∈ g.namedBy project key types ↔ ∃ t ∈ types.getD [], ∃ r, t.head? = some r ∧
      g.named? project (.declaration key) r = some target := by
  simp only [namedBy, List.mem_filterMap, Option.bind_eq_some_iff]

theorem mem_awaiting {key other : DeclKey} : other ∈ g.awaiting project key ↔
    ∃ d, g.declaration? key = some d ∧ d.isClassLike ∧ (other = key ∨
      other ∈ g.namedBy project key d.implementedTypes ∨
      other ∈ g.namedBy project key d.extendedTypes) := by
  unfold awaiting
  cases g.declaration? key with
  | none => simp
  | some d =>
    simp only [Option.map_some, Option.getD_some, Option.some.injEq, exists_eq_left',
      Declaration.awaiting]
    split
    · next hclass => simp [hclass]
    · next hclass => simp [hclass]

theorem mem_awaiting_of_mem_edges {types : Declaration → Option (List TypeExpr)}
    (htypes : types = Declaration.implementedTypes ∨ types = Declaration.extendedTypes)
    {key target : DeclKey} {r : Reference} (hr : r ∈ g.edges project types key target) :
    target ∈ g.awaiting project key := by
  obtain ⟨d, hd, hclass, -, hnamed⟩ := mem_edges hr
  rcases htypes with rfl | rfl
  · exact mem_awaiting.mpr ⟨d, hd, hclass, Or.inr (Or.inl hnamed)⟩
  · exact mem_awaiting.mpr ⟨d, hd, hclass, Or.inr (Or.inr hnamed)⟩

theorem received_eq_nil {types : Declaration → Option (List TypeExpr)}
    (htypes : types = Declaration.implementedTypes ∨ types = Declaration.extendedTypes)
    {keys : List DeclKey} {target : DeclKey} (h : ¬ g.awaited project keys target) :
    g.received project types keys target = [] := by
  apply List.flatMap_eq_nil_iff.mpr
  intro key hkey
  apply List.eq_nil_iff_forall_not_mem.mpr
  intro r hr
  apply h
  rw [awaited, decide_eq_true_iff]
  exact List.mem_flatMap.mpr ⟨key, hkey, mem_awaiting_of_mem_edges htypes hr⟩

theorem received_append (types : Declaration → Option (List TypeExpr)) (keys more : List DeclKey)
    (target : DeclKey) : g.received project types (keys ++ more) target =
      g.received project types keys target ++ g.received project types more target :=
  List.flatMap_append

theorem awaited_append (keys more : List DeclKey) (key : DeclKey) :
    g.awaited project (keys ++ more) key =
      (g.awaited project keys key || g.awaited project more key) := by
  simp only [awaited, List.flatMap_append, List.mem_append, Bool.decide_or]

namespace Loaded

theorem namedBy_subset (h : g.Loaded project) {key : DeclKey}
    (hkey : key ∈ g.declarationsOf project) {d : Declaration} (hd : g.declaration? key = some d)
    {types : Declaration → Option (List TypeExpr)} (hv : Declaration.Visited types) :
    g.namedBy project key (types d) ⊆ g.declarationsOf project := by
  intro target htarget
  obtain ⟨t, ht, r, hr, hnamed⟩ := mem_namedBy.mp htarget
  exact h.closed key hkey r (head_mem_referencesAt hd hv ht hr) target hnamed

theorem mem_of_mem_awaiting (h : g.Loaded project) {key other : DeclKey}
    (hkey : key ∈ g.declarationsOf project) (ho : other ∈ g.awaiting project key) :
    other ∈ g.declarationsOf project := by
  obtain ⟨d, hd, -, rfl | hmem | hmem⟩ := mem_awaiting.mp ho
  · exact hkey
  · exact h.namedBy_subset hkey hd Declaration.visited_implementedTypes hmem
  · exact h.namedBy_subset hkey hd Declaration.visited_extendedTypes hmem

end Loaded

theorem Grown.sortable (h : g.Grown project g') {key : DeclKey}
    (hkey : key ∈ g.declarationsOf project) : g'.Sortable key := by
  intro d hd ts hts t ht
  have hmem : t ∈ d.extendedBy.getD [] ++ d.implementedBy.getD [] := by
    rw [hts]
    exact List.mem_append_right _ ht
  obtain ⟨name, other, rfl⟩ := h.gained key hkey d hd t hmem
  rfl

end Graph

end Lineage
