import Lineage.Proofs.Enlargement
import Lineage.Proofs.Realization
import Lineage.Proofs.Runs

/-!
# Runs over enlarged descriptions

A run over a project with newcomers does to those that were there before what a run without them
does. They keep their links, gain links to newcomers only, and have their back edges in the same
order, among those from newcomers.
-/

namespace Lineage

/-! ## Back edges -/

/-- A reference leads to one of the given declarations from the start. -/
def Reference.LeadsInto (keys : List DeclKey) (r : Reference) : Prop :=
  ∃ key ∈ keys, r.anchor = .bound (.declaration key)

instance (keys : List DeclKey) (r : Reference) : Decidable (r.LeadsInto keys) :=
  inferInstanceAs (Decidable (∃ key ∈ keys, r.anchor = .bound (.declaration key)))

theorem flatMap_ite_nil {α β : Type} (p : α → Prop) [DecidablePred p] (f : α → List β)
    (xs : List α) :
    (xs.flatMap fun a => if p a then f a else []) = (xs.filter fun a => p a).flatMap f := by
  induction xs with
  | nil => rfl
  | cons x xs ih =>
    rw [List.flatMap_cons, ih]
    by_cases hx : p x
    · simp [hx]
    · simp [hx]

namespace Graph.Enlarged

variable {project : ProjectKey} {g g' : Graph} (h : Enlarged project g g')
  (hloaded : g.Loaded project) (hencloses : g.Encloses project (g.declarationsOf project))
include h hencloses

theorem namedBy_eq {key : DeclKey} (hkey : key ∈ g.declarationsOf project)
    (types : Option (List TypeExpr)) : g.namedBy project key types =
      (g'.namedBy project key types).filter (· ∈ g.declarationsOf project) := by
  rw [namedBy, namedBy, List.filter_filterMap]
  refine List.filterMap_congr fun t _ => ?_
  cases t.head? with
  | none => rfl
  | some r => exact h.named?_eq hencloses hkey r

include hloaded

/-- Declarations that were there before leave the same with each other. -/
theorem edges_eq {key target : DeclKey} (hkey : key ∈ g.declarationsOf project)
    (htarget : target ∈ g.declarationsOf project)
    (types : Declaration → Option (List TypeExpr)) :
    g'.edges project types key target = g.edges project types key target := by
  obtain ⟨d, hd, -⟩ := hloaded.declaration key hkey
  have hcount : (g.namedBy project key (types d)).count target =
      (g'.namedBy project key (types d)).count target := by
    rw [h.namedBy_eq hencloses hkey]
    exact List.count_filter (by simpa using htarget)
  rw [edges_of_declaration? hd, edges_of_declaration? ((h.declaration key hkey).trans hd),
    Declaration.edges, Declaration.edges, hcount]

/-- What a declaration receives is what it received before, among what newcomers leave. -/
theorem received_eq {target : DeclKey} (htarget : target ∈ g.declarationsOf project)
    (types : Declaration → Option (List TypeExpr)) :
    (g'.received project types (g'.declarationsOf project) target).filter
        (fun r => decide (r.LeadsInto (g.declarationsOf project))) =
      g.received project types (g.declarationsOf project) target := by
  have hedges : ∀ key, (g'.edges project types key target).filter
        (fun r => decide (r.LeadsInto (g.declarationsOf project))) =
      if key ∈ g.declarationsOf project then g.edges project types key target else [] := by
    intro key
    split
    · next hkey =>
      rw [h.edges_eq hloaded hencloses hkey htarget, List.filter_eq_self]
      intro r hr
      obtain ⟨d, -, -, rfl, -⟩ := mem_edges hr
      exact decide_eq_true ⟨key, hkey, rfl⟩
    · next hnew =>
      rw [List.filter_eq_nil_iff]
      intro r hr hleads
      obtain ⟨d, -, -, rfl, -⟩ := mem_edges hr
      obtain ⟨k, hk, he⟩ := of_decide_eq_true hleads
      cases he
      exact hnew hk
  rw [received, received, List.filter_flatMap, List.flatMap_congr fun key _ => hedges key]
  conv_rhs => rw [← h.declarationsOf]
  exact flatMap_ite_nil _ _ _

end Graph.Enlarged

/-! ## Runs -/

/--
How a resolved project stands within one that was resolved with newcomers: each declaration keeps
its links and its back edges, and gains no link but to a newcomer.
-/
structure Graph.KeptAmong (spec : Description) (newcomers : List DeclarationEntry)
    (project : ProjectKey) (r r' : Graph) : Prop where
  /-- What was described before has the same id and holds the same types. -/
  declaration : ∀ s ∈ spec.declarations, ∃ key ∈ r.declarationsOf project,
    r.byId? project s.id = some key ∧ r'.byId? project s.id = some key ∧
      (r'.declaration? key).map Declaration.bare = (r.declaration? key).map Declaration.bare
  /-- A reference that was linked is linked to the same. -/
  linked : ∀ key ∈ r.declarationsOf project, ∀ ref ∈ r.referencesAt key,
    ref ∈ r'.referencesAt key ∧ ∀ target, r.target? ref = some target →
      r'.target? ref = some target
  /-- A reference that was not linked may lead to a newcomer. -/
  gained : ∀ key ∈ r.declarationsOf project, ∀ ref ∈ r.referencesAt key, r.target? ref = none →
    ∀ target, r'.target? ref = some target → ∃ e ∈ newcomers, ∃ new,
      target = .declaration new ∧ r'.byId? project e.id = some new ∧
        new ∉ r.declarationsOf project
  /-- The back edges that were there are among those there are, in the same order. -/
  backEdges : ∀ key ∈ r.declarationsOf project, ∃ d d', r.declaration? key = some d ∧
    r'.declaration? key = some d' ∧
    (d.extendedBy.getD []).Sublist (d'.extendedBy.getD []) ∧
    (d.implementedBy.getD []).Sublist (d'.implementedBy.getD [])

/-- Runs over a loaded project and over the same with newcomers. -/
structure Graph.BothResolved (project : ProjectKey) (g g' r r' : Graph) : Prop where
  enlarged : g.Enlarged project g'
  loaded : g.Loaded project
  loaded' : g'.Loaded project
  encloses : g.Encloses project (g.declarationsOf project)
  resolved : ∃ t, Resolved g project (g.declarationsOf project) r t
  resolved' : ∃ t, Resolved g' project (g'.declarationsOf project) r' t

namespace Graph.BothResolved

variable {project : ProjectKey} {g g' r r' : Graph} (h : BothResolved project g g' r r')
include h

theorem declarationsOf_eq : r.declarationsOf project = g.declarationsOf project := by
  obtain ⟨t, hr⟩ := h.resolved
  exact hr.alike.declarationsOf_eq project

theorem byId?_eq (id : Int) : r.byId? project id = g.byId? project id ∧
    r'.byId? project id = g'.byId? project id := by
  obtain ⟨t, hr⟩ := h.resolved
  obtain ⟨t', hr'⟩ := h.resolved'
  simp only [byId?, hr.alike.project?_eq, hr'.alike.project?_eq, and_self]

variable {key : DeclKey} (hkey : key ∈ g.declarationsOf project)
include hkey

theorem bare_eq : (r'.declaration? key).map Declaration.bare =
    (r.declaration? key).map Declaration.bare := by
  obtain ⟨t, hr⟩ := h.resolved
  obtain ⟨t', hr'⟩ := h.resolved'
  rw [hr.alike.bare, hr'.alike.bare, h.enlarged.declaration key hkey]

theorem referencesAt_eq : g'.referencesAt key = g.referencesAt key := by
  rw [referencesAt, referencesAt, h.enlarged.declaration key hkey]

/-- A reference that was loaded leads where it led without the newcomers, or to one of them. -/
theorem target?_eq {ref : Reference} (href : ref ∈ g.referencesAt key) :
    r.target? ref = ((g'.named? project (.declaration key) ref).filter
        (· ∈ g.declarationsOf project)).map .declaration ∧
      r'.target? ref = (g'.named? project (.declaration key) ref).map .declaration := by
  obtain ⟨t, hr⟩ := h.resolved
  obtain ⟨t', hr'⟩ := h.resolved'
  have href' : ref ∈ g'.referencesAt key := (h.referencesAt_eq hkey).symm ▸ href
  rw [← h.enlarged.named?_eq h.encloses hkey]
  exact ⟨hr.settled h.loaded hkey ref href,
    hr'.settled h.loaded' (h.enlarged.subset hkey) ref href'⟩

/-- Every reference is one that was loaded or leads back to an extender, with newcomers too. -/
theorem mem_referencesAt {ref : Reference} (href : ref ∈ r.referencesAt key) :
    ref ∈ r'.referencesAt key ∧
      (ref ∈ g.referencesAt key ∨ r'.target? ref = r.target? ref ∧ (r.target? ref).isSome) := by
  obtain ⟨t, hr⟩ := h.resolved
  obtain ⟨t', hr'⟩ := h.resolved'
  rw [(hr'.referencesAt_perm h.loaded' (h.enlarged.subset hkey)).mem_iff, List.mem_append]
  rw [(hr.referencesAt_perm h.loaded hkey).mem_iff, List.mem_append] at href
  rcases href with href | href
  · exact ⟨Or.inl ((h.referencesAt_eq hkey).symm ▸ href), Or.inl href⟩
  · have hreceived := href
    rw [← h.enlarged.received_eq h.loaded h.encloses hkey] at hreceived
    obtain ⟨other, -, hedge⟩ := List.mem_flatMap.mp href
    obtain ⟨d, -, -, rfl, -⟩ := mem_edges hedge
    exact ⟨Or.inr (List.mem_filter.mp hreceived).1, Or.inr ⟨rfl, rfl⟩⟩

/-- A reference that is linked without the newcomers is linked to the same with them. -/
theorem target?_of_linked {ref : Reference} (href : ref ∈ r.referencesAt key) {target : Target}
    (htarget : r.target? ref = some target) : r'.target? ref = some target := by
  obtain ⟨-, hloaded | ⟨hsame, -⟩⟩ := h.mem_referencesAt hkey href
  · obtain ⟨hwithout, hwith⟩ := h.target?_eq hkey hloaded
    rw [hwithout] at htarget
    obtain ⟨named, hnamed, rfl⟩ := Option.map_eq_some_iff.mp htarget
    rw [hwith, (Option.filter_eq_some_iff.mp hnamed).1, Option.map_some]
  · rw [hsame, htarget]

/-- A reference that is linked only with the newcomers is linked to one of them. -/
theorem exists_newcomer_of_gained {ref : Reference} (href : ref ∈ r.referencesAt key)
    (hnone : r.target? ref = none) {target : Target} (htarget : r'.target? ref = some target) :
    ∃ new, target = .declaration new ∧ new ∈ g'.declarationsOf project ∧
      new ∉ g.declarationsOf project := by
  obtain ⟨-, hloaded | ⟨-, hsome⟩⟩ := h.mem_referencesAt hkey href
  · obtain ⟨hwithout, hwith⟩ := h.target?_eq hkey hloaded
    rw [hwith] at htarget
    obtain ⟨new, hnamed, rfl⟩ := Option.map_eq_some_iff.mp htarget
    have hloaded' : ref ∈ g'.referencesAt key := (h.referencesAt_eq hkey).symm ▸ hloaded
    refine ⟨new, rfl, h.loaded'.closed key (h.enlarged.subset hkey) ref hloaded' new hnamed, ?_⟩
    intro hmem
    rw [hwithout, hnamed, Option.filter_some, if_pos (decide_eq_true hmem)] at hnone
    cases hnone
  · rw [hnone] at hsome
    cases hsome

/-- Back edges keep their order; the newcomers' stand among them. -/
theorem exists_backEdges : ∃ d d', r.declaration? key = some d ∧ r'.declaration? key = some d' ∧
    (d.extendedBy.getD []).Sublist (d'.extendedBy.getD []) ∧
    (d.implementedBy.getD []).Sublist (d'.implementedBy.getD []) := by
  obtain ⟨t, hr⟩ := h.resolved
  obtain ⟨t', hr'⟩ := h.resolved'
  obtain ⟨d, -, -, hd⟩ := hr.exists_resolved h.loaded hkey
  obtain ⟨d', -, -, hd'⟩ := hr'.exists_resolved h.loaded' (h.enlarged.subset hkey)
  have hreceived := h.enlarged.received_eq h.loaded h.encloses hkey
  refine ⟨_, _, hd, hd', ?_, ?_⟩
  · rw [Declaration.extendedBy_resolved, Declaration.extendedBy_resolved, getD_nonempty?,
      getD_nonempty?, ← hreceived]
    exact List.filter_sublist.map _
  · rw [Declaration.implementedBy_resolved, Declaration.implementedBy_resolved, getD_nonempty?,
      getD_nonempty?, ← hreceived, mergeSort_ascending_filter]
    exact List.filter_sublist.map _

end Graph.BothResolved

namespace Pipeline

/--
A run over a description with newcomers keeps all that a run over the description alone makes of
it: the links, but for references that led nowhere and now lead to a newcomer, and the back edges in
their order.
-/
theorem plainRun_enlarged {g₀ g g' : Graph} {source source' : String} {spec spec' : Description}
    {newcomers : List DeclarationEntry} (h : g₀.adopt source spec = .ok g)
    (h' : g₀.adopt source' spec' = .ok g') (henlarges : spec.Enlarges newcomers spec') :
    ∃ tally r tally' r', plainRun g g₀.projects.size = (.ok tally, r) ∧
      plainRun g' g₀.projects.size = (.ok tally', r') ∧
      r.KeptAmong spec newcomers g₀.projects.size r' := by
  have ha := Graph.adopt_spec h
  have ha' := Graph.adopt_spec h'
  obtain ⟨tally, r, hrun, hr⟩ := plainRun_spec ha.loaded
  obtain ⟨tally', r', hrun', hr'⟩ := plainRun_spec ha'.loaded
  have hboth : Graph.BothResolved g₀.projects.size g g' r r' :=
    ⟨Graph.adopt_enlarged h h' henlarges, ha.loaded, ha'.loaded, ha.encloses, ⟨tally, hr⟩,
      ⟨tally', hr'⟩⟩
  have hkeys := hboth.declarationsOf_eq
  refine ⟨tally, r, tally', r', hrun, hrun', ?_, ?_, ?_, ?_⟩
  · intro s hs
    obtain ⟨i, hi⟩ := List.getElem?_of_mem hs
    have hkey := ha.mem_declarationsOf.mpr ⟨i, s, hi, rfl⟩
    obtain ⟨hid, hid'⟩ := hboth.byId?_eq s.id
    exact ⟨_, hkeys ▸ hkey, hid.trans (ha.byId?_eq hi),
      hid'.trans (ha'.byId?_eq (henlarges.getElem? hi)), hboth.bare_eq hkey⟩
  · intro key hkey ref href
    rw [hkeys] at hkey
    exact ⟨(hboth.mem_referencesAt hkey href).1,
      fun target => hboth.target?_of_linked hkey href⟩
  · intro key hkey ref href hnone target htarget
    rw [hkeys] at hkey ⊢
    obtain ⟨new, rfl, hmem, hnew⟩ :=
      hboth.exists_newcomer_of_gained hkey href hnone htarget
    obtain ⟨i, e, hi, -, he, rfl⟩ := ha.exists_newcomer ha' henlarges hmem hnew
    exact ⟨e, he, _, rfl, (hboth.byId?_eq e.id).2.trans (ha'.byId?_eq hi), hnew⟩
  · intro key hkey
    rw [hkeys] at hkey
    exact hboth.exists_backEdges hkey

/-- A class that is named in vain without it, with one inside, and one named like an older class. -/
def nestedNewcomers : List DeclarationEntry :=
  [ { id := 1, name := "Map", kind := "class", symbol := some 5, parent := none,
      type := none, inheritedFrom := none, overwrites := none,
      extendedTypes := [.reference "Outer" none none], implementedTypes := [], decorators := [] },
    { id := 2, name := "Outer", kind := "class", symbol := none, parent := some 1,
      type := none, inheritedFrom := none, overwrites := none,
      extendedTypes := [.reference "Outer.Inner" none none],
      implementedTypes := [.reference "Inner" (some 3) none], decorators := [] },
    { id := 3, name := "Outer", kind := "class", symbol := none, parent := none,
      type := none, inheritedFrom := none, overwrites := none,
      extendedTypes := [], implementedTypes := [], decorators := [] } ]

def nestedEnlarged : Description :=
  { Description.nested with declarations := Description.nested.declarations ++ nestedNewcomers }

theorem plainRun_enlarged_nested :
    Description.nested.Enlarges nestedNewcomers nestedEnlarged ∧
      ∃ g g', Graph.empty.adopt "nested" Description.nested = .ok g ∧
        Graph.empty.adopt "nested" nestedEnlarged = .ok g' ∧
        ∃ tally r tally' r', plainRun g 0 = (.ok tally, r) ∧ plainRun g' 0 = (.ok tally', r') ∧
          r.KeptAmong Description.nested nestedNewcomers 0 r' := by
  have henlarges : Description.nested.Enlarges nestedNewcomers nestedEnlarged :=
    ⟨rfl, by decide, by decide⟩
  obtain ⟨g, h⟩ := Graph.exists_adopt_nested
  obtain ⟨g', h'⟩ : ∃ g', Graph.empty.adopt "nested" nestedEnlarged = .ok g' :=
    ⟨_, eq_ok_getD (by decide +kernel) .empty⟩
  have hkept := plainRun_enlarged h h' henlarges
  exact ⟨henlarges, g, g', h, h', hkept⟩

end Pipeline

end Lineage
