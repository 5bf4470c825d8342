import Lineage.Proofs.BackEdges
import Lineage.Proofs.References
import Lineage.Proofs.Sweep

/-!
# Deliveries

What the delivery of a declaration settles and leaves is read off the project as it was loaded, so
that deliveries do not depend on each other.
-/

namespace Lineage

/-! ## Tallies -/

/-- A tally that has counted references and back edges. -/
structure Tally.Gains (t t' : Tally) (linked dangling edges : Nat) : Prop where
  seen : t'.referencesSeen = t.referencesSeen + (linked + dangling)
  linked : t'.referencesLinked = t.referencesLinked + linked
  dangling : t'.referencesDangling = t.referencesDangling + dangling
  edges : t'.backEdgesAdded = t.backEdgesAdded + edges
  built : t'.hierarchiesBuilt = t.hierarchiesBuilt

namespace Tally.Gains

theorem refl (t : Tally) : Gains t t 0 0 0 :=
  ⟨rfl, rfl, rfl, rfl, rfl⟩

theorem trans {t t' t'' : Tally} {l d e l' d' e' : Nat} (h : Gains t t' l d e)
    (h' : Gains t' t'' l' d' e') : Gains t t'' (l + l') (d + d') (e + e') := by
  refine ⟨?_, ?_, ?_, ?_, h'.built.trans h.built⟩
  · rw [h'.seen, h.seen]; omega
  · rw [h'.linked, h.linked, Nat.add_assoc]
  · rw [h'.dangling, h.dangling, Nat.add_assoc]
  · rw [h'.edges, h.edges, Nat.add_assoc]

end Tally.Gains

/-! ## Back edges in lists -/

/-- A type that stands for a declaration that left a back edge. -/
def TypeExpr.IsBackEdge (t : TypeExpr) : Prop :=
  ∃ name key, t = .reference (.toDeclaration name key)

theorem TypeExpr.IsBackEdge.link?_eq_none {t : TypeExpr} (h : t.IsBackEdge) {r : Reference}
    (hr : r ∈ t.references) : r.link? = none := by
  obtain ⟨name, key, rfl⟩ := h
  obtain rfl := List.mem_singleton.mp hr
  rfl

theorem TypeExpr.filter_referencesOf_isBackEdge {ts : List TypeExpr} (h : ∀ t ∈ ts, t.IsBackEdge) :
    (referencesOf ts).filter (·.link?.isSome) = [] := by
  induction ts with
  | nil => rfl
  | cons t ts ih =>
    rw [referencesOf, List.filter_append, ih fun u hu => h u (List.mem_cons_of_mem _ hu),
      List.append_nil]
    refine List.filter_eq_nil_iff.mpr fun r hr => ?_
    simp [(h t List.mem_cons_self).link?_eq_none hr]

theorem Declaration.filter_references {d : Declaration}
    (h : ∀ t ∈ d.extendedBy.getD [], t.IsBackEdge) :
    d.references.filter (·.link?.isSome) = d.bare.references.filter (·.link?.isSome) := by
  simp only [references, types, bare, TypeExpr.referencesOf_append, List.filter_append,
    TypeExpr.filter_referencesOf_isBackEdge h, Option.getD_none, TypeExpr.referencesOf,
    List.filter_nil]

/-- Lists of types that resolution visits and that no run changes. -/
structure Declaration.Visited (types : Declaration → Option (List TypeExpr)) : Prop where
  bare : ∀ d, types d.bare = types d
  visited : ∀ d, ∀ t ∈ (types d).getD [], t ∈ d.types

theorem Declaration.visited_implementedTypes : Visited implementedTypes where
  bare _ := rfl
  visited d t ht := by simp [types, ht]

theorem Declaration.visited_extendedTypes : Visited extendedTypes where
  bare _ := rfl
  visited d t ht := by simp [types, ht]

namespace Graph

/-! ## What a loaded project leaves -/

section Meaning

variable (g : Graph) (project : ProjectKey)

/-- The declarations that the tops of types name in a declaration. -/
def namedBy (key : DeclKey) (types : Option (List TypeExpr)) : List DeclKey :=
  (types.getD []).filterMap fun t => t.head?.bind (g.named? project (.declaration key))

/-- The references that a declaration leaves with another one through some of its types. -/
def edges (types : Declaration → Option (List TypeExpr)) (key target : DeclKey) : List Reference :=
  ((g.declaration? key).map fun d => d.edges key (g.namedBy project key (types d)) target).getD []

/-- Who awaits a hierarchy once a declaration is delivered. -/
def awaiting (key : DeclKey) : List DeclKey :=
  ((g.declaration? key).map fun d => d.awaiting key (g.namedBy project key d.implementedTypes)
    (g.namedBy project key d.extendedTypes)).getD []

def edgeCount (key : DeclKey) : Nat :=
  ((g.declaration? key).map fun d => d.edgeCount (g.namedBy project key d.implementedTypes)
    (g.namedBy project key d.extendedTypes)).getD 0

end Meaning

theorem edges_of_declaration? {g : Graph} {key : DeclKey} {d : Declaration}
    (hd : g.declaration? key = some d) (project : ProjectKey)
    (types : Declaration → Option (List TypeExpr)) (target : DeclKey) :
    g.edges project types key target = d.edges key (g.namedBy project key (types d)) target := by
  rw [edges, hd]
  rfl

/-- Who is left a reference is named by the declaration that leaves it. -/
theorem mem_edges {g : Graph} {project : ProjectKey}
    {types : Declaration → Option (List TypeExpr)} {key target : DeclKey} {r : Reference}
    (h : r ∈ g.edges project types key target) :
    ∃ d, g.declaration? key = some d ∧ d.isClassLike ∧ r = .toDeclaration d.name key ∧
      target ∈ g.namedBy project key (types d) := by
  cases hd : g.declaration? key with
  | none => simp [edges, hd] at h
  | some d =>
    rw [edges_of_declaration? hd, Declaration.edges] at h
    split at h
    · next hclass =>
      obtain ⟨hne, rfl⟩ := List.mem_replicate.mp h
      exact ⟨d, rfl, hclass, rfl, List.count_pos_iff.mp (Nat.pos_of_ne_zero hne)⟩
    · cases h

theorem isBackEdge_of_mem_edges {g : Graph} {project : ProjectKey}
    {types : Declaration → Option (List TypeExpr)} {key target : DeclKey} {r : Reference}
    (h : r ∈ g.edges project types key target) : (TypeExpr.reference r).IsBackEdge := by
  obtain ⟨d, -, -, rfl, -⟩ := mem_edges h
  exact ⟨d.name, key, rfl⟩

/-! ## Grown graphs -/

/--
What deliveries and hierarchies make of a loaded graph: links are empty or lead to what their
reference names, and the lists that were added hold back edges.
-/
structure Grown (g : Graph) (project : ProjectKey) (g' : Graph) : Prop where
  alike : Alike g g'
  held : ∀ key ∈ g.declarationsOf project, ∀ r ∈ g.referencesAt key, ∀ link,
    r.link? = some link → g'.links[link]? = some none ∨
      g'.links[link]? = some (g.named? project (.declaration key) r)
  gained : ∀ key ∈ g.declarationsOf project, ∀ d, g'.declaration? key = some d →
    ∀ t ∈ d.extendedBy.getD [] ++ d.implementedBy.getD [], t.IsBackEdge

namespace Loaded

variable {g g' : Graph} {project : ProjectKey}

theorem grown (h : Loaded g project) : Grown g project g where
  alike := Alike.refl g
  held key hkey r hr link hlink := by
    obtain ⟨other, hother, hempty⟩ := h.unlinked key hkey r hr
    obtain rfl := Option.some.inj (hlink.symm.trans hother)
    exact Or.inl hempty
  gained key hkey d hd t ht := by
    obtain ⟨d', hd', hbare⟩ := h.declaration key hkey
    obtain rfl := Option.some.inj (hd'.symm.trans hd)
    rw [← hbare] at ht
    simp [Declaration.bare] at ht

theorem nodup_link? (h : Loaded g project) {key : DeclKey} (hkey : key ∈ g.declarationsOf project) :
    ((g.referencesAt key).map Reference.link?).Nodup := by
  have hnodup := h.apart
  rw [mentions, List.map_flatMap] at hnodup
  simpa [List.map_map, Function.comp_def] using (List.nodup_flatMap.mp hnodup).1 key hkey

/-- Two references of the project that share a link are one. -/
theorem eq_of_link?_eq (h : Loaded g project) {key other : DeclKey}
    (hkey : key ∈ g.declarationsOf project) (hother : other ∈ g.declarationsOf project)
    {r q : Reference} (hr : r ∈ g.referencesAt key) (hq : q ∈ g.referencesAt other)
    (hlink : r.link? = q.link?) : key = other ∧ r = q := by
  have heq := List.inj_on_of_nodup_map h.apart (mem_mentions.mpr ⟨hkey, hr⟩)
    (mem_mentions.mpr ⟨hother, hq⟩) hlink
  exact Prod.mk.inj heq

end Loaded

/-! ## Settled references -/

theorem head_mem_referencesAt {g : Graph} {key : DeclKey} {d : Declaration}
    (hd : g.declaration? key = some d) {types : Declaration → Option (List TypeExpr)}
    (hv : Declaration.Visited types) {t : TypeExpr} (ht : t ∈ (types d).getD []) {r : Reference}
    (hr : t.head? = some r) : r ∈ g.referencesAt key := by
  rw [referencesAt, hd]
  exact TypeExpr.references_subset_referencesOf (hv.visited d t ht)
    (TypeExpr.mem_references_of_head? hr)

/-- Every reference of a declaration leads to what it names. -/
def Settled (g : Graph) (project : ProjectKey) (key : DeclKey) (g' : Graph) : Prop :=
  ∀ r ∈ g.referencesAt key,
    g'.target? r = (g.named? project (.declaration key) r).map .declaration

theorem Settled.targets_eq {g g' : Graph} {project : ProjectKey} {key : DeclKey} {d : Declaration}
    (h : Settled g project key g') (hd : g.declaration? key = some d)
    {types : Declaration → Option (List TypeExpr)} (hv : Declaration.Visited types) :
    g'.targets (types d) = g.namedBy project key (types d) := by
  apply List.filterMap_congr
  intro t ht
  cases hhead : t.head? with
  | none => rfl
  | some r =>
    have htarget := h r (head_mem_referencesAt hd hv ht hhead)
    rw [target?] at htarget
    simp only [Option.bind_some, Reference.declaration?, htarget]
    cases g.named? project (.declaration key) r <;> rfl

end Graph

/-! ## Linking a declaration -/

/-- What linking a declaration changes: its references are settled, and counted if unlinked. -/
structure Linked (g : Graph) (project : ProjectKey) (key : DeclKey) (l l' : Linking) : Prop where
  graph : l'.graph = { l.graph with links := l'.graph.links }
  held : ∀ r ∈ g.referencesAt key, ∀ link, r.link? = some link →
    l'.graph.links[link]? = some (g.named? project (.declaration key) r)
  untouched : ∀ link, some link ∉ (g.referencesAt key).map Reference.link? →
    l'.graph.links[link]? = l.graph.links[link]?
  tally : l.tally.Gains l'.tally
    ((g.referencesAt key).countP fun r =>
      !l.graph.isLinked r && (g.named? project (.declaration key) r).isSome)
    ((g.referencesAt key).countP fun r => (g.named? project (.declaration key) r).isNone) 0

section Link

variable {g : Graph} {project : ProjectKey} {key : DeclKey} {l l' : Linking}

theorem Linked.alike (h : Linked g project key l l') : Graph.Alike l.graph l'.graph := by
  rw [h.graph]
  exact Graph.Alike.setLinks _ _

theorem Linked.settled (h : Linked g project key l l') (hg : g.Loaded project)
    (hkey : key ∈ g.declarationsOf project) : g.Settled project key l'.graph := by
  intro r hr
  obtain ⟨link, hlink, -⟩ := hg.unlinked key hkey r hr
  rw [Graph.target?_of_link hlink, h.held r hr link hlink]
  rfl

/-- In a grown graph, linking a declaration links the references that it was loaded with. -/
theorem Linking.declaration_eq_references (h : g.Loaded project) (hl : g.Grown project l.graph)
    (hkey : key ∈ g.declarationsOf project) :
    l.declaration project key = l.references project key (g.referencesAt key) := by
  obtain ⟨d, hd, hbare⟩ := h.declaration key hkey
  obtain ⟨d', hd', he⟩ := hl.alike.exists_declaration hd
  have hgained := hl.gained key hkey d' hd'
  have hrefs : g.referencesAt key = d.references := by
    rw [Graph.referencesAt, hd]
    rfl
  unfold declaration
  simp only [hd', hrefs]
  rw [← references_filter_link, Declaration.filter_references fun t ht =>
      hgained t (List.mem_append_left _ ht), he, hbare, references_filter_link]

theorem Graph.Grown.isLinked_eq_false {g' : Graph} (hg' : g.Grown project g') (h : g.Loaded project)
    (hkey : key ∈ g.declarationsOf project) {r : Reference} (hr : r ∈ g.referencesAt key)
    (hnone : (g.named? project (.declaration key) r).isNone) : g'.isLinked r = false := by
  obtain ⟨link, hlink, -⟩ := h.unlinked key hkey r hr
  rw [Graph.isLinked_of_link hlink]
  rcases hg'.held key hkey r hr link hlink with hheld | hheld
  · simp [hheld]
  · simpa [hheld] using hnone

theorem Linking.tally_declaration (h : g.Loaded project) (hl : g.Grown project l.graph)
    (hkey : key ∈ g.declarationsOf project) :
    (l.references project key (g.referencesAt key)).tally =
      l.tally.countReferences
        ((g.referencesAt key).countP fun r =>
          !l.graph.isLinked r && (g.named? project (.declaration key) r).isSome)
        ((g.referencesAt key).countP fun r => (g.named? project (.declaration key) r).isNone) := by
  have hlink : ∀ r ∈ g.referencesAt key, r.link?.isSome := by
    intro r hr
    obtain ⟨link, hlink, -⟩ := h.unlinked key hkey r hr
    simp [hlink]
  have hdangling : ((g.referencesAt key).countP fun r => !l.graph.isLinked r &&
        (g.named? project (.declaration key) r).isNone) =
      (g.referencesAt key).countP fun r => (g.named? project (.declaration key) r).isNone := by
    apply List.countP_congr
    intro r hr
    cases hnone : (g.named? project (.declaration key) r).isNone with
    | false => simp
    | true => simp [hl.isLinked_eq_false h hkey hr hnone]
  rw [tally_references project key (h.nodup_link? hkey) hlink]
  simp only [hl.alike.named?_eq, hdangling]

theorem Linking.declaration_spec (h : g.Loaded project) (hl : g.Grown project l.graph)
    (hkey : key ∈ g.declarationsOf project) :
    Linked g project key l (l.declaration project key) := by
  rw [declaration_eq_references h hl hkey]
  refine ⟨graph_references project key _ l, ?_, ?_, ?_⟩
  · intro r hr link hlink
    rw [links_references_of_mem project key (h.nodup_link? hkey) hr hlink, hl.alike.named?_eq]
    rcases hl.held key hkey r hr link hlink with hheld | hheld
    · rw [hheld]
      rfl
    · rw [hheld, Option.map_some, Option.or_self]
  · exact fun link hlink => links_references_of_notMem project key hlink l
  · rw [tally_declaration h hl hkey]
    exact ⟨rfl, rfl, rfl, rfl, rfl⟩

end Link

/-! ## The back edges of a settled declaration -/

section Contribute

variable {g g' : Graph} {project : ProjectKey} {key : DeclKey}

/-- Once a declaration is settled, its contribution is that of what it was loaded with. -/
theorem Graph.Settled.addBackEdges_spec (hs : g.Settled project key g') (h : g.Loaded project)
    (halike : Graph.Alike g g') (hkey : key ∈ g.declarationsOf project) (pending : Worklist) :
    (∀ target, (g'.addBackEdges pending key).graph.declaration? target =
        (g'.declaration? target).map
          (·.gain (g.edges project Declaration.implementedTypes key target)
            (g.edges project Declaration.extendedTypes key target))) ∧
      (g'.addBackEdges pending key).pending = pending.addAll (g.awaiting project key) ∧
      (g'.addBackEdges pending key).added = g.edgeCount project key := by
  obtain ⟨d, hd, hbare⟩ := h.declaration key hkey
  obtain ⟨d', hd', he⟩ := halike.exists_declaration hd
  obtain rfl := he.trans hbare
  have himplemented : g'.targets d'.implementedTypes = g.namedBy project key d'.implementedTypes :=
    hs.targets_eq hd Declaration.visited_implementedTypes
  have hextended : g'.targets d'.extendedTypes = g.namedBy project key d'.extendedTypes :=
    hs.targets_eq hd Declaration.visited_extendedTypes
  refine ⟨fun target => ?_, ?_, ?_⟩
  · rw [declaration?_addBackEdges _ hd', himplemented, hextended, edges, edges, hd]
    rfl
  · rw [pending_addBackEdges _ hd', himplemented, hextended, awaiting, hd]
    rfl
  · rw [added_addBackEdges _ hd', himplemented, hextended, edgeCount, hd]
    rfl

end Contribute

/-! ## What deliveries change -/

/--
What the delivery of declarations changes: it settles their references, leaves their back edges,
adds who awaits a hierarchy, and counts.
-/
structure Delivered (g : Graph) (project : ProjectKey) (keys : List DeclKey) (s s' : Sweep) :
    Prop where
  alike : Graph.Alike s.graph s'.graph
  settled : ∀ key ∈ keys, ∀ r ∈ g.referencesAt key, ∀ link, r.link? = some link →
    s'.graph.links[link]? = some (g.named? project (.declaration key) r)
  untouched : ∀ link, (∀ m ∈ g.mentions keys, m.2.link? ≠ some link) →
    s'.graph.links[link]? = s.graph.links[link]?
  declaration : ∀ target, s'.graph.declaration? target = (s.graph.declaration? target).map
    (·.gain (keys.flatMap fun key => g.edges project Declaration.implementedTypes key target)
      (keys.flatMap fun key => g.edges project Declaration.extendedTypes key target))
  pending : s'.pending = s.pending.addAll (keys.flatMap (g.awaiting project))
  tally : s.tally.Gains s'.tally
    ((g.mentions keys).countP fun m =>
      !s.graph.isLinked m.2 && (g.named? project (.declaration m.1) m.2).isSome)
    ((g.mentions keys).countP fun m => (g.named? project (.declaration m.1) m.2).isNone)
    (keys.map (g.edgeCount project)).sum

section Deliver

variable {g : Graph} {project : ProjectKey} {key : DeclKey} {s : Sweep}

theorem Sweep.deliver_spec (h : g.Loaded project) (hs : g.Grown project s.graph)
    (hkey : key ∈ g.declarationsOf project) :
    Delivered g project [key] s (s.deliver project key) := by
  let l := Linking.declaration project key ⟨s.graph, s.tally⟩
  have hl : Linked g project key ⟨s.graph, s.tally⟩ l := Linking.declaration_spec h hs hkey
  obtain ⟨hdeclaration, hpending, hadded⟩ :=
    (hl.settled h hkey).addBackEdges_spec h (hs.alike.trans hl.alike) hkey s.pending
  refine ⟨hl.alike.trans (Graph.alike_addBackEdges s.pending), ?_, ?_, ?_, ?_, ?_⟩
  · intro other hother r hr link hlink
    obtain rfl := List.mem_singleton.mp hother
    exact (congrArg (·[link]?) (Graph.links_addBackEdges s.pending)).trans (hl.held r hr link hlink)
  · intro link hlink
    refine (congrArg (·[link]?) (Graph.links_addBackEdges s.pending)).trans (hl.untouched link ?_)
    intro hmem
    obtain ⟨r, hr, he⟩ := List.mem_map.mp hmem
    exact hlink (key, r) (Graph.mem_mentions.mpr ⟨List.mem_singleton_self key, hr⟩) he
  · intro target
    have hsame : l.graph.declaration? target = s.graph.declaration? target :=
      congrArg (·.declaration? target) hl.graph
    rw [List.flatMap_singleton, List.flatMap_singleton, ← hsame]
    exact hdeclaration target
  · rw [List.flatMap_singleton]
    exact hpending
  · have htally : (s.deliver project key).tally =
        l.tally.countBackEdges (g.edgeCount project key) :=
      congrArg l.tally.countBackEdges hadded
    rw [htally, Graph.mentions_singleton, List.countP_map, List.countP_map, List.map_singleton,
      List.sum_singleton]
    exact ⟨hl.tally.seen, hl.tally.linked, hl.tally.dangling,
      congrArg (· + g.edgeCount project key) hl.tally.edges, hl.tally.built⟩

/-- Counting a declaration does not touch what its delivery counts. -/
theorem Sweep.visit_spec (h : g.Loaded project) (hs : g.Grown project s.graph)
    (hkey : key ∈ g.declarationsOf project) :
    Delivered g project [key] s (s.visit project key) := by
  obtain ⟨halike, hsettled, huntouched, hdeclaration, hpending, htally⟩ :=
    Sweep.deliver_spec h hs hkey
  refine ⟨halike, hsettled, huntouched, hdeclaration, hpending, ?_⟩
  exact ⟨htally.seen, htally.linked, htally.dangling, htally.edges, htally.built⟩

end Deliver

/-! ## Deliveries one after the other -/

namespace Delivered

variable {g : Graph} {project : ProjectKey} {keys more : List DeclKey} {s s' s'' : Sweep}

theorem nil (g : Graph) (project : ProjectKey) (s : Sweep) : Delivered g project [] s s where
  alike := Graph.Alike.refl s.graph
  settled _ hkey := absurd hkey List.not_mem_nil
  untouched _ _ := rfl
  declaration target := by simp
  pending := rfl
  tally := Tally.Gains.refl s.tally

theorem grown (h : Delivered g project keys s s') (hg : g.Loaded project)
    (hkeys : ∀ key ∈ keys, key ∈ g.declarationsOf project) (hs : g.Grown project s.graph) :
    g.Grown project s'.graph where
  alike := hs.alike.trans h.alike
  held other hother r hr link hlink := by
    by_cases hmem : ∃ m ∈ g.mentions keys, m.2.link? = some link
    · obtain ⟨m, hm, he⟩ := hmem
      obtain ⟨hkey, hq⟩ := Graph.mem_mentions.mp hm
      obtain ⟨rfl, rfl⟩ :=
        hg.eq_of_link?_eq hother (hkeys m.1 hkey) hr hq (hlink.trans he.symm)
      exact Or.inr (h.settled _ hkey _ hq link hlink)
    · rw [h.untouched link fun m hm he => hmem ⟨m, hm, he⟩]
      exact hs.held other hother r hr link hlink
  gained other hother d hd t ht := by
    rw [h.declaration] at hd
    obtain ⟨d₀, hd₀, rfl⟩ := Option.map_eq_some_iff.mp hd
    simp only [Declaration.gain, TypeExpr.getD_grow, List.mem_append] at ht
    have hedge : ∀ types, t ∈ (keys.flatMap fun key => g.edges project types key other).map
        TypeExpr.reference → t.IsBackEdge := by
      intro types ht
      obtain ⟨r, hr, rfl⟩ := List.mem_map.mp ht
      obtain ⟨key, -, hr⟩ := List.mem_flatMap.mp hr
      exact Graph.isBackEdge_of_mem_edges hr
    rcases ht with (ht | ht) | (ht | ht)
    · exact hs.gained other hother d₀ hd₀ t (List.mem_append_left _ ht)
    · exact hedge _ ht
    · exact hs.gained other hother d₀ hd₀ t (List.mem_append_right _ ht)
    · exact hedge _ ht

theorem append (h : Delivered g project keys s s') (h' : Delivered g project more s' s'')
    (hg : g.Loaded project) (hkeys : ∀ key ∈ keys, key ∈ g.declarationsOf project)
    (hmore : ∀ key ∈ more, key ∈ g.declarationsOf project) (hdisjoint : keys.Disjoint more) :
    Delivered g project (keys ++ more) s s'' := by
  -- A later delivery does not touch the links of an earlier one.
  have hapart : ∀ key ∈ keys, ∀ r ∈ g.referencesAt key, ∀ link, r.link? = some link →
      ∀ m ∈ g.mentions more, m.2.link? ≠ some link := by
    intro key hkey r hr link hlink m hm he
    obtain ⟨hother, hq⟩ := Graph.mem_mentions.mp hm
    obtain ⟨rfl, -⟩ := hg.eq_of_link?_eq (hkeys key hkey) (hmore m.1 hother) hr hq
      (hlink.trans he.symm)
    exact hdisjoint hkey hother
  refine ⟨h.alike.trans h'.alike, ?_, ?_, ?_, ?_, ?_⟩
  · intro key hkey r hr link hlink
    rcases List.mem_append.mp hkey with hkey | hkey
    · rw [h'.untouched link (hapart key hkey r hr link hlink)]
      exact h.settled key hkey r hr link hlink
    · exact h'.settled key hkey r hr link hlink
  · intro link hlink
    rw [Graph.mentions_append] at hlink
    rw [h'.untouched link fun m hm => hlink m (List.mem_append_right _ hm),
      h.untouched link fun m hm => hlink m (List.mem_append_left _ hm)]
  · intro target
    rw [h'.declaration, h.declaration, Option.map_map, List.flatMap_append, List.flatMap_append]
    congr 1
    funext d
    exact Declaration.gain_gain d _ _ _ _
  · rw [h'.pending, h.pending, List.flatMap_append, Worklist.addAll_append]
  · have hlinked : ((g.mentions more).countP fun m => !s'.graph.isLinked m.2 &&
          (g.named? project (.declaration m.1) m.2).isSome) =
        (g.mentions more).countP fun m => !s.graph.isLinked m.2 &&
          (g.named? project (.declaration m.1) m.2).isSome := by
      apply List.countP_congr
      intro m hm
      obtain ⟨hother, hq⟩ := Graph.mem_mentions.mp hm
      obtain ⟨link, hlink, -⟩ := hg.unlinked m.1 (hmore m.1 hother) m.2 hq
      have huntouched := h.untouched link fun n hn he => by
        obtain ⟨hkey, hr⟩ := Graph.mem_mentions.mp hn
        exact hapart n.1 hkey n.2 hr link he m hm hlink
      rw [Graph.isLinked_of_link hlink, Graph.isLinked_of_link hlink, huntouched]
    have htally := h.tally.trans h'.tally
    rw [hlinked] at htally
    simpa only [Graph.mentions_append, List.countP_append, List.map_append, List.sum_append]
      using htally

end Delivered

/-- Delivering different declarations one after the other settles and leaves what each does. -/
theorem Sweep.foldl_spec {g : Graph} {project : ProjectKey} (h : g.Loaded project)
    {step : Sweep → DeclKey → Sweep}
    (hstep : ∀ s key, g.Grown project s.graph → key ∈ g.declarationsOf project →
      Delivered g project [key] s (step s key))
    {keys : List DeclKey} (hnodup : keys.Nodup)
    (hkeys : ∀ key ∈ keys, key ∈ g.declarationsOf project) {s : Sweep}
    (hs : g.Grown project s.graph) : Delivered g project keys s (keys.foldl step s) := by
  induction keys generalizing s with
  | nil => exact Delivered.nil g project s
  | cons key keys ih =>
    obtain ⟨hnot, hnodup⟩ := List.nodup_cons.mp hnodup
    have hkey := hkeys key List.mem_cons_self
    have hrest : ∀ k ∈ keys, k ∈ g.declarationsOf project :=
      fun k hk => hkeys k (List.mem_cons_of_mem _ hk)
    have hone : ∀ k ∈ [key], k ∈ g.declarationsOf project := by simpa using hkey
    have hfirst := hstep s key hs hkey
    have hgrown := hfirst.grown h hone hs
    exact hfirst.append (ih hnodup hrest hgrown) h hone hrest (by simpa using hnot)

/-! ## Counting deliveries -/

attribute [ext] Tally

section Counting

variable (project : ProjectKey)

theorem Linking.declarationsResolved_reference (origin : DeclKey) (l : Linking) (r : Reference) :
    (l.reference project origin r).tally.declarationsResolved = l.tally.declarationsResolved := by
  unfold reference
  split
  · rfl
  · split
    · rfl
    · cases l.graph.named? project (.declaration origin) r <;> rfl

theorem Linking.declarationsResolved_references (origin : DeclKey) (rs : List Reference)
    (l : Linking) : (l.references project origin rs).tally.declarationsResolved =
      l.tally.declarationsResolved := by
  induction rs generalizing l with
  | nil => rfl
  | cons r rs ih =>
    rw [references, List.foldl_cons, ← references, ih, declarationsResolved_reference]

theorem Linking.declarationsResolved_declaration (origin : DeclKey) (l : Linking) :
    (l.declaration project origin).tally.declarationsResolved = l.tally.declarationsResolved := by
  rw [declaration]
  split
  · exact declarationsResolved_references project origin _ _
  · rfl

theorem Sweep.declarationsResolved_deliver (s : Sweep) (key : DeclKey) :
    (s.deliver project key).tally.declarationsResolved = s.tally.declarationsResolved :=
  Linking.declarationsResolved_declaration project key ⟨s.graph, s.tally⟩

theorem Sweep.declarationsResolved_foldl_visit (keys : List DeclKey) (s : Sweep) :
    (keys.foldl (visit project) s).tally.declarationsResolved =
      s.tally.declarationsResolved + keys.length := by
  have hvisit : ∀ (s : Sweep) (key : DeclKey), (s.visit project key).tally.declarationsResolved =
      s.tally.declarationsResolved + 1 := fun s key =>
    congrArg (· + 1) (s.declarationsResolved_deliver project key)
  induction keys generalizing s with
  | nil => rfl
  | cons key keys ih =>
    rw [List.foldl_cons, ih, hvisit, List.length_cons]
    omega

end Counting

end Lineage
