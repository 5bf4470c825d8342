import Lineage.Proofs.Received

/-!
# Swept projects

What any deliveries and ends, in any order and number, make of a loaded project. The deliveries that
an end has followed are told apart from those since the last end: only the latter have left lists
that are not sorted and chains that are out of date.
-/

namespace Lineage

/--
A loaded project after deliveries: those that an end has followed are done, those since the last end
are fresh.
-/
structure Swept (g : Graph) (project : ProjectKey) (done fresh : List DeclKey) (g' : Graph)
    (pending : Worklist) : Prop where
  within : ∀ key ∈ done ++ fresh, key ∈ g.declarationsOf project
  alike : Graph.Alike g g'
  settled : ∀ key ∈ done ++ fresh, ∀ r ∈ g.referencesAt key, ∀ link, r.link? = some link →
    g'.links[link]? = some (g.named? project (.declaration key) r)
  untouched : ∀ link, (∀ m ∈ g.mentions (done ++ fresh), m.2.link? ≠ some link) →
    g'.links[link]? = g.links[link]?
  declaration : ∀ key ∈ g.declarationsOf project, g'.declaration? key =
    (g.declaration? key).map fun d => (d.resolved key
      (g.received project Declaration.implementedTypes done key)
      (g.received project Declaration.extendedTypes done key) (g.awaited project done key)).gain
        (g.received project Declaration.implementedTypes fresh key)
        (g.received project Declaration.extendedTypes fresh key)
  pending : pending = Worklist.addAll [] (fresh.flatMap (g.awaiting project))

namespace Swept

variable {g g' : Graph} {project : ProjectKey} {done fresh : List DeclKey} {pending : Worklist}

theorem start (h : g.Loaded project) : Swept g project [] [] g [] where
  within key hkey := absurd hkey List.not_mem_nil
  alike := Graph.Alike.refl g
  settled key hkey := absurd hkey List.not_mem_nil
  untouched _ _ := rfl
  declaration key hkey := by
    obtain ⟨d, hd, hbare⟩ := h.declaration key hkey
    rw [hd, Option.map_some]
    exact congrArg some (Declaration.gain_eq_resolved hbare key [])
  pending := rfl

section Facts

variable (hs : Swept g project done fresh g' pending)
include hs

theorem mem_pending {key : DeclKey} : key ∈ pending ↔ g.awaited project fresh key := by
  rw [hs.pending, Worklist.mem_addAll, Graph.awaited, decide_eq_true_iff]
  simp

theorem nodup_pending : pending.Nodup := by
  rw [hs.pending]
  exact Worklist.nodup_addAll List.nodup_nil _

theorem fresh_within : ∀ key ∈ fresh, key ∈ g.declarationsOf project :=
  fun key hkey => hs.within key (List.mem_append_right _ hkey)

theorem pending_subset (h : g.Loaded project) : pending ⊆ g.declarationsOf project := by
  intro other ho
  obtain ⟨key, hkey, hother⟩ := List.mem_flatMap.mp (of_decide_eq_true (hs.mem_pending.mp ho))
  exact h.mem_of_mem_awaiting (hs.fresh_within key hkey) hother

theorem grown (h : g.Loaded project) : g.Grown project g' where
  alike := hs.alike
  held other hother r hr link hlink := by
    by_cases hmem : ∃ m ∈ g.mentions (done ++ fresh), m.2.link? = some link
    · obtain ⟨m, hm, he⟩ := hmem
      obtain ⟨hkey, hq⟩ := Graph.mem_mentions.mp hm
      obtain ⟨rfl, rfl⟩ :=
        h.eq_of_link?_eq hother (hs.within m.1 hkey) hr hq (hlink.trans he.symm)
      exact Or.inr (hs.settled _ hkey _ hq link hlink)
    · rw [hs.untouched link fun m hm he => hmem ⟨m, hm, he⟩]
      exact h.grown.held other hother r hr link hlink
  gained key hkey d' hd' t ht := by
    rw [hs.declaration key hkey] at hd'
    obtain ⟨d, -, rfl⟩ := Option.map_eq_some_iff.mp hd'
    have hedge : ∀ types keys r, r ∈ g.received project types keys key →
        (TypeExpr.reference r).IsBackEdge := by
      intro types keys r hr
      obtain ⟨source, -, hr⟩ := List.mem_flatMap.mp hr
      exact Graph.isBackEdge_of_mem_edges hr
    simp only [Declaration.gain, TypeExpr.getD_grow, Declaration.extendedBy_resolved,
      Declaration.implementedBy_resolved, getD_nonempty?, List.mem_append, List.mem_map,
      List.mem_mergeSort] at ht
    rcases ht with (⟨r, hr, rfl⟩ | ⟨r, hr, rfl⟩) | (⟨r, hr, rfl⟩ | ⟨r, hr, rfl⟩)
    · exact hedge _ _ r hr
    · exact hedge _ _ r hr
    · exact hedge _ _ r hr
    · exact hedge _ _ r hr

end Facts

/-! ## Steps -/

/-- Deliveries are fresh, those of declarations that were delivered before too. -/
theorem deliver {keys : List DeclKey} {s s' : Sweep} (h : g.Loaded project)
    (hs : Swept g project done fresh s.graph s.pending) (hd : Delivered g project keys s s')
    (hkeys : ∀ key ∈ keys, key ∈ g.declarationsOf project) :
    Swept g project done (fresh ++ keys) s'.graph s'.pending where
  within key hkey := by
    rw [← List.append_assoc, List.mem_append] at hkey
    exact hkey.elim (hs.within key) (hkeys key)
  alike := hs.alike.trans hd.alike
  settled key hkey r hr link hlink := by
    rw [← List.append_assoc, List.mem_append] at hkey
    by_cases hmem : key ∈ keys
    · exact hd.settled key hmem r hr link hlink
    · -- The reference of a declaration that is not delivered now is the only one with its link.
      have hkey := hkey.resolve_right hmem
      rw [hd.untouched link fun m hm he => ?_]
      · exact hs.settled key hkey r hr link hlink
      · obtain ⟨hother, hq⟩ := Graph.mem_mentions.mp hm
        obtain ⟨rfl, -⟩ := h.eq_of_link?_eq (hs.within key hkey) (hkeys m.1 hother) hr hq
          (hlink.trans he.symm)
        exact hmem hother
  untouched link hlink := by
    rw [← List.append_assoc, Graph.mentions_append] at hlink
    rw [hd.untouched link fun m hm => hlink m (List.mem_append_right _ hm),
      hs.untouched link fun m hm => hlink m (List.mem_append_left _ hm)]
  declaration key hkey := by
    rw [hd.declaration, hs.declaration key hkey, Option.map_map, Graph.received_append,
      Graph.received_append]
    congr 1
    funext d
    exact Declaration.gain_gain _ _ _ _ _
  pending := by
    rw [hd.pending, hs.pending, List.flatMap_append, Worklist.addAll_append]

theorem sortable {s : Sweep} (h : g.Loaded project)
    (hs : Swept g project done fresh s.graph s.pending) :
    ∀ key ∈ s.pending, s.graph.Sortable key :=
  fun _ hkey => (hs.grown h).sortable (hs.pending_subset h hkey)

theorem chained {s : Sweep} (h : g.Loaded project)
    (hs : Swept g project done fresh s.graph s.pending) :
    s.Finishes ∧ Graph.Chained s.graph s.pending s.finish.graph :=
  Graph.storeChains_spec hs.nodup_pending (hs.sortable h)

theorem finish {s : Sweep} (h : g.Loaded project)
    (hs : Swept g project done fresh s.graph s.pending) :
    Swept g project (done ++ fresh) [] s.finish.graph s.finish.pending := by
  have hchained := (hs.chained h).2
  refine ⟨?_, hs.alike.trans hchained.alike, ?_, ?_, ?_, rfl⟩
  · simpa using hs.within
  · intro key hkey r hr link hlink
    rw [List.append_nil] at hkey
    exact (congrArg (·[link]?) hchained.links).trans (hs.settled key hkey r hr link hlink)
  · intro link hlink
    rw [List.append_nil] at hlink
    exact (congrArg (·[link]?) hchained.links).trans (hs.untouched link hlink)
  · intro key hkey
    refine (hchained.declaration key).trans ?_
    rw [hs.declaration key hkey, Option.map_map]
    simp only [hs.mem_pending, Graph.received_append, Graph.awaited_append]
    congr 1
    funext d
    simp only [Function.comp_apply]
    by_cases hawaited : g.awaited project fresh key
    · rw [if_pos hawaited, Declaration.chained_gain_resolved, hawaited, Bool.or_true]
      rfl
    · -- Without a fresh back edge the chain that is there is the chain of now.
      rw [if_neg hawaited, Graph.received_eq_nil (Or.inl rfl) hawaited,
        Graph.received_eq_nil (Or.inr rfl) hawaited, Bool.eq_false_iff.mpr hawaited]
      simp [Graph.received]

/-! ## Whole runs -/

/-- A run delivers every declaration of the project. -/
theorem delivered (hs : Swept g project done [] g' []) (h : g.Loaded project) :
    Delivered g project (g.declarationsOf project) { graph := g' }
      (Pipeline.sweepOf g' project) := by
  rw [Pipeline.sweepOf, hs.alike.declarationsOf_eq]
  exact Sweep.foldl_spec h (fun s key hs hkey => Sweep.visit_spec h hs hkey) h.nodup
    (fun _ hkey => hkey) (hs.grown h)

theorem visited (hs : Swept g project done [] g' []) (h : g.Loaded project) :
    Swept g project done (g.declarationsOf project) (Pipeline.sweepOf g' project).graph
      (Pipeline.sweepOf g' project).pending :=
  deliver (s := { graph := g' }) h hs (hs.delivered h) fun _ hkey => hkey

end Swept

end Lineage
