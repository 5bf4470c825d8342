import Lineage.Proofs.Engines
import Lineage.Proofs.Swept

/-!
# Runs over loaded projects

A run over a loaded project always comes to its end. What it makes of the project is said here
declaration by declaration, for any order in which all of them are delivered.
-/

namespace Lineage

/-- What a run makes of a loaded project when it delivers the given declarations in order. -/
structure Resolved (g : Graph) (project : ProjectKey) (keys : List DeclKey) (g' : Graph)
    (t : Tally) : Prop where
  alike : Graph.Alike g g'
  held : ∀ key ∈ g.declarationsOf project, ∀ r ∈ g.referencesAt key, ∀ link,
    r.link? = some link → g'.links[link]? = some (g.named? project (.declaration key) r)
  untouched : ∀ link, (∀ m ∈ g.mentions (g.declarationsOf project), m.2.link? ≠ some link) →
    g'.links[link]? = g.links[link]?
  declaration : ∀ key ∈ g.declarationsOf project, g'.declaration? key =
    (g.declaration? key).map fun d => d.resolved key
      (g.received project Declaration.implementedTypes keys key)
      (g.received project Declaration.extendedTypes keys key) (g.awaited project keys key)
  seen : t.referencesSeen = t.referencesLinked + t.referencesDangling
  linked : t.referencesLinked =
    (g.mentions keys).countP fun m => (g.named? project (.declaration m.1) m.2).isSome
  dangling : t.referencesDangling =
    (g.mentions keys).countP fun m => (g.named? project (.declaration m.1) m.2).isNone
  edges : t.backEdgesAdded = (keys.map (g.edgeCount project)).sum
  built : t.hierarchiesBuilt = keys.countP (g.awaited project keys)

theorem Resolved.exists_resolved {g g' : Graph} {project : ProjectKey} {keys : List DeclKey}
    {t : Tally} (h : Resolved g project keys g' t) (hloaded : g.Loaded project) {key : DeclKey}
    (hkey : key ∈ g.declarationsOf project) :
    ∃ d, g.declaration? key = some d ∧ d.hierarchy = none ∧
      g'.declaration? key = some (d.resolved key
        (g.received project Declaration.implementedTypes keys key)
        (g.received project Declaration.extendedTypes keys key) (g.awaited project keys key)) := by
  obtain ⟨d, hd, hbare⟩ := hloaded.declaration key hkey
  have hnone : d.hierarchy = none := by
    rw [← hbare]
    rfl
  have hd' := h.declaration key hkey
  rw [hd] at hd'
  exact ⟨d, hd, hnone, hd'⟩

theorem Resolved.settled {g g' : Graph} {project : ProjectKey} {keys : List DeclKey} {t : Tally}
    (h : Resolved g project keys g' t) (hloaded : g.Loaded project) {key : DeclKey}
    (hkey : key ∈ g.declarationsOf project) : g.Settled project key g' := by
  intro r hr
  obtain ⟨link, hlink, -⟩ := hloaded.unlinked key hkey r hr
  rw [Graph.target?_of_link hlink, h.held key hkey r hr link hlink]
  rfl

/-- The tops of types lead to what they named in the loaded project. -/
theorem Resolved.targets_eq {g g' : Graph} {project : ProjectKey} {keys : List DeclKey} {t : Tally}
    (h : Resolved g project keys g' t) (hloaded : g.Loaded project) {key : DeclKey}
    (hkey : key ∈ g.declarationsOf project) {d : Declaration} (hd : g'.declaration? key = some d)
    {types : Declaration → Option (List TypeExpr)} (hv : Declaration.Visited types) :
    g'.targets (types d) = g.namedBy project key (types d) := by
  obtain ⟨d₀, hd₀, hbare⟩ := h.alike.symm.exists_declaration hd
  rw [← Declaration.eq_of_bare_eq types hv.bare hbare]
  exact (h.settled hloaded hkey).targets_eq hd₀ hv

/-- A declaration holds the references it was loaded with and those of its extenders. -/
theorem Resolved.referencesAt_perm {g g' : Graph} {project : ProjectKey} {keys : List DeclKey}
    {t : Tally} (h : Resolved g project keys g' t) (hloaded : g.Loaded project) {key : DeclKey}
    (hkey : key ∈ g.declarationsOf project) : (g'.referencesAt key).Perm
      (g.referencesAt key ++ g.received project Declaration.extendedTypes keys key) := by
  obtain ⟨d, hd, -, hd'⟩ := h.exists_resolved hloaded hkey
  obtain ⟨e, he, hbare⟩ := hloaded.declaration key hkey
  obtain rfl := Option.some.inj (hd.symm.trans he)
  have hperm := (d.resolved key (g.received project Declaration.implementedTypes keys key)
    (g.received project Declaration.extendedTypes keys key)
    (g.awaited project keys key)).references_perm
  rw [Declaration.bare_resolved, hbare, Declaration.extendedBy_resolved, getD_nonempty?,
    TypeExpr.referencesOf_map_reference] at hperm
  rw [Graph.referencesAt, Graph.referencesAt, hd, hd']
  exact hperm

section Resolve

variable {g : Graph} {project : ProjectKey} {keys : List DeclKey}

/-- A list without repetitions is as long as it has members among others. -/
private theorem length_eq_countP {xs ys : List DeclKey} (hx : xs.Nodup) (hy : ys.Nodup)
    (hsub : xs ⊆ ys) : xs.length = ys.countP (fun y => decide (y ∈ xs)) := by
  rw [List.countP_eq_length_filter]
  refine List.Perm.length_eq ((List.perm_ext_iff_of_nodup hx (hy.filter _)).mpr fun a => ?_)
  simp only [List.mem_filter, decide_eq_true_eq]
  exact ⟨fun ha => ⟨hsub ha, ha⟩, fun ha => ha.2⟩

namespace Delivered

variable {s : Sweep}

/-- What stands once the given declarations are delivered for the first time. -/
theorem swept (hs : Delivered g project keys { graph := g } s) (h : g.Loaded project)
    (hkeys : ∀ key ∈ keys, key ∈ g.declarationsOf project) :
    Swept g project [] keys s.graph s.pending :=
  (Swept.start h).deliver (s := { graph := g }) h hs hkeys

/-- Once all declarations are delivered, the end of the run resolves the project. -/
theorem resolved (hs : Delivered g project keys { graph := g } s) (h : g.Loaded project)
    (hkeys : keys.Perm (g.declarationsOf project)) :
    s.Finishes ∧ Resolved g project keys s.finish.graph s.finish.tally := by
  have hswept := hs.swept h fun key => hkeys.mem_iff.mp
  obtain ⟨hfinishes, -⟩ := hswept.chained h
  have hfinished := hswept.finish h
  have htally := hs.tally
  refine ⟨hfinishes, hfinished.alike, ?_, ?_, ?_, ?_, ?_, ?_, ?_, ?_⟩
  · intro key hkey
    exact hfinished.settled key (by simpa using hkeys.mem_iff.mpr hkey)
  · intro link hlink
    exact hfinished.untouched link fun m hm =>
      hlink m (Graph.mentions_subset hfinished.within hm)
  · intro key hkey
    rw [hfinished.declaration key hkey]
    rfl
  · simp only [Sweep.finish, Tally.countHierarchies, htally.seen, htally.linked, htally.dangling]
    omega
  · simp only [Sweep.finish, Tally.countHierarchies, htally.linked, Nat.zero_add]
    apply List.countP_congr
    intro m hm
    obtain ⟨hkey, hr⟩ := Graph.mem_mentions.mp hm
    obtain ⟨link, hlink, hempty⟩ := h.unlinked m.1 (hkeys.mem_iff.mp hkey) m.2 hr
    simp [Graph.isLinked_of_link hlink, hempty]
  · simp only [Sweep.finish, Tally.countHierarchies, htally.dangling, Nat.zero_add]
  · simp only [Sweep.finish, Tally.countHierarchies, htally.edges, Nat.zero_add]
  · simp only [Sweep.finish, Tally.countHierarchies, htally.built, Nat.zero_add]
    rw [length_eq_countP hswept.nodup_pending (hkeys.nodup_iff.mpr h.nodup)
      fun k hk => hkeys.mem_iff.mpr (hswept.pending_subset h hk)]
    simp only [hswept.mem_pending, Bool.decide_eq_true]

end Delivered

end Resolve

namespace Pipeline

variable {g : Graph} {project : ProjectKey}

theorem resolved_rerun (h : g.Loaded project) :
    (sweepOf g project).Finishes ∧ Resolved g project (g.declarationsOf project)
      (rerun project g) (sweepOf g project).finish.tally :=
  ((Swept.start h).delivered h).resolved h (List.Perm.refl _)

/-- A run over a loaded project succeeds. -/
theorem plainRun_spec (h : g.Loaded project) :
    ∃ t g', plainRun g project = (.ok t, g') ∧
      Resolved g project (g.declarationsOf project) g' t := by
  obtain ⟨hfinishes, hresolved⟩ := resolved_rerun h
  exact ⟨_, _, plainRun_eq hfinishes, hresolved⟩

/-- Delivering the declarations of a loaded project in any order succeeds. -/
theorem plainSignals_spec (h : g.Loaded project) {keys : List DeclKey}
    (hkeys : keys.Perm (g.declarationsOf project)) :
    ∃ t g', plainSignals g project (Signal.sweep keys) = (.ok t, g') ∧
      Resolved g project keys g' t := by
  have hdelivered : Delivered g project keys { graph := g }
      (keys.foldl (Sweep.deliver project) { graph := g }) :=
    Sweep.foldl_spec h (fun s key hs hkey => Sweep.deliver_spec h hs hkey)
      (hkeys.nodup_iff.mpr h.nodup) (fun _ hkey => hkeys.mem_iff.mp hkey) h.grown
  obtain ⟨hfinishes, hresolved⟩ := hdelivered.resolved h hkeys
  exact ⟨_, _, plainSignals_sweep hfinishes, hresolved⟩

end Pipeline

end Lineage
