import Lineage.Proofs.Engines
import Lineage.Proofs.Hierarchies
import Lineage.Proofs.Inverse
import Mathlib.Logic.Function.Iterate

/-!
# Runs one after the other

Running over a project again links nothing anew and leaves every back edge once more. What the
project comes to is said by the first run and the number of runs.
-/

namespace Lineage

/-! ## Sweeps one after the other -/

/-- The tally of a later run over a project, from that of the first: nothing is left to link. -/
def Tally.again (t : Tally) : Tally :=
  { t with referencesSeen := t.referencesDangling, referencesLinked := 0 }

namespace Swept

open Pipeline

variable {g g' : Graph} {project : ProjectKey} {done : List DeclKey}

theorem iterate (h : g.Loaded project) (n : Nat) :
    Swept g project (List.replicate n (g.declarationsOf project)).flatten []
      ((rerun project)^[n] g) [] := by
  induction n with
  | zero => exact Swept.start h
  | succ n ih =>
    rw [Function.iterate_succ_apply', List.replicate_succ', List.flatten_append,
      List.flatten_singleton]
    exact (ih.visited h).finish h

/-- A reference that names anything is linked once its declaration has been delivered. -/
theorem isLinked (hs : Swept g project done [] g' []) (h : g.Loaded project) {key : DeclKey}
    (hkey : key ∈ done) {r : Reference} (hr : r ∈ g.referencesAt key) :
    g'.isLinked r = (g.named? project (.declaration key) r).isSome := by
  have hmem : key ∈ done ++ [] := List.mem_append_left _ hkey
  obtain ⟨link, hlink, -⟩ := h.unlinked key (hs.within key hmem) r hr
  rw [Graph.isLinked_of_link hlink, hs.settled key hmem r hr link hlink, Option.join_some]

/-- A run over what runs have been over before only counts. -/
theorem tally_again (hs : Swept g project done [] g' []) (h : g.Loaded project)
    (hdone : g.declarationsOf project ⊆ done) :
    (sweepOf g' project).finish.tally = (sweepOf g project).finish.tally.again := by
  have hfirst := ((Swept.start h).delivered h).tally
  have hagain := (hs.delivered h).tally
  -- Whatever names anything has been linked already, so that only dangling references are seen.
  have hlinked : ((g.mentions (g.declarationsOf project)).countP fun m =>
      !g'.isLinked m.2 && (g.named? project (.declaration m.1) m.2).isSome) = 0 := by
    apply List.countP_eq_zero.mpr
    intro m hm
    obtain ⟨hkey, hr⟩ := Graph.mem_mentions.mp hm
    simp [hs.isLinked h (hdone hkey) hr]
  have hcount : (sweepOf g' project).tally.declarationsResolved =
      (sweepOf g project).tally.declarationsResolved := by
    rw [sweepOf, sweepOf, Sweep.declarationsResolved_foldl_visit,
      Sweep.declarationsResolved_foldl_visit, hs.alike.declarationsOf_eq]
  have hpending : (sweepOf g' project).pending = (sweepOf g project).pending := by
    rw [(hs.visited h).pending, ((Swept.start h).visited h).pending]
  ext
  · exact hcount
  · simp only [Sweep.finish, Tally.countHierarchies, Tally.again, hagain.seen, hlinked,
      hfirst.dangling, Nat.zero_add]
  · simp only [Sweep.finish, Tally.countHierarchies, Tally.again, hagain.linked, hlinked,
      Nat.zero_add]
  · simp only [Sweep.finish, Tally.countHierarchies, Tally.again, hagain.dangling,
      hfirst.dangling]
  · simp only [Sweep.finish, Tally.countHierarchies, Tally.again, hagain.edges, hfirst.edges]
  · simp only [Sweep.finish, Tally.countHierarchies, Tally.again, hagain.built, hfirst.built,
      hpending]

/-- All links are settled once every declaration has been delivered. -/
theorem links_eq {g₁ g₂ : Graph} {done₁ done₂ : List DeclKey}
    (h₁ : Swept g project done₁ [] g₁ []) (h₂ : Swept g project done₂ [] g₂ [])
    (hdone₁ : g.declarationsOf project ⊆ done₁) (hdone₂ : g.declarationsOf project ⊆ done₂) :
    g₂.links = g₁.links := by
  refine Graph.links_eq_of_mentions g (g.declarationsOf project) ?_ ?_
  · intro key hkey r hr link hlink
    rw [h₁.settled key (List.mem_append_left _ (hdone₁ hkey)) r hr link hlink,
      h₂.settled key (List.mem_append_left _ (hdone₂ hkey)) r hr link hlink]
  · intro link hnone
    rw [h₁.untouched link fun m hm => hnone m (Graph.mentions_subset h₁.within hm),
      h₂.untouched link fun m hm => hnone m (Graph.mentions_subset h₂.within hm)]

end Swept

/-! ## What a project comes to -/

/-- A declaration after `n` runs, from what it is after the first and what implements it. -/
structure Declaration.Repeats (d : Declaration) (key : DeclKey) (implementers : List Reference)
    (n : Nat) (d' : Declaration) : Prop where
  extendedBy : d'.extendedBy = d.extendedBy.map fun ts => (List.replicate n ts).flatten
  implementedBy : d'.implementedBy = nonempty?
    (((List.replicate n implementers).flatten.mergeSort (ascending (·.name))).map .reference)
  hierarchy : d'.hierarchy.isSome = d.hierarchy.isSome
  /-- A chain reads the lists of now. -/
  levels : ∀ levels, d'.levels? = some levels → levels =
    Hierarchy.chainOf d'.extendedTypes (.toDeclaration d'.name key) d'.extendedBy

/-- A project after `n` runs, from what it is after the first. -/
structure Graph.Repeats (g₁ : Graph) (project : ProjectKey) (n : Nat) (g' : Graph) : Prop where
  alike : Alike g₁ g'
  links : g'.links = g₁.links
  /-- Implementers are taken in ascending order of their ids. -/
  ids : (g₁.classesOf project).Pairwise g₁.IdBelow
  declaration : ∀ key ∈ g₁.declarationsOf project, ∃ d d', g₁.declaration? key = some d ∧
    g'.declaration? key = some d' ∧
    d.Repeats key (g₁.incoming project Declaration.implementedTypes key) n d'

theorem nonempty?_flatten_replicate {α : Type} (xs : List α) (n : Nat) :
    nonempty? (List.replicate (n + 1) xs).flatten =
      (nonempty? xs).map fun ys => (List.replicate (n + 1) ys).flatten := by
  cases xs with
  | nil => simp [nonempty?]
  | cons x xs => rfl

theorem Declaration.repeats_resolved {d : Declaration} (hd : d.hierarchy = none) (key : DeclKey)
    (implementers extenders : List Reference) (awaited : Bool) (n : Nat) :
    (d.resolved key implementers extenders awaited).Repeats key implementers (n + 1)
      (d.resolved key (List.replicate (n + 1) implementers).flatten
        (List.replicate (n + 1) extenders).flatten awaited) where
  extendedBy := by
    rw [extendedBy_resolved, extendedBy_resolved, List.map_flatten, List.map_replicate,
      nonempty?_flatten_replicate]
  implementedBy := implementedBy_resolved d key _ _ awaited
  hierarchy := by rw [isSome_hierarchy_resolved hd, isSome_hierarchy_resolved hd]
  levels levels hlevels := by
    rw [levels?_resolved hd] at hlevels
    cases awaited with
    | false => cases hlevels
    | true => exact (Option.some.inj hlevels).symm

theorem Graph.received_flatten_replicate (g : Graph) (project : ProjectKey)
    (types : Declaration → Option (List TypeExpr)) (keys : List DeclKey) (target : DeclKey)
    (n : Nat) : g.received project types (List.replicate n keys).flatten target =
      (List.replicate n (g.received project types keys target)).flatten := by
  induction n with
  | zero => rfl
  | succ n ih =>
    rw [List.replicate_succ, List.replicate_succ, List.flatten_cons, List.flatten_cons,
      received_append, ih]

theorem Graph.awaited_flatten_replicate (g : Graph) (project : ProjectKey) (keys : List DeclKey)
    (target : DeclKey) (n : Nat) :
    g.awaited project (List.replicate (n + 1) keys).flatten target =
      g.awaited project keys target := by
  induction n with
  | zero => simp
  | succ n ih =>
    rw [List.replicate_succ, List.flatten_cons, awaited_append, ih, Bool.or_self]

section Repeat

open Pipeline

variable {g : Graph} {project : ProjectKey}

theorem subset_flatten_replicate (keys : List DeclKey) (n : Nat) :
    keys ⊆ (List.replicate (n + 1) keys).flatten := by
  rw [List.replicate_succ, List.flatten_cons]
  exact List.subset_append_left keys _

theorem Graph.Loaded.repeats (h : g.Loaded project)
    (hids : (g.declarationsOf project).Pairwise g.IdBelow) (n : Nat) :
    (rerun project g).Repeats project (n + 1) ((rerun project)^[n + 1] g) where
  alike := (Swept.iterate h 1).alike.symm.trans (Swept.iterate h (n + 1)).alike
  links := (Swept.iterate h 1).links_eq (Swept.iterate h (n + 1)) (subset_flatten_replicate _ 0)
    (subset_flatten_replicate _ n)
  ids := ((resolved_rerun h).2.inverted h hids).ids
  declaration key hkey := by
    have hfirst := (resolved_rerun h).2
    rw [hfirst.alike.declarationsOf_eq] at hkey
    obtain ⟨d, hd, hnone, hd₁⟩ := hfirst.exists_resolved h hkey
    have hlast := (Swept.iterate h (n + 1)).declaration key hkey
    rw [hd, Option.map_some, Graph.received_flatten_replicate, Graph.received_flatten_replicate,
      Graph.awaited_flatten_replicate] at hlast
    refine ⟨_, _, hd₁, hlast, ?_⟩
    rw [hfirst.incoming_eq h Declaration.visited_implementedTypes]
    exact Declaration.repeats_resolved hnone key _ _ _ n

theorem Graph.Loaded.tallies (h : g.Loaded project) (n : Nat) :
    ((List.range (n + 1)).map fun k => (sweepOf ((rerun project)^[k] g) project).finish.tally) =
      (sweepOf g project).finish.tally ::
        List.replicate n (sweepOf g project).finish.tally.again := by
  rw [List.range_succ_eq_map, List.map_cons, List.map_map]
  refine congrArg _ (List.eq_replicate_iff.mpr ⟨by simp, ?_⟩)
  intro t ht
  obtain ⟨k, -, rfl⟩ := List.mem_map.mp ht
  exact (Swept.iterate h (k + 1)).tally_again h (subset_flatten_replicate _ k)

end Repeat

/-! ## Runs one after the other -/

namespace Pipeline

variable {υ : Type}

def repeated (run : Action υ RunKey) : Nat → Action υ (List RunKey)
  | 0 => return []
  | n + 1 => do
    let key ← run
    return key :: (← repeated run n)

/-- Whether each run gets an engine of its own, or one engine serves them all. -/
inductive Service
  | renewed
  | shared

def runRepeatedly (react : Reactions υ) (service : Service) (project : ProjectKey) (n : Nat) :
    Action υ (List RunKey) :=
  match service with
  | .renewed => repeated (runFresh react project) n
  | .shared => do repeated (runOver react (← newEngine []) project) n

/--
Runs over a project without a listener of a user: the tallies in order, or a fault, and the graph
they leave.
-/
def plainRuns (service : Service) (g : Graph) (project : ProjectKey) (n : Nat) :
    Except Fault (List Tally) × Graph :=
  let (outcome, w) :=
    (runRepeatedly silent service project n).run.run ({ graph := g, user := () } : World Unit)
  (outcome.map (·.map w.tally), w.graph)

section Run

variable {project : ProjectKey} {engine : EngineKey} {plugin : PluginKey} {w : World υ}

/-- Runs that each leave what a run leaves, for as long as an invariant of worlds holds. -/
theorem reaches_repeated {run : Action υ RunKey} {holds : World υ → Prop}
    (hrun : ∀ w, holds w → (sweepOf w.graph project).Finishes →
      ∃ w', Reaches run w w.runs.size w' ∧ Ran project w w' ∧ holds w')
    {n : Nat} (hw : holds w)
    (hfinishes : ∀ k < n, (sweepOf ((rerun project)^[k] w.graph) project).Finishes) :
    ∃ keys w', Reaches (repeated run n) w keys w' ∧ w'.graph = (rerun project)^[n] w.graph ∧
      keys.map w'.tally = (List.range n).map
        (fun k => (sweepOf ((rerun project)^[k] w.graph) project).finish.tally) ∧
      ∀ other < w.runs.size, w'.tally other = w.tally other := by
  induction n generalizing w with
  | zero => exact ⟨[], w, reaches_pure [] w, rfl, rfl, fun _ _ => rfl⟩
  | succ n ih =>
    -- The later runs start from the graph of the first one, one power of `rerun` further on.
    obtain ⟨w₁, hfirst, hran, hw₁⟩ := hrun w hw (hfinishes 0 (Nat.succ_pos n))
    obtain ⟨keys, w₂, hrest, hgraph, htallies, hothers⟩ := ih hw₁ fun k hk => by
      rw [hran.graph, ← Function.iterate_succ_apply]
      exact hfinishes (k + 1) (Nat.succ_lt_succ hk)
    refine ⟨w.runs.size :: keys, w₂, hfirst.bind (hrest.bind (reaches_pure _ w₂)), ?_, ?_, ?_⟩
    · rw [hgraph, hran.graph, ← Function.iterate_succ_apply]
    · rw [List.map_cons, htallies, hothers w.runs.size (by rw [hran.size]; omega), hran.tally,
        List.range_succ_eq_map, List.map_cons, List.map_map, hran.graph]
      rfl
    · intro other hother
      rw [hothers other (by rw [hran.size]; omega), hran.others other hother]

end Run

theorem plainRuns_eq {g : Graph} {project : ProjectKey} {n : Nat}
    (hfinishes : ∀ k < n, (sweepOf ((rerun project)^[k] g) project).Finishes)
    (service : Service) :
    plainRuns service g project n = (.ok ((List.range n).map
      fun k => (sweepOf ((rerun project)^[k] g) project).finish.tally),
        (rerun project)^[n] g) := by
  obtain ⟨keys, w, hreach, hgraph, htallies⟩ : ∃ keys w,
      Reaches (runRepeatedly silent service project n) { graph := g, user := () } keys w ∧
        w.graph = (rerun project)^[n] g ∧ keys.map w.tally = (List.range n).map
          fun k => (sweepOf ((rerun project)^[k] g) project).finish.tally := by
    cases service with
    | renewed =>
      obtain ⟨keys, w, hreach, hgraph, htallies, -⟩ := reaches_repeated
        (fun w hw hf => reaches_runFresh hw hf) (standard_start g) hfinishes
      exact ⟨keys, w, hreach, hgraph, htallies⟩
    | shared =>
      obtain ⟨w₀, hengine, hl, rfl, -⟩ := reaches_firstEngine g
      have hrun : ∀ w : World Unit, Listens 0 0 w [] → (sweepOf w.graph project).Finishes →
          ∃ w', Reaches (runOver silent 0 project) w w.runs.size w' ∧ Ran project w w' ∧
            Listens 0 0 w' [] := by
        intro w hw hf
        obtain ⟨w', hreach, hran, hl', -⟩ := reaches_runOver hw hf
        exact ⟨w', hreach, hran, hl'⟩
      obtain ⟨keys, w, hreach, hgraph, htallies, -⟩ := reaches_repeated hrun hl hfinishes
      exact ⟨keys, w, hengine.bind hreach, hgraph, htallies⟩
  rw [plainRuns, hreach]
  simp only [Except.map, htallies, hgraph]

/--
Running over a described project again, with new engines or with one, links nothing and leaves the
back edges of the first run once more each time.
-/
theorem plainRuns_repeat {g₀ g : Graph} {source : String} {spec : Description}
    (h : g₀.adopt source spec = .ok g) :
    ∃ t₁ g₁, plainRun g g₀.projects.size = (.ok t₁, g₁) ∧ ∀ (service : Service) (n : Nat),
      ∃ g', plainRuns service g g₀.projects.size (n + 1) =
        (.ok (t₁ :: List.replicate n t₁.again), g') ∧ g₁.Repeats g₀.projects.size (n + 1) g' := by
  have hadopted := Graph.adopt_spec h
  have hloaded := hadopted.loaded
  refine ⟨_, _, plainRun_eq (resolved_rerun hloaded).1, fun service n => ⟨_, ?_,
    hloaded.repeats hadopted.pairwise_idBelow n⟩⟩
  rw [plainRuns_eq (fun k _ => ?_) service, hloaded.tallies]
  exact (((Swept.iterate hloaded k).visited hloaded).chained hloaded).1

theorem plainRuns_repeat_sample :
    ∃ g, Graph.empty.adopt "sample" Description.sample = .ok g ∧
      ∃ t₁ g₁, plainRun g 0 = (.ok t₁, g₁) ∧ ∀ (service : Service) (n : Nat),
        ∃ g', plainRuns service g 0 (n + 1) = (.ok (t₁ :: List.replicate n t₁.again), g') ∧
          g₁.Repeats 0 (n + 1) g' := by
  obtain ⟨g, h⟩ := Graph.exists_adopt_sample
  have hrepeat := plainRuns_repeat h
  exact ⟨g, h, hrepeat⟩

end Pipeline

end Lineage
