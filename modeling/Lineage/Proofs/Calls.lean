import Lineage.Proofs.Aborts
import Lineage.Proofs.Realization
import Mathlib.Data.List.Induction

/-!
# Calls over project after project

An engine with listeners is called over loaded projects, each once, and any call may break off.
What a call does to its project is what it would do with a new engine. Only what calls that broke
off have left on the worklist tells the two apart: the next call that comes to its end builds and
counts those hierarchies as well.
-/

namespace Lineage

namespace Pipeline

variable {υ : Type}

/-! ## Calls compared -/

/--
A call over a project in a world `w`, compared to one of a new engine. Where the worklist of `w` has
been flushed, its declarations have got their chains.
-/
structure Recalls (g : Graph) (project : ProjectKey) (flushed : Bool) (w : World υ)
    (call fresh : Except Fault Tally × World υ) : Prop where
  outcome : call.1 = fresh.1.map (·.plus (pendingOf w 0).length)
  view : call.2.graph.view project = fresh.2.graph.view project
  projects : call.2.graph.projects = fresh.2.graph.projects
  user : call.2.user = fresh.2.user
  declaration : ∀ key ∉ g.declarationsOf project, call.2.graph.declaration? key =
    (w.graph.declaration? key).map fun d => d.flush (pendingOf w 0) flushed key
  links : ∀ link, (∀ m ∈ g.mentions (g.declarationsOf project), m.2.link? ≠ some link) →
    call.2.graph.links[link]? = w.graph.links[link]?
  pending : pendingOf call.2 0 = (pendingOf w 0).unflushed flushed ++ pendingOf fresh.2 0
  completed : ∀ tally, fresh.1 = .ok tally → flushed = true
  cleared : flushed = true → pendingOf fresh.2 0 = []

theorem Hears.pendingOf_eq {e : Engine} (he : Hears e) {w : World υ} (hw : w.engines = #[e])
    {p : Plugin} (hp : w.plugins[0]? = some p) : pendingOf w 0 = p.pending := by
  have hresolver : resolverOf w 0 = some 0 := by
    rw [resolverOf, hw]
    exact he.resolver
  rw [pendingOf, hresolver, Option.bind_some, hp]
  rfl

/-- What the worlds of two calls say of the calls, if the outcomes are alike. -/
theorem Beside.recalls {g : Graph} {project : ProjectKey} {e : Engine} {run fresh : RunKey}
    {flushed : Bool} {w w' v' : World υ}
    (hb : Beside g project (pendingOf w 0) w.graph e run fresh flushed w' v')
    (h : g.Loaded project) (he : Hears e) {outcome outcome' : Except Fault Tally}
    (houtcome : outcome = outcome'.map (·.plus (pendingOf w 0).length))
    (hcompleted : ∀ tally, outcome' = .ok tally → flushed = true) :
    Recalls g project flushed w (outcome, w') (outcome', v') := by
  obtain ⟨hengines, huser, s, t, hs, ht, hc, hcleared⟩ := hb
  obtain ⟨p, hp, hpending⟩ := hs.plugin
  obtain ⟨p', hp', hpending'⟩ := ht.plugin
  have hw : pendingOf w' 0 = s.pending := (he.pendingOf_eq hengines.1 hp).trans hpending
  have hv : pendingOf v' 0 = t.pending := (he.pendingOf_eq hengines.2 hp').trans hpending'
  refine ⟨houtcome, ?_, ?_, huser, ?_, ?_, ?_, hcompleted, ?_⟩
  · rw [hs.graph, ht.graph, hc.view_eq h]
  · rw [hs.graph, ht.graph, hc.grown.alike.projects, hc.fresh.alike.projects]
  · rw [hs.graph]
    exact hc.others
  · rw [hs.graph]
    exact hc.otherLinks
  · rw [hw, hv, hc.pending]
  · rw [hv]
    exact hcleared

/-! ## Between calls -/

/--
How the world of an engine stands when some projects have been called: what is on its worklist is
from those, and all others are as they were loaded.
-/
structure Between (g : Graph) (first : Nat) (e : Engine) (called : List ProjectKey)
    (w : World υ) : Prop where
  engines : w.engines = #[e]
  plugin : ∃ p, w.plugins[0]? = some p
  grown : ∀ p, first ≤ p ∧ p < g.projects.size → g.Grown p w.graph
  untouched : ∀ p, first ≤ p ∧ p < g.projects.size → p ∉ called → g.Untouched w.graph p
  nodup : (pendingOf w 0).Nodup
  within : ∀ key ∈ pendingOf w 0, ∃ p ∈ called,
    (first ≤ p ∧ p < g.projects.size) ∧ key ∈ g.declarationsOf p

namespace Between

variable {g : Graph} {first : Nat} {e : Engine} {called : List ProjectKey} {w : World υ}
  {project : ProjectKey}

theorem start (hl : g.Lined first) (he : Hears e) (user : υ) :
    Between g first e [] (housing e g user) := by
  have hplugin : (housing e g user).plugins[0]? = some ⟨.resolver, 0, []⟩ := rfl
  have hpending := he.pendingOf_eq rfl hplugin
  refine ⟨rfl, ⟨_, rfl⟩, fun p hp => (hl.loaded p hp.1 hp.2).grown,
    fun _ _ _ => ⟨fun _ _ => rfl, fun _ _ _ _ => rfl⟩, ?_, ?_⟩
  · rw [hpending]
    exact List.nodup_nil
  · simp [hpending]

section Call

variable (hb : Between g first e called w) (hl : g.Lined first)
  (hp : first ≤ project ∧ project < g.projects.size) (hnot : project ∉ called)
include hb hl

/-- Nothing of a project that was not called is on the worklist. -/
theorem notMem {other : ProjectKey} (hother : first ≤ other ∧ other < g.projects.size)
    (hnot : other ∉ called) : ∀ key ∈ pendingOf w 0, key ∉ g.declarationsOf other := by
  intro key hkey hmem
  obtain ⟨p, hcalled, hp, hown⟩ := hb.within key hkey
  have hne : p ≠ other := fun he => hnot (he ▸ hcalled)
  exact (hl.apart_of_ne hp hother hne).keys hown hmem

include hp hnot

theorem foreign : (pendingOf w 0).Foreign g project w.graph where
  nodup := hb.nodup
  notMem := hb.notMem hl hp hnot
  sortable key hkey := by
    obtain ⟨p, -, hp, hown⟩ := hb.within key hkey
    exact (hb.grown p hp).sortable hown

theorem beside (he : Hears e) : Beside g project (pendingOf w 0) w.graph e w.runs.size 0 false
    (w.addRun project) ((housing e g w.user).addRun project) := by
  obtain ⟨p, hplugin⟩ := hb.plugin
  have hcarries := (hb.untouched project hp hnot).carries (hl.loaded project hp.1 hp.2)
    (hb.grown project hp) (pendingOf w 0)
  exact ⟨⟨hb.engines, rfl⟩, rfl, _, _,
    ⟨rfl, ⟨p, hplugin, (he.pendingOf_eq hb.engines hplugin).symm⟩, Array.getElem?_push_size⟩,
    ⟨rfl, ⟨_, rfl, rfl⟩, rfl⟩, hcarries, nofun⟩

/-- At whatever stage a call ends, it is between calls again. -/
theorem of_beside (he : Hears e) {run fresh : RunKey} {flushed : Bool} {w' v' : World υ}
    (hrel : Beside g project (pendingOf w 0) w.graph e run fresh flushed w' v') :
    Between g first e (called ++ [project]) w' := by
  obtain ⟨hengines, -, s, t, hs, -, hc, -⟩ := hrel
  obtain ⟨p, hplugin, hpending⟩ := hs.plugin
  have hapart : ∀ {other : ProjectKey}, first ≤ other ∧ other < g.projects.size →
      other ≠ project → g.Apart project other := fun hother hne =>
    hl.apart_of_ne hp hother hne.symm
  have hkept : pendingOf w' 0 = s.pending := (he.pendingOf_eq hengines.1 hplugin).trans hpending
  refine ⟨hengines.1, ⟨p, hplugin⟩, fun other hother => ?_, fun other hother hnew => ?_, ?_, ?_⟩
  · rw [hs.graph]
    by_cases hsame : other = project
    · exact hsame ▸ hc.grown
    · exact hc.grown_other (hapart hother hsame) (hb.grown other hother)
  · rw [List.mem_append, List.mem_singleton, not_or] at hnew
    rw [hs.graph]
    exact hc.untouched_other (hapart hother hnew.2) (hb.untouched other hother hnew.1)
      (hb.notMem hl hother hnew.1)
  · rw [hkept]
    exact hc.nodup_pending (hb.foreign hl hp hnot)
  · intro key hkey
    rw [hkept] at hkey
    rcases hc.mem_pending.mp hkey with ⟨-, hcarried⟩ | hown
    · obtain ⟨q, hq, hrange, hmem⟩ := hb.within key hcarried
      exact ⟨q, List.mem_append_left _ hq, hrange, hmem⟩
    · exact ⟨project, by simp, hp, hc.within hown⟩

/-- One call: it compares to one of a new engine, and is between calls again. -/
theorem call (he : Hears e) (watch : Watch υ) :
    (∃ flushed, Recalls g project flushed w (callOver (watching watch) 0 project w)
      (callOver (watching watch) 0 project (housing e g w.user))) ∧
    Between g first e (called ++ [project]) (callOver (watching watch) 0 project w).2 := by
  have hloaded := hl.loaded project hp.1 hp.2
  have hends := alike_events watch hloaded (hb.foreign hl hp hnot) he _ _
    (hb.beside hl hp hnot he)
  rw [callOver_eq, callOver_eq]
  simp only [show (housing e g w.user).runs.size = 0 from rfl]
  generalize (events (watching watch) 0 w.runs.size project).run.run (w.addRun project) = r
    at hends ⊢
  generalize (events (watching watch) 0 0 project).run.run
    ((housing e g w.user).addRun project) = r' at hends ⊢
  cases hends with
  | failed fault stage hrel =>
    exact ⟨⟨stage, hrel.recalls hloaded he rfl nofun⟩, hb.of_beside hl hp hnot he hrel⟩
  | done hrel =>
    refine ⟨⟨true, hrel.recalls hloaded he ?_ fun _ _ => rfl⟩, hb.of_beside hl hp hnot he hrel⟩
    obtain ⟨-, -, s, t, hs, ht, hc, -⟩ := hrel
    simp only [Except.map, World.tally, hs.run, ht.run, hc.tally]
    rfl

end Call

/-- Calls over projects that differ, each of which is as it was loaded. -/
theorem calls (hl : g.Lined first) (he : Hears e) (watch : Watch υ) (user : υ)
    {called : List ProjectKey} (hnodup : called.Nodup)
    (hrange : ∀ p ∈ called, first ≤ p ∧ p < g.projects.size) :
    Between g first e called (afterCalls (watching watch) 0 (housing e g user) called) := by
  -- The last call of all comes behind calls for which the induction holds.
  induction called using List.reverseRecOn with
  | nil => exact start hl he user
  | append_singleton called project ih =>
    obtain ⟨hcalled, -, hnot⟩ := List.nodup_append.mp hnodup
    have hb := ih hcalled fun p hp => hrange p (List.mem_append_left _ hp)
    rw [afterCalls, List.foldl_append]
    exact (hb.call hl (hrange project (by simp))
      (fun hmem => hnot project hmem project (by simp) rfl) he watch).2

end Between

/-! ## The result -/

/--
A call over a loaded project that is new to its engine, after calls over others of which any may
have broken off, compares to a call of a new engine with the same listeners. What the worklist
holds when it begins is from the projects before it, and tells how the two differ.
-/
theorem callOver_recalls {g₀ g : Graph} {specs : List (String × Description)}
    (h : g₀.adoptAll specs = .ok g) (watch : Watch υ) (extras : List (Listener String)) (user : υ)
    {called : List ProjectKey} {project : ProjectKey} (hnodup : (called ++ [project]).Nodup)
    (hrange : ∀ p ∈ called ++ [project], g₀.projects.size ≤ p ∧ p < g.projects.size) :
    let w := afterCalls (watching watch) 0 (served extras g user) called
    (∀ key ∈ pendingOf w 0, ∃ p ∈ called, key ∈ g.declarationsOf p) ∧
      ∃ flushed, Recalls g project flushed w (callOver (watching watch) 0 project w)
        (callOver (watching watch) 0 project (served extras g w.user)) := by
  intro w
  have hl := Graph.lined_of_adoptAll h
  have he : Hears (extras.foldl hear resolving) := hears_foldl_hear hears_resolving extras
  obtain ⟨hcalled, -, hnot⟩ := List.nodup_append.mp hnodup
  have hb : Between g g₀.projects.size (extras.foldl hear resolving) called w := by
    have hcalls := Between.calls hl he watch user hcalled fun p hp =>
      hrange p (List.mem_append_left _ hp)
    rwa [← served_eq] at hcalls
  have hcall := hb.call hl (hrange project (by simp))
    (fun hmem => hnot project hmem project (by simp) rfl) he watch
  rw [served_eq]
  refine ⟨fun key hkey => ?_, hcall.1⟩
  obtain ⟨p, hp, -, hown⟩ := hb.within key hkey
  exact ⟨p, hp, hown⟩

end Pipeline

def Description.single (name : String) : Description where
  name := name
  declarations :=
    [ { id := 1, name := name, kind := "class", symbol := none, parent := none,
        type := none, inheritedFrom := none, overwrites := none,
        extendedTypes := [], implementedTypes := [], decorators := [] } ]

namespace Pipeline

/-- A listener at the end of a run, which is served ahead of the resolver. -/
def guardFinish : Listener String := ⟨Event.finish, .ofInt 1, "guard"⟩

def failOnce : Watch Bool := fun _ _ failed =>
  if failed then (.ok (), true) else (.error (.unknownSetting "extra"), true)

theorem callOver_recalls_guarded :
    ∃ g, Graph.empty.adoptAll [("sample", .sample), ("nested", .nested)] = .ok g ∧
      ([0] ++ [1]).Nodup ∧ (∀ p ∈ [0] ++ [1], 0 ≤ p ∧ p < g.projects.size) ∧
      let w := afterCalls (watching failOnce) 0 (served [guardFinish] g false) [0]
      (∀ key ∈ pendingOf w 0, ∃ p ∈ [0], key ∈ g.declarationsOf p) ∧
        ∃ flushed, Recalls g 1 flushed w (callOver (watching failOnce) 0 1 w)
          (callOver (watching failOnce) 0 1 (served [guardFinish] g w.user)) := by
  obtain ⟨g, h, hsize⟩ : ∃ g, Graph.empty.adoptAll [("sample", .sample), ("nested", .nested)] =
      .ok g ∧ g.projects.size = 2 :=
    ⟨_, eq_ok_getD (by decide +kernel) .empty, by decide +kernel⟩
  have hnodup : ([0] ++ [1]).Nodup := by decide
  have hrange : ∀ p ∈ [0] ++ [1], 0 ≤ p ∧ p < g.projects.size := by
    rw [hsize]
    decide
  have hrecalls := callOver_recalls h failOnce [guardFinish] false hnodup hrange
  exact ⟨g, h, hnodup, hrange, hrecalls⟩

/--
A run that broke off has left a class on the worklist. The next run counts it, and gives it a chain,
though it is of the project before.
-/
theorem callOver_leftover :
    ∃ g, Graph.empty.adoptAll [("a", .single "A"), ("b", .single "B")] = .ok g ∧
      let w := afterCalls (watching failOnce) 0 (served [guardFinish] g false) [0]
      let call := callOver (watching failOnce) 0 1 w
      call.1.toOption = some { declarationsResolved := 1, hierarchiesBuilt := 2 } ∧
        (callOver (watching failOnce) 0 1 (served [guardFinish] g w.user)).1.toOption =
          some { declarationsResolved := 1, hierarchiesBuilt := 1 } ∧
        g.declarationsOf 0 = [0] ∧
        (w.graph.declaration? 0).map (·.hierarchy.isSome) = some false ∧
        (call.2.graph.declaration? 0).map (·.hierarchy.isSome) = some true := by
  refine ⟨_, eq_ok_getD (by decide +kernel) .empty, ?_, ?_, ?_, ?_, ?_⟩
  all_goals decide +kernel

end Pipeline

end Lineage
