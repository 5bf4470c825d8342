import Lineage.Proofs.Confinement

/-!
# Engines that listen

An engine that was made with the classes and the settings of the start has one resolver, and goes on
listening with it alone whatever events it fires.
-/

namespace Lineage.Pipeline

variable {υ : Type}

theorem forM_append_eq_bind {α : Type} (f : α → Action υ PUnit) (xs ys : List α) :
    (xs ++ ys).forM f = xs.forM f >>= fun _ => ys.forM f := by
  simp [List.forM_append]

theorem Reaches.forM_append {α : Type} {f : α → Action υ PUnit} {xs ys : List α}
    {w w' w'' : World υ} (hx : Reaches (xs.forM f) w ⟨⟩ w') (hy : Reaches (ys.forM f) w' ⟨⟩ w'') :
    Reaches ((xs ++ ys).forM f) w ⟨⟩ w'' := by
  rw [forM_append_eq_bind]
  exact hx.bind hy

def resolverOf (w : World υ) (engine : EngineKey) : Option PluginKey :=
  w.engines[engine]?.bind (·.plugins.lookup "type")

def pendingOf (w : World υ) (engine : EngineKey) : Worklist :=
  (((resolverOf w engine).bind (w.plugins[·]?)).map (·.pending)).getD []

/-- An engine whose only listener is its resolver, and the worklist of the latter. -/
structure Listens (engine : EngineKey) (plugin : PluginKey) (w : World υ) (pending : Worklist) :
    Prop where
  onBegin : callbacksOf w engine Event.begin = []
  onDeclaration : callbacksOf w engine Event.declaration = [.link plugin]
  onFinish : callbacksOf w engine Event.finish = [.finish plugin]
  resolver : resolverOf w engine = some plugin
  plugin : ∃ p, w.plugins[plugin]? = some p ∧ p.pending = pending

namespace Listens

variable {engine : EngineKey} {plugin : PluginKey} {w w' : World υ} {pending : Worklist}

theorem pendingOf_eq (h : Listens engine plugin w pending) : pendingOf w engine = pending := by
  obtain ⟨p, hp, rfl⟩ := h.plugin
  rw [pendingOf, h.resolver, Option.bind_some, hp]
  rfl

theorem serves (h : Listens engine plugin w pending) {run : RunKey} {project : ProjectKey}
    {t : Tally} (hrun : w.runs[run]? = some ⟨project, t⟩) :
    Serves engine plugin run project w ⟨w.graph, pending, t⟩ :=
  ⟨h.onBegin, h.onDeclaration, h.onFinish, rfl, h.plugin, hrun⟩

theorem addRun (h : Listens engine plugin w pending) (project : ProjectKey) :
    Listens engine plugin (w.addRun project) pending :=
  ⟨h.onBegin, h.onDeclaration, h.onFinish, h.resolver, h.plugin⟩

end Listens

/-- What events on behalf of a run leave: their engine listens, and no other run has changed. -/
structure Fired (engine : EngineKey) (plugin : PluginKey) (run : RunKey) (project : ProjectKey)
    (w w' : World υ) (s : Sweep) : Prop where
  listens : Listens engine plugin w' s.pending
  graph : w'.graph = s.graph
  counted : w'.runs[run]? = some ⟨project, s.tally⟩
  keeps : w.Keeps run w'

theorem Listens.fired {engine : EngineKey} {plugin : PluginKey} {run : RunKey}
    {project : ProjectKey} {w w' : World υ} {pending : Worklist} {s : Sweep}
    (h : Listens engine plugin w pending) (hs : Serves engine plugin run project w' s)
    (hk : w.Keeps run w') : Fired engine plugin run project w w' s where
  listens :=
    { onBegin := hs.onBegin
      onDeclaration := hs.onDeclaration
      onFinish := hs.onFinish
      resolver := by
        rw [resolverOf, hk.engines]
        exact h.resolver
      plugin := hs.handles.plugin }
  graph := hs.handles.graph
  counted := hs.handles.run
  keeps := hk

/-- A world with the classes and the settings of the start. -/
structure Standard (w : World υ) : Prop where
  registry : w.registry = [("type", .resolver)]
  settings : w.settings = Settings.initial

theorem engines_foldl_modifyEngine {w : World υ} {engine : EngineKey} {e : Engine}
    (h : w.engines[engine]? = some e) (steps : List (Engine → Engine)) :
    (steps.foldl (fun w f => w.modifyEngine engine f) w).engines[engine]? =
      some (steps.foldl (fun e f => f e) e) := by
  induction steps generalizing w e with
  | nil => exact h
  | cons f steps ih =>
    apply ih
    show (w.modifyEngine engine f).engines[engine]? = some (f e)
    rw [World.modifyEngine, Array.getElem?_modify, if_pos rfl, h, Option.map_some]

/-- In a standard world a new engine listens, whatever engines there are already. -/
theorem reaches_newEngine {w : World υ} (h : Standard w) :
    ∃ w', Reaches (newEngine []) w w.engines.size w' ∧
      Listens w.engines.size w.plugins.size w' [] ∧
      w'.graph = w.graph ∧ w'.runs = w.runs ∧ Standard w' := by
  obtain ⟨graph, engines, plugins, runs, registry, settings, user⟩ := w
  obtain ⟨rfl, rfl⟩ := h
  let made : World υ :=
    { graph := graph, engines := engines.push {}, runs := runs, user := user
      plugins := plugins.push { kind := .resolver, engine := engines.size } }
  -- The resolver subscribes twice, and the engine then knows it by name.
  let steps : List (Engine → Engine) :=
    [fun c => { c with
        listeners := c.listeners.subscribe Event.declaration (.link plugins.size) (.ofInt 0) },
      fun c => { c with
        listeners := c.listeners.subscribe Event.finish (.finish plugins.size) (.ofInt 0) },
      fun c => { c with plugins := c.plugins ++ [("type", plugins.size)] }]
  have hmade : made.engines[engines.size]? = some {} := Array.getElem?_push_size
  have hengine := engines_foldl_modifyEngine hmade steps
  refine ⟨steps.foldl (fun w f => w.modifyEngine engines.size f) made, rfl, ⟨?_, ?_, ?_, ?_, ?_⟩,
    rfl, rfl, rfl, rfl⟩
  · rw [callbacksOf, hengine]
    rfl
  · rw [callbacksOf, hengine]
    rfl
  · rw [callbacksOf, hengine]
    rfl
  · rw [resolverOf, hengine]
    rfl
  · exact ⟨_, Array.getElem?_push_size, rfl⟩

/-! ## Runs -/

def rerun (project : ProjectKey) (g : Graph) : Graph :=
  (sweepOf g project).finish.graph

/-- What a run leaves: its graph and its tally, and the tallies of the runs before it. -/
structure Ran (project : ProjectKey) (w w' : World υ) : Prop where
  graph : w'.graph = rerun project w.graph
  size : w'.runs.size = w.runs.size + 1
  tally : w'.tally w.runs.size = (sweepOf w.graph project).finish.tally
  others : ∀ other < w.runs.size, w'.tally other = w.tally other

section Run

variable {project : ProjectKey} {engine : EngineKey} {plugin : PluginKey} {w : World υ}

theorem reaches_runOver (hl : Listens engine plugin w [])
    (hfinishes : (sweepOf w.graph project).Finishes) :
    ∃ w', Reaches (runOver silent engine project) w w.runs.size w' ∧ Ran project w w' ∧
      Listens engine plugin w' [] ∧ (Standard w → Standard w') := by
  have hrun : (w.addRun project).runs[w.runs.size]? = some ⟨project, {}⟩ :=
    Array.getElem?_push_size
  have hserves := (hl.addRun project).serves hrun
  obtain ⟨w₁, hdeliver, hserves₁⟩ := reaches_forM
    (fun w s key hs => reaches_deliver silent hs key) hserves (w.graph.declarationsOf project)
  obtain ⟨w₂, hfinish, hserves₂⟩ := reaches_fire_finish silent hserves₁ hfinishes
  -- Deliveries and the end only count for the new run, so that the tallies before it stand.
  have hkeeps₁ : (w.addRun project).Keeps w.runs.size w₁ :=
    (moves_forM (fun key => confined_deliver engine key) _).of_reaches hdeliver
  have hkeeps : (w.addRun project).Keeps w.runs.size w₂ :=
    hkeeps₁.trans ((confined_signal engine .finish).keeps hfinish)
  have hfired := (hl.addRun project).fired hserves₂ hkeeps
  refine ⟨w₂, ?_, ⟨hfired.graph, ?_, ?_, ?_⟩, hfired.listens, ?_⟩
  · refine (reaches_get w).bind ?_
    refine (reaches_modify _ w).bind ?_
    refine (reaches_fire_begin silent hserves _).bind ?_
    refine (reaches_get _).bind ?_
    refine hdeliver.bind ?_
    exact hfinish.bind (reaches_pure _ w₂)
  · rw [hkeeps.size, World.addRun, Array.size_push]
  · rw [World.tally, hfired.counted]
    rfl
  · intro other hother
    rw [World.tally, World.tally, hkeeps.others other (Nat.ne_of_lt hother), World.addRun,
      Array.getElem?_push_lt hother, Array.getElem?_eq_getElem hother]
  · rintro ⟨hregistry, hsettings⟩
    exact ⟨hkeeps.registry.trans hregistry, hkeeps.settings.trans hsettings⟩

theorem reaches_runFresh (hs : Standard w) (hfinishes : (sweepOf w.graph project).Finishes) :
    ∃ w', Reaches (runFresh silent project) w w.runs.size w' ∧ Ran project w w' ∧
      Standard w' := by
  obtain ⟨w₀, hengine, hl, hgraph, hruns, hs₀⟩ := reaches_newEngine hs
  rw [← hgraph] at hfinishes
  obtain ⟨w₁, hrun, hran, -, hs₁⟩ := reaches_runOver hl hfinishes
  rw [hruns] at hrun
  refine ⟨w₁, hengine.bind hrun, ⟨?_, ?_, ?_, ?_⟩, hs₁ hs₀⟩
  · rw [hran.graph, hgraph]
  · rw [hran.size, hruns]
  · rw [← hruns, hran.tally, hgraph]
  · intro other hother
    rw [hran.others other (by rwa [hruns]), World.tally, World.tally, hruns]

end Run

/-! ## Plain runs -/

section Plain

variable {g : Graph} {project : ProjectKey}

theorem standard_start (g : Graph) : Standard ({ graph := g, user := () } : World Unit) :=
  ⟨rfl, rfl⟩

theorem reaches_firstEngine (g : Graph) :
    ∃ w, Reaches (newEngine []) ({ graph := g, user := () } : World Unit) 0 w ∧
      Listens 0 0 w [] ∧ w.graph = g ∧ w.runs = #[] :=
  let ⟨w, hengine, hl, hgraph, hruns, _⟩ := reaches_newEngine (standard_start g)
  ⟨w, hengine, hl, hgraph, hruns⟩

theorem plainRun_eq (h : (sweepOf g project).Finishes) :
    plainRun g project = (.ok (sweepOf g project).finish.tally, rerun project g) := by
  obtain ⟨w, hrun, hran, -⟩ := reaches_runFresh (standard_start g) h
  rw [plainRun, hrun]
  simp only [Except.map, hran.graph, hran.tally]

theorem plainSignals_sweep {keys : List DeclKey}
    (h : (keys.foldl (Sweep.deliver project) { graph := g }).Finishes) :
    plainSignals g project (Signal.sweep keys) =
      (.ok (keys.foldl (Sweep.deliver project) { graph := g }).finish.tally,
        (keys.foldl (Sweep.deliver project) { graph := g }).finish.graph) := by
  obtain ⟨w₀, hengine, hl, hgraph, -⟩ := reaches_firstEngine g
  have hrun : (w₀.addRun project).runs[w₀.runs.size]? = some ⟨project, {}⟩ :=
    Array.getElem?_push_size
  have hserves : Serves 0 0 w₀.runs.size project (w₀.addRun project) { graph := g } := by
    rw [← hgraph]
    exact (hl.addRun project).serves hrun
  obtain ⟨w₁, hdeliver, hserves₁⟩ := reaches_forM
    (fun w s key hs => reaches_fire_declaration silent hs key) hserves keys
  obtain ⟨w₂, hfinish, hserves₂⟩ := reaches_fire_finish silent hserves₁ h
  have hforM : (Signal.sweep keys).forM (signal silent 0 w₀.runs.size) =
      (keys.forM fun key => fire (υ := Unit) silent 0 Event.declaration
        ⟨w₀.runs.size, some (.declaration key)⟩) >>= fun _ =>
          fire silent 0 Event.finish ⟨w₀.runs.size, none⟩ := by
    simp [Signal.sweep, List.forM_append, List.forM_map, signal]
  have hreach : Reaches (signalFresh silent project (Signal.sweep keys))
      { graph := g, user := () } w₀.runs.size w₂ := by
    refine hengine.bind ?_
    refine (reaches_get w₀).bind ?_
    refine (reaches_modify _ w₀).bind ?_
    rw [hforM]
    exact (hdeliver.bind hfinish).bind (reaches_pure _ w₂)
  have htally : w₂.tally w₀.runs.size =
      (keys.foldl (Sweep.deliver project) { graph := g }).finish.tally := by
    rw [World.tally, hserves₂.handles.run]
    rfl
  rw [plainSignals, hreach]
  simp only [Except.map, htally, hserves₂.handles.graph]

end Plain

end Lineage.Pipeline
