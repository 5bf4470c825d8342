import Lineage.Pipeline

/-!
# Sweeps

What the only resolver of an engine does to the graph, to its worklist and to the tally of a run,
without the world around it. Every event of the engine acts on its world as the sweep says.
-/

namespace Lineage

/-- What a resolver works on in a run. -/
structure Sweep where
  graph : Graph
  pending : Worklist := []
  tally : Tally := {}

namespace Sweep

def deliver (project : ProjectKey) (s : Sweep) (key : DeclKey) : Sweep :=
  let l := Linking.declaration project key ⟨s.graph, s.tally⟩
  let c := l.graph.addBackEdges s.pending key
  ⟨c.graph, c.pending, l.tally.countBackEdges c.added⟩

def visit (project : ProjectKey) (s : Sweep) (key : DeclKey) : Sweep :=
  let s := s.deliver project key
  { s with tally := s.tally.countDeclaration }

/-- Builds the hierarchies that are awaited. -/
def finish (s : Sweep) : Sweep :=
  ⟨(s.graph.storeChains s.pending).1, [], s.tally.countHierarchies s.pending.length⟩

def Finishes (s : Sweep) : Prop :=
  (s.graph.storeChains s.pending).2 = true

end Sweep

namespace Pipeline

variable {υ α β : Type}

/-! ## Actions -/

/-- An action succeeds with a value and leaves a world behind. -/
def Reaches (x : Action υ α) (w : World υ) (a : α) (w' : World υ) : Prop :=
  x.run.run w = (.ok a, w')

theorem Reaches.bind {x : Action υ α} {f : α → Action υ β} {w w' w'' : World υ} {a : α} {b : β}
    (hx : Reaches x w a w') (hf : Reaches (f a) w' b w'') : Reaches (x >>= f) w b w'' := by
  unfold Reaches at *
  rw [ExceptT.run_bind, StateT.run_bind, hx]
  exact hf

theorem reaches_pure (a : α) (w : World υ) : Reaches (pure a) w a w :=
  rfl

theorem reaches_get (w : World υ) : Reaches get w w w :=
  rfl

theorem reaches_set (w w' : World υ) : Reaches (set w') w () w' :=
  rfl

theorem reaches_modify (f : World υ → World υ) (w : World υ) : Reaches (modify f) w () (f w) :=
  rfl

/-! ## Worlds that serve a run -/

def callbacksOf (w : World υ) (engine : EngineKey) (event : String) : List Callback :=
  (w.engines[engine]?.map (·.listeners.callbacks event)).getD []

/-- A resolver and a run over a project, and how far they are. -/
structure Handles (plugin : PluginKey) (run : RunKey) (project : ProjectKey) (w : World υ)
    (s : Sweep) : Prop where
  graph : w.graph = s.graph
  plugin : ∃ p, w.plugins[plugin]? = some p ∧ p.pending = s.pending
  run : w.runs[run]? = some ⟨project, s.tally⟩

/-- An engine whose only listener is a resolver, a run over a project, and how far they are. -/
structure Serves (engine : EngineKey) (plugin : PluginKey) (run : RunKey) (project : ProjectKey)
    (w : World υ) (s : Sweep) : Prop where
  onBegin : callbacksOf w engine Event.begin = []
  onDeclaration : callbacksOf w engine Event.declaration = [.link plugin]
  onFinish : callbacksOf w engine Event.finish = [.finish plugin]
  handles : Handles plugin run project w s

theorem runs_modifyTally {w : World υ} {run : RunKey} {r : Run} (h : w.runs[run]? = some r)
    (f : Tally → Tally) :
    (w.modifyTally run f).runs[run]? = some { r with tally := f r.tally } := by
  rw [World.modifyTally, Array.getElem?_modify, if_pos rfl, h, Option.map_some]

theorem tally_modifyTally (w : World υ) (run : RunKey) (f : Tally → Tally) :
    (w.modifyTally run f).tally run = (w.runs[run]?.map fun r => f r.tally).getD {} := by
  rw [World.tally, World.modifyTally, Array.getElem?_modify, if_pos rfl, Option.map_map]
  rfl

theorem plugins_setPending {w : World υ} {plugin : PluginKey} {p : Plugin}
    (h : w.plugins[plugin]? = some p) (pending : Worklist) :
    (w.setPending plugin pending).plugins[plugin]? = some { p with pending := pending } := by
  rw [World.setPending, Array.getElem?_modify, if_pos rfl, h, Option.map_some]

section Events

variable {engine : EngineKey} {plugin : PluginKey} {run : RunKey} {project : ProjectKey}
variable {w : World υ} {s : Sweep} (react : Reactions υ)

theorem reaches_fire_nil {event : String} (h : callbacksOf w engine event = [])
    (occurrence : Occurrence) : Reaches (fire react engine event occurrence) w () w := by
  refine (reaches_get w).bind ?_
  rw [callbacksOf] at h
  simp only [h]
  exact reaches_pure () w

theorem reaches_fire_singleton {event : String} {callback : Callback} {w' : World υ}
    (h : callbacksOf w engine event = [callback]) {occurrence : Occurrence}
    (hcall : Reaches (call react occurrence callback) w () w') :
    Reaches (fire react engine event occurrence) w () w' := by
  refine (reaches_get w).bind ?_
  rw [callbacksOf] at h
  simp only [h]
  exact hcall.bind (reaches_pure () w')

theorem reaches_linkDeclaration (h : Handles plugin run project w s) (key : DeclKey) :
    ∃ w', Reaches (linkDeclaration plugin run key) w () w' ∧
      Handles plugin run project w' (s.deliver project key) ∧ w'.engines = w.engines ∧
      w'.user = w.user := by
  obtain ⟨p, hp, hpending⟩ := h.plugin
  have htally : w.tally run = s.tally := by rw [World.tally, h.run]; rfl
  let l := Linking.declaration project key ⟨s.graph, s.tally⟩
  let c := l.graph.addBackEdges s.pending key
  let linked := w.setLinking run l
  let w' := (({ linked with graph := c.graph }).setPending plugin c.pending).modifyTally run
    (·.countBackEdges c.added)
  have hreach : Reaches (linkDeclaration plugin run key) w () w' := by
    refine (congrArg (fun v => (Except.ok (), v)) ?_ : _ = (Except.ok (), w'))
    simp only [hp, h.run, World.link, World.linking, htally, h.graph, hpending]
    rfl
  have hrun : linked.runs[run]? = some ⟨project, l.tally⟩ :=
    runs_modifyTally (w := { w with graph := l.graph }) h.run _
  refine ⟨w', hreach, ⟨rfl, ?_, ?_⟩, rfl, rfl⟩
  · exact ⟨_, plugins_setPending (w := { linked with graph := c.graph }) hp c.pending, rfl⟩
  · exact runs_modifyTally (w := ({ linked with graph := c.graph }).setPending plugin c.pending)
      hrun _

theorem reaches_finishRun (h : Handles plugin run project w s) (hs : s.Finishes) :
    ∃ w', Reaches (finishRun plugin run) w () w' ∧ Handles plugin run project w' s.finish ∧
      w'.engines = w.engines ∧ w'.user = w.user := by
  obtain ⟨p, hp, hpending⟩ := h.plugin
  have hstore : w.graph.storeChains p.pending = (s.finish.graph, true) := by
    rw [h.graph, hpending, ← hs]
    rfl
  let counted := ({ w with graph := s.finish.graph }).modifyTally run
    (·.countHierarchies p.pending.length)
  let w' := counted.setPending plugin []
  have hreach : Reaches (finishRun plugin run) w () w' := by
    refine (reaches_get w).bind ?_
    simp only [hp, hstore]
    exact reaches_set _ w'
  have hrun : w'.runs[run]? = some ⟨project, s.tally.countHierarchies p.pending.length⟩ :=
    runs_modifyTally (w := { w with graph := s.finish.graph }) h.run
      (·.countHierarchies p.pending.length)
  refine ⟨w', hreach, ⟨rfl, ?_, ?_⟩, rfl, rfl⟩
  · exact ⟨_, plugins_setPending (w := counted) hp [], rfl⟩
  · rw [hrun, hpending]
    rfl

/-! ## Events -/

/-- What a resolver does leaves the listeners of its engine alone. -/
theorem Serves.of_handles {w' : World υ} {s' : Sweep} (h : Serves engine plugin run project w s)
    (hs : Handles plugin run project w' s') (hengines : w'.engines = w.engines) :
    Serves engine plugin run project w' s' := by
  have hsame : ∀ event, callbacksOf w' engine event = callbacksOf w engine event := fun event => by
    rw [callbacksOf, callbacksOf, hengines]
  exact ⟨(hsame _).trans h.onBegin, (hsame _).trans h.onDeclaration, (hsame _).trans h.onFinish, hs⟩

theorem reaches_fire_begin (h : Serves engine plugin run project w s) (occurrence : Occurrence) :
    Reaches (fire react engine Event.begin occurrence) w () w :=
  reaches_fire_nil react h.onBegin occurrence

theorem reaches_fire_declaration (h : Serves engine plugin run project w s) (key : DeclKey) :
    ∃ w', Reaches (fire react engine Event.declaration ⟨run, some (.declaration key)⟩) w () w' ∧
      Serves engine plugin run project w' (s.deliver project key) := by
  obtain ⟨w', hreach, hhandles, hengines, -⟩ := reaches_linkDeclaration h.handles key
  exact ⟨w', reaches_fire_singleton react h.onDeclaration hreach, h.of_handles hhandles hengines⟩

theorem reaches_fire_finish (h : Serves engine plugin run project w s) (hs : s.Finishes) :
    ∃ w', Reaches (fire react engine Event.finish ⟨run, none⟩) w () w' ∧
      Serves engine plugin run project w' s.finish := by
  obtain ⟨w', hreach, hhandles, hengines, -⟩ := reaches_finishRun h.handles hs
  exact ⟨w', reaches_fire_singleton react h.onFinish hreach, h.of_handles hhandles hengines⟩

theorem Handles.countDeclaration (h : Handles plugin run project w s) :
    Handles plugin run project (w.modifyTally run (·.countDeclaration))
      { s with tally := s.tally.countDeclaration } :=
  ⟨h.graph, h.plugin, runs_modifyTally h.run _⟩

theorem reaches_deliver (h : Serves engine plugin run project w s) (key : DeclKey) :
    ∃ w', Reaches (deliver react engine run key) w () w' ∧
      Serves engine plugin run project w' (s.visit project key) := by
  obtain ⟨w', hreach, hserves⟩ := reaches_fire_declaration react h key
  exact ⟨_, hreach.bind (reaches_modify _ w'),
    hserves.of_handles hserves.handles.countDeclaration rfl⟩

/-- Events that are fired one after the other act as their steps do. -/
theorem reaches_forM {f : DeclKey → Action υ Unit} {step : Sweep → DeclKey → Sweep}
    (hf : ∀ (w : World υ) s key, Serves engine plugin run project w s →
      ∃ w', Reaches (f key) w () w' ∧ Serves engine plugin run project w' (step s key))
    (h : Serves engine plugin run project w s) (keys : List DeclKey) :
    ∃ w', Reaches (keys.forM f) w () w' ∧
      Serves engine plugin run project w' (keys.foldl step s) := by
  induction keys generalizing w s with
  | nil => exact ⟨w, reaches_pure () w, h⟩
  | cons key keys ih =>
    obtain ⟨w₁, hfirst, hserves⟩ := hf w s key h
    obtain ⟨w₂, hrest, hserves⟩ := ih hserves
    exact ⟨w₂, hfirst.bind hrest, hserves⟩

end Events

/-! ## Plain runs -/

/-- The whole sweep of a run: every declaration of the project in order, then the hierarchies. -/
def sweepOf (g : Graph) (project : ProjectKey) : Sweep :=
  (g.declarationsOf project).foldl (Sweep.visit project) { graph := g }

/-! ## Signals -/

/-- An event that resolvers listen to. -/
inductive Signal
  | declaration (key : DeclKey)
  | finish

def signal (react : Reactions υ) (engine : EngineKey) (run : RunKey) : Signal → Action υ Unit
  | .declaration key => fire react engine Event.declaration ⟨run, some (.declaration key)⟩
  | .finish => fire react engine Event.finish ⟨run, none⟩

/-- Fires signals one after the other on a new engine, on behalf of one run over a project. -/
def signalFresh (react : Reactions υ) (project : ProjectKey) (signals : List Signal) :
    Action υ RunKey := do
  let engine ← newEngine []
  let run := (← get).runs.size
  modify (·.addRun project)
  signals.forM (signal react engine run)
  return run

/-- Signals without a listener of a user: their outcome and the graph they leave. -/
def plainSignals (g : Graph) (project : ProjectKey) (signals : List Signal) :
    Except Fault Tally × Graph :=
  let (outcome, w) :=
    (signalFresh silent project signals).run.run ({ graph := g, user := () } : World Unit)
  (outcome.map w.tally, w.graph)

/-- Each declaration of a list and then the end. -/
def Signal.sweep (keys : List DeclKey) : List Signal :=
  keys.map .declaration ++ [.finish]

end Pipeline

end Lineage
