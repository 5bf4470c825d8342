import Lineage.Proofs.Scripts
import Mathlib.Logic.Function.Basic

/-!
# Twin worlds

Two worlds that differ at most in the keys of plugins, and in plugins that no engine of the first
one knows. Whatever users, their listeners and the plugins of engines do, it comes out the same in
both worlds, and leaves twins.
-/

namespace Lineage

variable {υ σ α β γ : Type}

/-! ## Renamed plugins -/

def Callback.rename (π : PluginKey → PluginKey) : Callback → Callback
  | .user label => .user label
  | .link plugin => .link (π plugin)
  | .finish plugin => .finish (π plugin)

def Listener.rename (π : PluginKey → PluginKey) (l : Listener Callback) : Listener Callback :=
  { l with callback := l.callback.rename π }

def Engine.rename (π : PluginKey → PluginKey) (e : Engine) : Engine where
  listeners := e.listeners.map (.rename π)
  plugins := e.plugins.map fun p => (p.1, π p.2)

section Rename

variable {π : PluginKey → PluginKey}

theorem Callback.rename_injective (hπ : π.Injective) : (Callback.rename π).Injective := by
  intro c d h
  match c, d, h with
  | .user _, .user _, h => exact congrArg Callback.user (Callback.user.inj h)
  | .link _, .link _, h => exact congrArg Callback.link (hπ (Callback.link.inj h))
  | .finish _, .finish _, h => exact congrArg Callback.finish (hπ (Callback.finish.inj h))

theorem Listeners.callbacks_rename (ls : Listeners Callback) (event : String) :
    Listeners.callbacks (ls.map (.rename π)) event =
      (ls.callbacks event).map (.rename π) := by
  simp only [callbacks, List.filter_map, List.map_map]
  rfl

theorem Listeners.subscribe_rename (ls : Listeners Callback) (event : String)
    (callback : Callback) (priority : Priority) :
    Listeners.subscribe (ls.map (.rename π)) event (callback.rename π) priority =
      (ls.subscribe event callback priority).map (.rename π) := by
  induction ls with
  | nil => rfl
  | cons m ls ih =>
    simp only [subscribe, List.map_cons, add] at ih ⊢
    rw [ih]
    cases h : m.priority.below priority <;> simp [Listener.rename, h]

theorem Listeners.unsubscribe_rename (hπ : π.Injective) (ls : Listeners Callback) (event : String)
    (callback : Callback) :
    Listeners.unsubscribe (ls.map (.rename π)) event (callback.rename π) =
      (ls.unsubscribe event callback).map (.rename π) := by
  rw [unsubscribe, unsubscribe, List.filter_map]
  congr 1
  refine List.filter_congr fun l _ => ?_
  have hsame : (l.callback.rename π == callback.rename π) = (l.callback == callback) := by
    rw [Bool.eq_iff_iff, beq_iff_eq, beq_iff_eq, (Callback.rename_injective hπ).eq_iff]
  exact congrArg (fun same => !(l.event == event && same)) hsame

theorem lookup_rename (plugins : List (String × PluginKey)) (name : String) :
    (plugins.map fun p => (p.1, π p.2)).lookup name = (plugins.lookup name).map π := by
  induction plugins with
  | nil => rfl
  | cons p plugins ih =>
    rw [List.map_cons, List.lookup_cons, List.lookup_cons, ih]
    cases name == p.1 <;> rfl

theorem Engine.rename_subscribe (event : String) (callback : Callback) (priority : Priority)
    (e : Engine) :
    { e.rename π with
      listeners := (e.rename π).listeners.subscribe event (callback.rename π) priority } =
      Engine.rename π
        { e with listeners := e.listeners.subscribe event callback priority } := by
  simp [Engine.rename, Listeners.subscribe_rename]

theorem Engine.rename_unsubscribe (hπ : π.Injective) (event : String) (callback : Callback)
    (e : Engine) :
    { e.rename π with
      listeners := (e.rename π).listeners.unsubscribe event (callback.rename π) } =
      Engine.rename π { e with listeners := e.listeners.unsubscribe event callback } := by
  simp [Engine.rename, Listeners.unsubscribe_rename hπ]

end Rename

/-! ## Twins -/

/--
Two worlds that differ at most in the keys of plugins: everything that users see is the same, and
engines have the same plugins and the same listeners, in the same order, under other keys.
-/
structure Twin (π : PluginKey → PluginKey) (w v : World υ) : Prop where
  graph : w.graph = v.graph
  runs : w.runs = v.runs
  registry : w.registry = v.registry
  settings : w.settings = v.settings
  user : w.user = v.user
  engines : w.engines = v.engines.map (.rename π)
  plugins : ∀ key, w.plugins[π key]? = v.plugins[key]?

namespace Twin

variable {π : PluginKey → PluginKey} {w v : World υ}

theorem engine? (h : Twin π w v) (engine : EngineKey) :
    w.engines[engine]? = v.engines[engine]?.map (.rename π) := by
  rw [h.engines, Array.getElem?_map]

theorem modifyEngine (h : Twin π w v) {f g : Engine → Engine}
    (hf : ∀ e : Engine, f (e.rename π) = (g e).rename π) (engine : EngineKey) :
    Twin π (w.modifyEngine engine f) (v.modifyEngine engine g) := by
  refine ⟨h.graph, h.runs, h.registry, h.settings, h.user, ?_, h.plugins⟩
  refine Array.ext_getElem? fun i => ?_
  simp only [World.modifyEngine, Array.getElem?_modify, Array.getElem?_map, h.engine?]
  split
  · rw [Option.map_map, Option.map_map]
    exact congrArg (Option.map · _) (funext hf)
  · rfl

theorem setGraph (h : Twin π w v) (g : Graph) :
    Twin π { w with graph := g } { v with graph := g } :=
  ⟨rfl, h.runs, h.registry, h.settings, h.user, h.engines, h.plugins⟩

theorem addRun (h : Twin π w v) (project : ProjectKey) :
    Twin π (w.addRun project) (v.addRun project) :=
  ⟨h.graph, by rw [World.addRun, World.addRun, h.runs], h.registry, h.settings, h.user, h.engines,
    h.plugins⟩

theorem modifyTally (h : Twin π w v) (run : RunKey) (f : Tally → Tally) :
    Twin π (w.modifyTally run f) (v.modifyTally run f) :=
  ⟨h.graph, by rw [World.modifyTally, World.modifyTally, h.runs], h.registry, h.settings, h.user,
    h.engines, h.plugins⟩

theorem linking_eq (h : Twin π w v) (run : RunKey) : w.linking run = v.linking run := by
  rw [World.linking, World.linking, World.tally, World.tally, h.graph, h.runs]

theorem link (h : Twin π w v) (run : RunKey) (f : Linking → Linking) :
    Twin π (w.link run f) (v.link run f) := by
  rw [World.link, World.link, h.linking_eq]
  exact (h.setGraph _).modifyTally run _

theorem setPending (h : Twin π w v) (hπ : π.Injective) (plugin : PluginKey)
    (pending : Worklist) :
    Twin π (w.setPending (π plugin) pending) (v.setPending plugin pending) := by
  refine ⟨h.graph, h.runs, h.registry, h.settings, h.user, h.engines, fun key => ?_⟩
  simp only [World.setPending, Array.getElem?_modify, hπ.eq_iff, h.plugins]

theorem callbacksOf_eq (h : Twin π w v) (engine : EngineKey) (event : String) :
    Pipeline.callbacksOf w engine event =
      (Pipeline.callbacksOf v engine event).map (.rename π) := by
  rw [Pipeline.callbacksOf, Pipeline.callbacksOf, h.engine?]
  cases v.engines[engine]? with
  | none => rfl
  | some e => exact Listeners.callbacks_rename e.listeners event

end Twin

/-- Where the plugins that are meant correspond, so do their callbacks. -/
theorem World.callback?_rename {π : PluginKey → PluginKey} {w v : World υ} {engine : EngineKey}
    (h : Handle) (hplugin : ∀ name ∈ h.plugin?,
      w.pluginOf? engine name = (v.pluginOf? engine name).map π)
    (hplugins : ∀ key, w.plugins[π key]? = v.plugins[key]?) :
    w.callback? engine h = (v.callback? engine h).map (.rename π) := by
  have hresolver : ∀ name ∈ h.plugin?,
      w.resolverOf? engine name = (v.resolverOf? engine name).map π := by
    intro name hname
    rw [resolverOf?, resolverOf?, hplugin name hname, Option.filter_map]
    simp only [Function.comp_def, hplugins]
  cases h with
  | user label => rfl
  | link plugin | finish plugin =>
    rw [callback?, callback?, hresolver plugin rfl, Option.map_map, Option.map_map]
    rfl

namespace Pipeline

/-! ## Actions with the same outcome -/

/-- Two actions have the same outcome in related worlds, and leave related worlds. -/
def Mirrors (R : World υ → World υ → Prop) (x y : Action υ α) : Prop :=
  ∀ w v, R w v → (x.run.run w).1 = (y.run.run v).1 ∧ R (x.run.run w).2 (y.run.run v).2

section Mirrors

variable {R : World υ → World υ → Prop}

theorem mirrors_pure (a : α) : Mirrors R (pure a : Action υ α) (pure a) :=
  fun _ _ h => ⟨rfl, h⟩

theorem mirrors_throw (fault : Fault) : Mirrors R (throw fault : Action υ α) (throw fault) :=
  fun _ _ h => ⟨rfl, h⟩

theorem mirrors_modify {f g : World υ → World υ} (h : ∀ w v, R w v → R (f w) (g v)) :
    Mirrors R (modify f : Action υ PUnit) (modify g) :=
  fun w v hrel => ⟨rfl, h w v hrel⟩

theorem mirrors_get_bind {f g : World υ → Action υ α}
    (h : ∀ w v, R w v → ((f w).run.run w).1 = ((g v).run.run v).1 ∧
      R ((f w).run.run w).2 ((g v).run.run v).2) :
    Mirrors R (get >>= f) (get >>= g) :=
  h

theorem Mirrors.bind {x y : Action υ α} {f g : α → Action υ β} (hx : Mirrors R x y)
    (hf : ∀ a, Mirrors R (f a) (g a)) : Mirrors R (x >>= f) (y >>= g) := by
  intro w v hrel
  obtain ⟨houtcome, hrel'⟩ := hx w v hrel
  rw [ExceptT.run_bind, StateT.run_bind, ExceptT.run_bind, StateT.run_bind]
  generalize x.run.run w = p at houtcome hrel' ⊢
  generalize y.run.run v = q at houtcome hrel' ⊢
  obtain ⟨outcome, w'⟩ := p
  obtain ⟨outcome', v'⟩ := q
  obtain rfl : outcome = outcome' := houtcome
  cases outcome with
  | error fault => exact ⟨rfl, hrel'⟩
  | ok a => exact hf a w' v' hrel'

theorem Mirrors.forM_map {r : β → γ} {bs : List β} {f : γ → Action υ PUnit}
    {g : β → Action υ PUnit} (h : ∀ b ∈ bs, Mirrors R (f (r b)) (g b)) :
    Mirrors R ((bs.map r).forM f) (bs.forM g) := by
  induction bs with
  | nil => exact mirrors_pure _
  | cons b bs ih =>
    rw [List.forall_mem_cons] at h
    exact h.1.bind fun _ => ih h.2

theorem Mirrors.forM {bs : List β} {f g : β → Action υ PUnit}
    (h : ∀ b ∈ bs, Mirrors R (f b) (g b)) : Mirrors R (bs.forM f) (bs.forM g) := by
  have hmap := Mirrors.forM_map (r := id) h
  rwa [List.map_id] at hmap

theorem Mirrors.attempt {x y : Action υ α} (h : Mirrors R x y) :
    Mirrors R (attempt x) (attempt y) := by
  intro w v hrel
  obtain ⟨houtcome, hrel'⟩ := h w v hrel
  exact ⟨congrArg Except.ok houtcome, hrel'⟩

/-- Where the first of two such actions succeeds, so does the second one. -/
theorem Mirrors.reaches {x y : Action υ α} (h : Mirrors R x y) {w v w' : World υ} {a : α}
    (hrel : R w v) (hx : Reaches x w a w') : ∃ v', Reaches y v a v' ∧ R w' v' := by
  obtain ⟨houtcome, hrel'⟩ := h w v hrel
  rw [hx] at houtcome hrel'
  exact ⟨(y.run.run v).2, Prod.ext houtcome.symm rfl, hrel'⟩

theorem mirrors_priorityOf (value : Json) :
    Mirrors R (priorityOf value : Action υ Priority) (priorityOf value) := by
  obtain ⟨outcome, hrun⟩ := exists_run_priorityOf (υ := υ) value
  intro w v hrel
  rw [hrun, hrun]
  exact ⟨rfl, hrel⟩

/-- A call does alike if its callbacks correspond, and registering and removing them do alike. -/
theorem mirrors_ask_of {π : PluginKey → PluginKey} {engine : EngineKey} {r : Request Handle}
    (hcallback : ∀ w v, R w v → w.callback? engine r.callback =
      (v.callback? engine r.callback).map (.rename π))
    (hon : ∀ event callback priority,
      Mirrors R (subscribe engine event (callback.rename π) priority : Action υ Unit)
        (subscribe engine event callback priority))
    (hoff : ∀ event callback,
      Mirrors R (unsubscribe engine event (callback.rename π) : Action υ Unit)
        (unsubscribe engine event callback)) :
    Mirrors R (ask engine r : Action υ Unit) (ask engine r) := by
  refine mirrors_get_bind fun w v h => ?_
  rw [hcallback w v h]
  cases v.callback? engine r.callback with
  | none => exact ⟨rfl, h⟩
  | some c =>
    cases r with
    | on l => exact hon l.event c l.priority w v h
    | off event _ => exact hoff event c w v h

end Mirrors

/-! ## Twins of engines and plugins -/

section Twin

variable {π : PluginKey → PluginKey}

theorem mirrors_linkDeclaration (hπ : π.Injective) (plugin : PluginKey) (run : RunKey)
    (key : DeclKey) : Mirrors (Twin π) (linkDeclaration (π plugin) run key : Action υ Unit)
      (linkDeclaration plugin run key) := by
  refine mirrors_modify fun w v h => ?_
  rw [h.plugins, h.runs]
  split
  · next p r _ _ =>
    have hlinked := h.link run (Linking.declaration r.project key)
    simp only [hlinked.graph]
    exact ((hlinked.setGraph _).setPending hπ plugin _).modifyTally run _
  · exact h

theorem mirrors_finishRun (hπ : π.Injective) (plugin : PluginKey) (run : RunKey) :
    Mirrors (Twin π) (finishRun (π plugin) run : Action υ Unit) (finishRun plugin run) := by
  refine mirrors_get_bind fun w v h => ?_
  rw [h.plugins]
  split
  · exact ⟨rfl, h⟩
  · next p _ =>
    have hstored := h.setGraph (v.graph.storeChains p.pending).1
    simp only [h.graph]
    split
    · exact ⟨rfl, (hstored.modifyTally run _).setPending hπ plugin []⟩
    · exact ⟨rfl, hstored⟩

section React

variable {react react' : Reactions υ}
  (h : ∀ label occurrence, Mirrors (Twin π) (react label occurrence) (react' label occurrence))
include h

theorem mirrors_call (hπ : π.Injective) (occurrence : Occurrence) (callback : Callback) :
    Mirrors (Twin π) (call react occurrence (callback.rename π))
      (call react' occurrence callback) := by
  cases callback with
  | user label => exact h label occurrence
  | link plugin =>
    unfold call Callback.rename
    simp only
    split
    · exact mirrors_linkDeclaration hπ plugin _ _
    · exact mirrors_throw _
    · exact mirrors_throw _
  | finish plugin =>
    unfold call Callback.rename
    simp only
    split
    · exact mirrors_finishRun hπ plugin _
    · exact mirrors_throw _

theorem mirrors_fire (hπ : π.Injective) (engine : EngineKey) (event : String)
    (occurrence : Occurrence) :
    Mirrors (Twin π) (fire react engine event occurrence)
      (fire react' engine event occurrence) := by
  refine mirrors_get_bind fun w v hw => ?_
  have hcallbacks := hw.callbacksOf_eq engine event
  rw [callbacksOf, callbacksOf] at hcallbacks
  rw [hcallbacks]
  exact Mirrors.forM_map (fun c _ => mirrors_call h hπ occurrence c) w v hw

theorem mirrors_runOver (hπ : π.Injective) (engine : EngineKey) (project : ProjectKey) :
    Mirrors (Twin π) (runOver react engine project) (runOver react' engine project) := by
  refine mirrors_get_bind fun w v hw => ?_
  rw [hw.runs]
  refine Mirrors.bind (mirrors_modify fun w v hw => hw.addRun project) (fun _ => ?_) w v hw
  refine (mirrors_fire h hπ engine _ _).bind fun _ => mirrors_get_bind fun w v hw => ?_
  rw [hw.graph]
  refine Mirrors.bind (.forM fun key _ => ?_) (fun _ => ?_) w v hw
  · refine (mirrors_fire h hπ engine _ _).bind fun _ => mirrors_modify fun w v hw => ?_
    exact hw.modifyTally _ _
  · exact (mirrors_fire h hπ engine _ _).bind fun _ => mirrors_pure _

end React

/-! ## Twins of users -/

theorem mirrors_subscribe (engine : EngineKey) (event : String) (callback : Callback)
    (priority : Priority) :
    Mirrors (Twin π) (subscribe engine event (callback.rename π) priority : Action υ Unit)
      (subscribe engine event callback priority) := by
  exact mirrors_modify fun w v h =>
    h.modifyEngine (Engine.rename_subscribe event callback priority) engine

theorem mirrors_unsubscribe (hπ : π.Injective) (engine : EngineKey) (event : String)
    (callback : Callback) :
    Mirrors (Twin π) (unsubscribe engine event (callback.rename π) : Action υ Unit)
      (unsubscribe engine event callback) := by
  exact mirrors_modify fun w v h =>
    h.modifyEngine (Engine.rename_unsubscribe hπ event callback) engine

theorem mirrors_ask (hπ : π.Injective) (engine : EngineKey) (r : Request Handle) :
    Mirrors (Twin π) (ask engine r : Action υ Unit) (ask engine r) := by
  refine mirrors_ask_of (fun w v h => ?_) (mirrors_subscribe engine) (mirrors_unsubscribe hπ engine)
  refine World.callback?_rename r.callback (fun name _ => ?_) h.plugins
  rw [World.pluginOf?, World.pluginOf?, h.engine?]
  cases v.engines[engine]? with
  | none => rfl
  | some e => exact lookup_rename e.plugins name

theorem mirrors_playWith {react react' : Reactions (Told σ)}
    (h : ∀ label occurrence, Mirrors (Twin π) (react label occurrence) (react' label occurrence))
    (hπ : π.Injective) (engine : EngineKey) (script : Script σ) :
    Mirrors (Twin π) (playWith react engine script) (playWith react' engine script) := by
  induction script with
  | done => exact mirrors_pure _
  | fail fault => exact mirrors_throw fault
  | ask r next ih => exact (mirrors_ask hπ engine r).attempt.bind ih
  | trigger event occurrence next ih =>
    exact (mirrors_fire h hπ engine event occurrence).attempt.bind ih
  | resolve project next ih => exact (mirrors_runOver h hπ engine project).attempt.bind ih
  | work f next ih =>
    refine mirrors_get_bind fun w v hw => ?_
    have hsurface : w.surface = v.surface := by
      rw [World.surface, World.surface, hw.graph, hw.runs, hw.settings, hw.user]
    rw [hsurface]
    refine ih _ (w.setSurface _) (v.setSurface _) ?_
    exact ⟨rfl, rfl, hw.registry, rfl, congrArg (fun user => Told.mk _ user.told) hw.user,
      hw.engines, hw.plugins⟩

theorem mirrors_playing (hπ : π.Injective) (engine : EngineKey)
    (code : String → Occurrence → Script σ) (depth : Nat) (label : String)
    (occurrence : Occurrence) :
    Mirrors (Twin π) (playing engine code depth label occurrence)
      (playing engine code depth label occurrence) := by
  induction depth generalizing label occurrence with
  | zero => exact mirrors_throw _
  | succ depth ih =>
    refine (mirrors_modify fun w v h => ?_).bind fun _ => mirrors_playWith ih hπ engine _
    exact ⟨h.graph, h.runs, h.registry, h.settings, by rw [h.user], h.engines, h.plugins⟩

/-- A script comes to the same in twin worlds, and leaves twins. -/
theorem mirrors_play (hπ : π.Injective) (engine : EngineKey)
    (code : String → Occurrence → Script σ) (depth : Nat) (script : Script σ) :
    Mirrors (Twin π) (play engine code depth script) (play engine code depth script) :=
  mirrors_playWith (mirrors_playing hπ engine code depth) hπ engine script

end Twin

end Pipeline

end Lineage
