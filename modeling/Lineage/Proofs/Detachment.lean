import Lineage.Proofs.Twins

/-!
# Detached resolvers

An engine is made with the resolver of the start among its plugins, and the resolver is taken away
before an event is fired. From then on the engine and one that was made without the resolver are
the same to users, to their listeners and to all other plugins.
-/

namespace Lineage

variable {υ σ : Type}

/-! ## Keys with a gap -/

/-- The keys of plugins when one key is left out. -/
def skip (p key : Nat) : Nat :=
  if key < p then key else key + 1

theorem skip_injective (p : Nat) : (skip p).Injective := by
  intro a b h
  unfold skip at h
  split at h <;> split at h <;> omega

theorem skip_ne (p key : Nat) : skip p key ≠ p := by
  unfold skip
  split <;> omega

theorem skip_of_lt {p key : Nat} (h : key < p) : skip p key = key :=
  if_pos h

theorem skip_of_le {p key : Nat} (h : p ≤ key) : skip p key = key + 1 :=
  if_neg (Nat.not_lt.mpr h)

def Callback.plugin? : Callback → Option PluginKey
  | .user _ => none
  | .link plugin => some plugin
  | .finish plugin => some plugin

theorem Callback.plugin?_rename (π : PluginKey → PluginKey) (c : Callback) :
    (c.rename π).plugin? = c.plugin?.map π := by
  cases c <;> rfl

theorem Callback.rename_eq_self {π : PluginKey → PluginKey} {c : Callback}
    (h : ∀ key ∈ c.plugin?, π key = key) : c.rename π = c := by
  cases c with
  | user label => rfl
  | link plugin => exact congrArg Callback.link (h plugin rfl)
  | finish plugin => exact congrArg Callback.finish (h plugin rfl)

def World.addEngine (w : World υ) : World υ :=
  { w with engines := w.engines.push {} }

/-- The engines of a world know plugins of this world only. -/
structure World.Closed (w : World υ) : Prop where
  callbacks : ∀ e ∈ w.engines, ∀ l ∈ e.listeners, ∀ key ∈ l.callback.plugin?, key < w.plugins.size
  plugins : ∀ e ∈ w.engines, ∀ p ∈ e.plugins, p.2 < w.plugins.size

theorem World.Closed.rename_eq {w : World υ} (h : w.Closed) {e : Engine} (he : e ∈ w.engines) :
    e.rename (skip w.plugins.size) = e := by
  have hlisteners : e.listeners.map (.rename (skip w.plugins.size)) = e.listeners := by
    refine (List.map_congr_left fun l hl => ?_).trans (List.map_id _)
    rw [Listener.rename, Callback.rename_eq_self fun key hkey =>
      skip_of_lt (h.callbacks e he l hl key hkey)]
    rfl
  have hplugins : e.plugins.map (fun p => (p.1, skip w.plugins.size p.2)) = e.plugins := by
    refine (List.map_congr_left fun p hp => ?_).trans (List.map_id _)
    rw [skip_of_lt (h.plugins e he p hp)]
    rfl
  rw [Engine.rename, hlisteners, hplugins]

/-! ## Engines without a resolver -/

namespace Engine

/-- An engine without a resolver and its two listeners. -/
def without (p : PluginKey) (e : Engine) : Engine where
  listeners :=
    (e.listeners.unsubscribe Event.declaration (.link p)).unsubscribe Event.finish (.finish p)
  plugins := e.plugins.filter (·.2 != p)

/-- An engine that keeps its listeners in order and has a resolver as its first plugin. -/
structure Hosts (p : PluginKey) (e : Engine) : Prop where
  sorted : e.listeners.Sorted
  plugins : ∃ others, e.plugins = ("type", p) :: others ∧ ∀ q ∈ others, q.2 ≠ p

variable {p : PluginKey} {e : Engine}

theorem Hosts.lookup_type (h : e.Hosts p) : e.plugins.lookup "type" = some p := by
  obtain ⟨others, hplugins, -⟩ := h.plugins
  rw [hplugins]
  rfl

theorem Hosts.lookup_without (h : e.Hosts p) {name : String} (hname : name ≠ "type") :
    (e.without p).plugins.lookup name = e.plugins.lookup name := by
  obtain ⟨others, hplugins, hothers⟩ := h.plugins
  have hfilter : others.filter (·.2 != p) = others :=
    List.filter_eq_self.mpr fun q hq => bne_iff_ne.mpr (hothers q hq)
  rw [without, hplugins, List.filter_cons, if_neg (by simp), hfilter, List.lookup_cons,
    beq_false_of_ne hname]

/-- An engine after a resolver has been made for it. -/
def seated (name : String) (p : PluginKey) (priority : Priority) (e : Engine) : Engine where
  listeners := (e.listeners.subscribe Event.declaration (.link p) priority).subscribe Event.finish
    (.finish p) priority
  plugins := e.plugins ++ [(name, p)]

theorem hosts_seated (p : PluginKey) (priority : Priority) :
    (seated "type" p priority {}).Hosts p :=
  ⟨(Listeners.Sorted.add .nil _).add _, [], rfl, nofun⟩

/-- Nothing is left of a resolver that was the first to come. -/
theorem without_seated (p : PluginKey) (priority : Priority) :
    (seated "type" p priority {}).without p = {} := by
  have hlisteners : (seated "type" p priority {}).listeners =
      [⟨Event.declaration, priority, .link p⟩, ⟨Event.finish, priority, .finish p⟩] := by
    simp [seated, Listeners.subscribe, Listeners.add, Priority.below_irrefl]
  rw [without, hlisteners]
  simp [Listeners.unsubscribe, seated]

/-- A change that keeps the resolver first and is the same without it. -/
structure Spares (p : PluginKey) (f : Engine → Engine) : Prop where
  hosts : ∀ e : Engine, e.Hosts p → (f e).Hosts p
  without : ∀ e : Engine, e.Hosts p → (f e).without p = f (e.without p)

theorem spares_subscribe (event : String) {callback : Callback} (h : callback.plugin? ≠ some p)
    (priority : Priority) : Spares p fun e =>
      { e with listeners := e.listeners.subscribe event callback priority } := by
  refine ⟨fun e he => ⟨he.sorted.add _, he.plugins⟩, fun e he => ?_⟩
  have hlink : callback ≠ .link p := fun hc => h (by rw [hc]; rfl)
  have hfinish : callback ≠ .finish p := fun hc => h (by rw [hc]; rfl)
  simp only [without, Listeners.unsubscribe, Listeners.subscribe]
  rw [Listeners.filter_add (by simp [hlink]) he.sorted,
    Listeners.filter_add (by simp [hfinish]) (List.Pairwise.filter _ he.sorted)]

theorem spares_unsubscribe (event : String) (callback : Callback) : Spares p fun e =>
    { e with listeners := e.listeners.unsubscribe event callback } := by
  refine ⟨fun e he => ⟨List.Pairwise.filter _ he.sorted, he.plugins⟩, fun e _ => ?_⟩
  simp only [without, Listeners.unsubscribe, List.filter_filter]
  congr 1
  refine List.filter_congr fun l _ => ?_
  simp only [Bool.and_comm, Bool.and_left_comm]

theorem spares_append (name : String) {key : PluginKey} (hkey : key ≠ p) : Spares p fun e =>
    { e with plugins := e.plugins ++ [(name, key)] } := by
  refine ⟨fun e he => ⟨he.sorted, ?_⟩, fun e _ => ?_⟩
  · obtain ⟨others, hplugins, hothers⟩ := he.plugins
    refine ⟨others ++ [(name, key)], by simp [hplugins], fun q hq => ?_⟩
    rcases List.mem_append.mp hq with hq | hq
    · exact hothers q hq
    · obtain rfl := List.mem_singleton.mp hq
      exact hkey
  · simp [without, List.filter_append, hkey]

end Engine

/-! ## Worlds before the resolver is detached -/

theorem World.modifyEngine_modifyEngine (w : World υ) (engine : EngineKey) (f g : Engine → Engine) :
    (w.modifyEngine engine f).modifyEngine engine g =
      w.modifyEngine engine fun e => g (f e) := by
  refine congrArg (fun engines => { w with engines := engines }) (Array.ext_getElem? fun i => ?_)
  simp only [World.modifyEngine, Array.getElem?_modify]
  split
  · rw [Option.map_map]
    rfl
  · rfl

theorem World.modifyEngine_congr {w : World υ} {engine : EngineKey} {f g : Engine → Engine}
    (h : ∀ e, w.engines[engine]? = some e → f e = g e) :
    w.modifyEngine engine f = w.modifyEngine engine g := by
  refine congrArg (fun engines => { w with engines := engines }) (Array.ext_getElem? fun i => ?_)
  simp only [Array.getElem?_modify]
  split
  · next hi =>
    subst hi
    exact Option.map_congr h
  · rfl

/-- The second world is a twin of the first one, once a resolver is detached from an engine. -/
structure Ahead (p : PluginKey) (engine : EngineKey) (w v : World υ) : Prop where
  twin : Twin (skip p) (w.modifyEngine engine (.without p)) v
  resolver : ∃ q, w.plugins[p]? = some q ∧ q.kind = .resolver ∧ q.engine = engine
  hosts : ∃ e, w.engines[engine]? = some e ∧ e.Hosts p
  size : w.plugins.size = v.plugins.size + 1
  le : p ≤ v.plugins.size

namespace Ahead

variable {p : PluginKey} {engine : EngineKey} {w v : World υ}

theorem skip_size (h : Ahead p engine w v) : skip p v.plugins.size = w.plugins.size := by
  rw [skip_of_le h.le, h.size]

/-- A change of the engine that spares the resolver leaves worlds of the same kind. -/
theorem modifyEngine (h : Ahead p engine w v) {f g : Engine → Engine} (hf : Engine.Spares p f)
    (hg : ∀ e : Engine, f (e.rename (skip p)) = (g e).rename (skip p)) :
    Ahead p engine (w.modifyEngine engine f) (v.modifyEngine engine g) := by
  obtain ⟨e, he, hhosts⟩ := h.hosts
  refine ⟨?_, h.resolver, ⟨f e, ?_, hf.hosts e hhosts⟩, h.size, h.le⟩
  · have hcommute : (w.modifyEngine engine f).modifyEngine engine (.without p) =
        (w.modifyEngine engine (.without p)).modifyEngine engine f := by
      rw [World.modifyEngine_modifyEngine, World.modifyEngine_modifyEngine]
      refine World.modifyEngine_congr fun e' he' => ?_
      obtain rfl := Option.some.inj (he.symm.trans he')
      exact hf.without e hhosts
    rw [hcommute]
    exact h.twin.modifyEngine hg engine
  · rw [World.modifyEngine, Array.getElem?_modify, if_pos rfl, he, Option.map_some]

theorem push (h : Ahead p engine w v) (q : Plugin) :
    Ahead p engine { w with plugins := w.plugins.push q }
      { v with plugins := v.plugins.push q } := by
  have hplugins : ∀ key, (w.plugins.push q)[skip p key]? = (v.plugins.push q)[key]? := by
    intro key
    have hold : w.plugins[skip p key]? = v.plugins[key]? := h.twin.plugins key
    rw [Array.getElem?_push, Array.getElem?_push, hold, ← h.skip_size]
    simp only [(skip_injective p).eq_iff]
  obtain ⟨r, hr, hkind⟩ := h.resolver
  have hlt : p < w.plugins.size := (Array.getElem?_eq_some_iff.mp hr).1
  refine ⟨⟨h.twin.graph, h.twin.runs, h.twin.registry, h.twin.settings, h.twin.user,
    h.twin.engines, hplugins⟩, ⟨r, ?_, hkind⟩, h.hosts, ?_, ?_⟩
  · exact (Array.getElem?_push_lt hlt).trans ((Array.getElem?_eq_getElem hlt).symm.trans hr)
  · simp [h.size]
  · rw [Array.size_push]
    exact Nat.le_succ_of_le h.le

theorem pluginOf?_eq (h : Ahead p engine w v) {name : String} (hname : name ≠ "type") :
    w.pluginOf? engine name = (v.pluginOf? engine name).map (skip p) := by
  obtain ⟨e, he, hhosts⟩ := h.hosts
  have hengine := h.twin.engine? engine
  rw [World.modifyEngine, Array.getElem?_modify, if_pos rfl, he, Option.map_some] at hengine
  obtain ⟨e', he', hrename⟩ := Option.map_eq_some_iff.mp hengine.symm
  rw [World.pluginOf?, World.pluginOf?, he, he', Option.bind_some, Option.bind_some,
    ← hhosts.lookup_without hname, ← hrename]
  exact lookup_rename e'.plugins name

theorem pluginOf?_type (h : Ahead p engine w v) : w.pluginOf? engine "type" = some p := by
  obtain ⟨e, he, hhosts⟩ := h.hosts
  rw [World.pluginOf?, he, Option.bind_some, hhosts.lookup_type]

end Ahead

namespace Pipeline

variable {p : PluginKey} {engine : EngineKey}

/-! ## Making engines -/

theorem plugin?_rename_skip_ne (p : PluginKey) (c : Callback) :
    (c.rename (skip p)).plugin? ≠ some p := by
  rw [Callback.plugin?_rename]
  intro h
  obtain ⟨key, -, hkey⟩ := Option.map_eq_some_iff.mp h
  exact skip_ne p key hkey

theorem ahead_subscribe (event : String) (callback : Callback) (priority : Priority) :
    Mirrors (Ahead p engine)
      (subscribe engine event (callback.rename (skip p)) priority : Action υ Unit)
      (subscribe engine event callback priority) := by
  refine mirrors_modify fun w v h => h.modifyEngine
    (Engine.spares_subscribe event (plugin?_rename_skip_ne p callback) priority)
    (Engine.rename_subscribe event callback priority)

theorem ahead_unsubscribe (event : String) (callback : Callback) :
    Mirrors (Ahead p engine)
      (unsubscribe engine event (callback.rename (skip p)) : Action υ Unit)
      (unsubscribe engine event callback) := by
  refine mirrors_modify fun w v h => h.modifyEngine
    (Engine.spares_unsubscribe event (callback.rename (skip p)))
    (Engine.rename_unsubscribe (skip_injective p) event callback)

theorem ahead_ask {r : Request Handle} (hr : "type" ∉ r.callback.plugin?) :
    Mirrors (Ahead p engine) (ask engine r : Action υ Unit) (ask engine r) := by
  refine mirrors_ask_of (fun w v h => ?_) ahead_subscribe ahead_unsubscribe
  exact World.callback?_rename r.callback
    (fun name hname => h.pluginOf?_eq fun he => hr (he ▸ hname)) h.twin.plugins

theorem ahead_setting (key : String) :
    Mirrors (Ahead p engine) (setting key : Action υ Json) (setting key) := by
  refine mirrors_get_bind fun w v h => ?_
  have hsettings : w.settings = v.settings := h.twin.settings
  rw [hsettings]
  split
  · exact ⟨rfl, h⟩
  · exact ⟨rfl, h⟩

/-- Another plugin is made in the same way, and with corresponding keys. -/
theorem ahead_construct (name : String) (kind : PluginClass) {own : List (Request Handle)}
    (hown : ∀ r ∈ own, "type" ∉ r.callback.plugin?) :
    Mirrors (Ahead p engine) (construct engine name kind own : Action υ Unit)
      (construct engine name kind own) := by
  refine mirrors_get_bind fun w v h => ?_
  rw [← h.skip_size]
  generalize v.plugins.size = key
  have hrest : Mirrors (Ahead p engine)
      (own.forM (ask engine) >>= fun _ => modify fun w : World υ => w.modifyEngine engine fun c =>
        { c with plugins := c.plugins ++ [(name, skip p key)] })
      (own.forM (ask engine) >>= fun _ => modify fun w : World υ => w.modifyEngine engine fun c =>
        { c with plugins := c.plugins ++ [(name, key)] }) := by
    refine (Mirrors.forM fun r hr => ahead_ask (hown r hr)).bind fun _ => ?_
    refine mirrors_modify fun w v h => h.modifyEngine
      (Engine.spares_append name (skip_ne p key)) fun e => ?_
    simp [Engine.rename]
  refine Mirrors.bind (mirrors_modify fun w v h => h.push _) (fun _ => ?_) w v h
  simp only
  split
  · refine (ahead_setting _).bind fun value => (mirrors_priorityOf value).bind fun priority => ?_
    refine (ahead_subscribe _ (.link key) priority).bind fun _ => ?_
    exact (ahead_subscribe _ (.finish key) priority).bind fun _ => hrest
  · exact hrest

/-- What making a resolver does to a world, unless its priority cannot be read. -/
theorem exists_seated {w w' : World υ} {name : String}
    (h : Reaches (construct engine name .resolver []) w ⟨⟩ w') :
    ∃ priority, w' = World.modifyEngine
      { w with plugins := w.plugins.push { kind := .resolver, engine := engine } } engine
      (.seated name w.plugins.size priority) := by
  rw [construct_nil] at h
  obtain ⟨_, _, hget, h⟩ := Reaches.of_bind h
  cases hget
  obtain ⟨_, _, hpush, h⟩ := Reaches.of_bind h
  cases hpush
  simp only [if_true] at h
  obtain ⟨value, _, hsetting, h⟩ := Reaches.of_bind h
  obtain rfl := (moves_setting (R := Eq) "priority").of_reaches hsetting
  obtain ⟨priority, _, hpriority, h⟩ := Reaches.of_bind h
  obtain rfl := (moves_priorityOf (R := Eq) value).of_reaches hpriority
  obtain ⟨-, rfl⟩ := Prod.mk.inj h
  refine ⟨priority, ?_⟩
  simp only [World.modifyEngine_modifyEngine]
  rfl

/-- A new engine whose first plugin is a resolver is ahead of one that has no plugin yet. -/
theorem ahead_start {w w' : World υ} (hclosed : w.Closed)
    (h : Reaches (construct w.engines.size "type" .resolver []) w.addEngine ⟨⟩ w') :
    Ahead w.plugins.size w.engines.size w' w.addEngine := by
  obtain ⟨priority, rfl⟩ := exists_seated h
  have hnew : w.addEngine.engines[w.engines.size]? = some {} := Array.getElem?_push_size
  refine ⟨⟨rfl, rfl, rfl, rfl, rfl, ?_, fun key => ?_⟩, ?_, ?_, ?_, Nat.le_refl _⟩
  · -- nothing is left of the new engine, and no other one knows the resolver
    refine Array.ext_getElem? fun i => ?_
    rw [World.modifyEngine_modifyEngine]
    simp only [World.modifyEngine, World.addEngine, Array.getElem?_modify, Array.getElem?_map,
      Array.getElem?_push, eq_comm (a := i)]
    split
    · exact congrArg some (Engine.without_seated _ _)
    · cases he : w.engines[i]? with
      | none => rfl
      | some e => exact congrArg some (hclosed.rename_eq (Array.mem_of_getElem? he)).symm
  · change (w.plugins.push _)[skip w.plugins.size key]? = w.plugins[key]?
    by_cases hkey : key < w.plugins.size
    · rw [skip_of_lt hkey, Array.getElem?_push_lt hkey, Array.getElem?_eq_getElem hkey]
    · rw [skip_of_le (Nat.not_lt.mp hkey), Array.getElem?_eq_none (Nat.not_lt.mp hkey),
        Array.getElem?_eq_none]
      rw [Array.size_push]
      exact Nat.succ_le_succ (Nat.not_lt.mp hkey)
  · exact ⟨_, Array.getElem?_push_size, rfl, rfl⟩
  · refine ⟨Engine.seated "type" w.plugins.size priority {}, ?_, Engine.hosts_seated _ _⟩
    rw [World.modifyEngine, Array.getElem?_modify, if_pos rfl]
    exact congrArg (Option.map _) hnew
  · exact Array.size_push _

/-- Gives a new engine the plugins of some classes, and then makes calls. -/
def complete (own : String → List (Request Handle)) (engine : EngineKey)
    (classes : List (String × PluginClass)) (early : List (Request Handle)) :
    Action υ EngineKey := do
  classes.forM fun e => construct engine e.1 e.2 (own e.1)
  early.forM (ask engine)
  return engine

theorem complete_cons (own : String → List (Request Handle)) (engine : EngineKey)
    (e : String × PluginClass) (classes : List (String × PluginClass))
    (early : List (Request Handle)) :
    (complete own engine (e :: classes) early : Action υ EngineKey) =
      construct engine e.1 e.2 (own e.1) >>= fun _ => complete own engine classes early := by
  simp only [complete, List.forM_eq_forM, List.forM_cons, bind_assoc]

theorem run_setUp (own : String → List (Request Handle)) (disabled : List String)
    (early : List (Request Handle)) (w : World υ) :
    (setUp own disabled early).run.run w =
      (complete own w.engines.size (w.registry.filter fun e => !disabled.contains e.1)
        early).run.run w.addEngine := by
  simp only [setUp, build, bind_assoc, pure_bind]
  rfl

/-- Further plugins and calls that are not about the resolver come to the same. -/
theorem ahead_complete {own : String → List (Request Handle)}
    {classes : List (String × PluginClass)} {early : List (Request Handle)}
    (hown : ∀ e ∈ classes, ∀ r ∈ own e.1, "type" ∉ r.callback.plugin?)
    (hearly : ∀ r ∈ early, "type" ∉ r.callback.plugin?) :
    Mirrors (Ahead p engine) (complete own engine classes early : Action υ EngineKey)
      (complete own engine classes early) := by
  refine (Mirrors.forM fun e he => ahead_construct e.1 e.2 (hown e he)).bind fun _ => ?_
  exact (Mirrors.forM fun r hr => ahead_ask (hearly r hr)).bind fun _ => mirrors_pure _

theorem complete_value {own : String → List (Request Handle)}
    {classes : List (String × PluginClass)} {early : List (Request Handle)} {w w' : World υ}
    {made : EngineKey} (h : Reaches (complete own engine classes early) w made w') :
    made = engine := by
  obtain ⟨_, _, -, h⟩ := Reaches.of_bind h
  obtain ⟨_, _, -, h⟩ := Reaches.of_bind h
  exact (Reaches.of_pure h).1

/-! ## Detaching -/

theorem reaches_detach {w v : World υ} (h : Ahead p engine w v) :
    Reaches (detach p) w ⟨⟩ (w.modifyEngine engine (.without p)) := by
  obtain ⟨⟨kind, host, pending⟩, hq, rfl, rfl⟩ := h.resolver
  refine (reaches_get w).bind ?_
  rw [hq]
  have hsteps : w.modifyEngine host (.without p) =
      ((w.modifyEngine host fun c => { c with
        listeners := c.listeners.unsubscribe Event.declaration (.link p) }).modifyEngine host
          fun c => { c with
            listeners := c.listeners.unsubscribe Event.finish (.finish p) }).modifyEngine host
              fun c => { c with plugins := c.plugins.filter (·.2 != p) } := by
    simp only [World.modifyEngine_modifyEngine]
    rfl
  rw [hsteps]
  rfl

/-- A plugin is gone from an engine, with the listeners that call it, and nothing else is. -/
structure Drops (p : PluginKey) (engine : EngineKey) (w w' : World υ) : Prop where
  host : ∃ e e', w.engines[engine]? = some e ∧ w'.engines[engine]? = some e' ∧
    e'.listeners = e.listeners.filter (·.callback.plugin? ≠ some p) ∧
    e'.plugins = e.plugins.filter (·.2 ≠ p)
  others : ∀ other ≠ engine, w'.engines[other]? = w.engines[other]?
  rest : w' = { w with engines := w'.engines }

theorem drops_of_ahead {w v : World υ} (h : Ahead p engine w v) :
    Drops p engine w (w.modifyEngine engine (.without p)) := by
  obtain ⟨e, he, -⟩ := h.hosts
  have hengine : (w.modifyEngine engine (.without p)).engines[engine]? = some (e.without p) := by
    rw [World.modifyEngine, Array.getElem?_modify, if_pos rfl, he, Option.map_some]
  have hnone : ∀ l ∈ (e.without p).listeners, l.callback.plugin? ≠ some p := by
    have htwin := h.twin.engine? engine
    rw [hengine] at htwin
    obtain ⟨e', -, hrename⟩ := Option.map_eq_some_iff.mp htwin.symm
    rw [← hrename, Engine.rename, List.forall_mem_map]
    exact fun l _ => plugin?_rename_skip_ne p l.callback
  refine ⟨⟨e, e.without p, he, hengine, ?_, ?_⟩, fun other hother => ?_, rfl⟩
  · -- what was removed called the resolver, and nothing that is left does
    rw [← List.filter_eq_self.mpr fun l hl => decide_eq_true (hnone l hl), Engine.without]
    simp only [Listeners.unsubscribe, List.filter_filter]
    refine List.filter_congr fun l _ => ?_
    cases hl : l.callback with
    | user label => simp [Callback.plugin?]
    | link plugin | finish plugin =>
      by_cases hp : plugin = p <;> simp [Callback.plugin?, hp]
  · exact List.filter_congr fun q _ => by simp [bne, beq_eq_decide]
  · rw [World.modifyEngine, Array.getElem?_modify, if_neg (Ne.symm hother)]

/--
An engine is made with the resolver of the start and any further plugins, which may register and
remove callbacks of their own, and so may its user. Then the resolver is detached. This takes away
the plugin with its listeners and nothing else. From then on, whatever the user and its listeners
do, it comes to the same as with an engine that is made without the resolver: the same callbacks are
called in the same order with the same arguments, and the outcomes, the runs with their tallies and
the graphs are the same. Only the keys of plugins differ.
-/
theorem detach_disables {own : String → List (Request Handle)} {early : List (Request Handle)}
    {further : List (String × PluginClass)} {w w₁ : World (Told σ)} (hclosed : w.Closed)
    (hregistry : w.registry = ("type", .resolver) :: further)
    (hfurther : ∀ e ∈ further, e.1 ≠ "type") (htype : own "type" = [])
    (hown : ∀ e ∈ further, ∀ r ∈ own e.1, "type" ∉ r.callback.plugin?)
    (hearly : ∀ r ∈ early, "type" ∉ r.callback.plugin?)
    (hbuilt : Reaches (setUp own [] early) w engine w₁) :
    ∃ p w₂ v, w₁.pluginOf? engine "type" = some p ∧ Reaches (detach p) w₁ ⟨⟩ w₂ ∧
      Drops p engine w₁ w₂ ∧ Reaches (setUp own ["type"] early) w engine v ∧
      ∀ (code : String → Occurrence → Script σ) depth script,
        let detached := (play engine code depth script).run.run w₂
        let disabled := (play engine code depth script).run.run v
        detached.1 = disabled.1 ∧ Twin (skip p) detached.2 disabled.2 := by
  have hall : w.registry.filter (fun e => !List.contains [] e.1) =
      ("type", .resolver) :: further := by
    simp [hregistry]
  have hothers : w.registry.filter (fun e => !List.contains ["type"] e.1) = further := by
    rw [hregistry, List.filter_cons, if_neg (by simp)]
    refine List.filter_eq_self.mpr fun e he => ?_
    simpa using hfurther e he
  rw [Reaches, run_setUp, hall, complete_cons, htype] at hbuilt
  obtain ⟨_, w₀, htypeBuilt, hcomplete⟩ := Reaches.of_bind hbuilt
  obtain rfl := complete_value hcomplete
  obtain ⟨v, hv, hahead⟩ := (ahead_complete hown hearly).reaches (ahead_start hclosed htypeBuilt)
    hcomplete
  refine ⟨_, _, v, hahead.pluginOf?_type, reaches_detach hahead, drops_of_ahead hahead, ?_, ?_⟩
  · rw [Reaches, run_setUp, hothers]
    exact hv
  · exact fun code depth script =>
      mirrors_play (skip_injective _) _ code depth script _ _ hahead.twin

/-- A world with two more classes of plugins: one that listens, and a second resolver. -/
def equipped : World (Told Unit) where
  graph := .empty
  registry := [("type", .resolver), ("counter", .inert), ("second", .resolver)]
  user := ⟨(), []⟩

def listening (name : String) : List (Request Handle) :=
  if name = "counter" then [.on ⟨Event.begin, .ofInt 5, .user "counter"⟩] else []

/-- A user that listens before any resolver, and stops the second one. -/
def stopsSecond : List (Request Handle) :=
  [.on ⟨Event.declaration, .ofInt 1, .user "first"⟩, .off Event.declaration (.link "second")]

theorem detach_disables_equipped :
    ∃ w₁ p w₂ v, Reaches (setUp listening [] stopsSecond) equipped 0 w₁ ∧
      w₁.pluginOf? 0 "type" = some p ∧ Reaches (detach p) w₁ ⟨⟩ w₂ ∧ Drops p 0 w₁ w₂ ∧
      Reaches (setUp listening ["type"] stopsSecond) equipped 0 v ∧
      ∀ (code : String → Occurrence → Script Unit) depth script,
        let detached := (play 0 code depth script).run.run w₂
        let disabled := (play 0 code depth script).run.run v
        detached.1 = disabled.1 ∧ Twin (skip p) detached.2 disabled.2 := by
  have hclosed : equipped.Closed := ⟨by simp [equipped], by simp [equipped]⟩
  have hfurther : ∀ e ∈ [("counter", PluginClass.inert), ("second", .resolver)], e.1 ≠ "type" := by
    decide
  have hown : ∀ e ∈ [("counter", PluginClass.inert), ("second", .resolver)],
      ∀ r ∈ listening e.1, "type" ∉ r.callback.plugin? := by
    simp [listening, Request.callback, Handle.plugin?]
  have hearly : ∀ r ∈ stopsSecond, "type" ∉ r.callback.plugin? := by
    simp [stopsSecond, Request.callback, Handle.plugin?]
  obtain ⟨p, w₂, v, h⟩ := detach_disables hclosed rfl hfurther rfl hown hearly rfl
  exact ⟨_, p, w₂, v, rfl, h⟩

end Pipeline

end Lineage
