import Lineage.Proofs.Deliveries
import Lineage.Proofs.ListenerOrder

/-!
# Scripts

What users and plugins do with an engine. They register and remove callbacks, their own ones or the
jobs of a plugin; they fire events and run the engine, and go on if that fails; in between they
change whatever belongs to no engine. Their listeners do the same while they are called. A class of
plugins may register callbacks while a plugin is made, beside those that every resolver registers.
-/

namespace Lineage

/-! ## What users do -/

/-- How a callback is named: a listener of a user, or a job of a plugin of the engine. -/
inductive Handle
  | user (label : String)
  | link (plugin : String)
  | finish (plugin : String)

def Handle.plugin? : Handle → Option String
  | .user _ => none
  | .link plugin => some plugin
  | .finish plugin => some plugin

def Request.callback {κ : Type} : Request κ → κ
  | .on l => l.callback
  | .off _ callback => callback

/-- What users see and change beside engines: projects, runs, settings and what they keep. -/
structure Surface (σ : Type) where
  graph : Graph
  runs : Array Run
  settings : Settings
  kept : σ

/-- What a user does. A call may fail, and it is up to the user how to go on. -/
inductive Script (σ : Type)
  | done
  | fail (fault : Fault)
  | ask (r : Request Handle) (next : Except Fault Unit → Script σ)
  | trigger (event : String) (occurrence : Occurrence) (next : Except Fault Unit → Script σ)
  | resolve (project : ProjectKey) (next : Except Fault RunKey → Script σ)
  | work (f : Surface σ → Surface σ) (next : Surface σ → Script σ)

namespace World

variable {υ σ : Type}

def pluginOf? (w : World υ) (engine : EngineKey) (name : String) : Option PluginKey :=
  w.engines[engine]?.bind (·.plugins.lookup name)

def resolverOf? (w : World υ) (engine : EngineKey) (name : String) : Option PluginKey :=
  (w.pluginOf? engine name).filter fun key => w.plugins[key]?.any (·.kind = .resolver)

def callback? (w : World υ) (engine : EngineKey) : Handle → Option Callback
  | .user label => some (.user label)
  | .link plugin => (w.resolverOf? engine plugin).map .link
  | .finish plugin => (w.resolverOf? engine plugin).map .finish

/-- What a user sees of a world. -/
def surface (w : World (Told σ)) : Surface σ :=
  ⟨w.graph, w.runs, w.settings, w.user.kept⟩

def setSurface (w : World (Told σ)) (s : Surface σ) : World (Told σ) :=
  { w with
    graph := s.graph
    runs := s.runs
    settings := s.settings
    user := { w.user with kept := s.kept } }

end World

namespace Pipeline

variable {υ σ α : Type}

def ask (engine : EngineKey) (r : Request Handle) : Action υ Unit := do
  match (← get).callback? engine r.callback with
  | none => throw .missingAttribute
  | some callback =>
    match r with
    | .on l => subscribe engine l.event callback l.priority
    | .off event _ => unsubscribe engine event callback

/-- An action that goes on with its outcome, whether it fails or not. -/
def attempt (x : Action υ α) : Action υ (Except Fault α) :=
  ExceptT.lift x.run

def playWith (react : Reactions (Told σ)) (engine : EngineKey) :
    Script σ → Action (Told σ) Unit
  | .done => return
  | .fail fault => throw fault
  | .ask r next => do playWith react engine (next (← attempt (ask engine r)))
  | .trigger event occurrence next => do
    playWith react engine (next (← attempt (fire react engine event occurrence)))
  | .resolve project next => do
    playWith react engine (next (← attempt (runOver react engine project)))
  | .work f next => do
    let w ← get
    set (w.setSurface (f w.surface))
    playWith react engine (next (f w.surface))

/-- Listeners that play scripts, calling each other up to a depth; each call is told. -/
def playing (engine : EngineKey) (code : String → Occurrence → Script σ) :
    Nat → Reactions (Told σ)
  | 0, _, _ => throw (.rejected "maximum recursion depth exceeded")
  | depth + 1, label, occurrence => do
    modify fun w => { w with user := { w.user with told := w.user.told ++ [(label, occurrence)] } }
    playWith (playing engine code depth) engine (code label occurrence)

def play (engine : EngineKey) (code : String → Occurrence → Script σ) (depth : Nat)
    (script : Script σ) : Action (Told σ) Unit :=
  playWith (playing engine code depth) engine script

/-! ## How engines are made -/

/-- Gives an engine a plugin that makes some calls of its own while it is made. -/
def construct (engine : EngineKey) (name : String) (kind : PluginClass)
    (own : List (Request Handle)) : Action υ Unit := do
  let plugin := (← get).plugins.size
  modify fun w => { w with plugins := w.plugins.push { kind := kind, engine := engine } }
  if kind = .resolver then
    let priority ← priorityOf (← setting "priority")
    subscribe engine Event.declaration (.link plugin) priority
    subscribe engine Event.finish (.finish plugin) priority
  own.forM (ask engine)
  modify fun w => w.modifyEngine engine fun c =>
    { c with plugins := c.plugins ++ [(name, plugin)] }

/-- Makes an engine whose plugins make calls of their own, given by the names of their classes. -/
def build (own : String → List (Request Handle)) (disabled : List String) :
    Action υ EngineKey := do
  let w ← get
  let engine := w.engines.size
  set { w with engines := w.engines.push {} }
  (w.registry.filter fun e => !disabled.contains e.1).forM fun e =>
    construct engine e.1 e.2 (own e.1)
  return engine

def setUp (own : String → List (Request Handle)) (disabled : List String)
    (early : List (Request Handle)) : Action υ EngineKey := do
  let engine ← build own disabled
  early.forM (ask engine)
  return engine

theorem construct_nil (engine : EngineKey) (name : String) (kind : PluginClass) :
    (construct engine name kind [] : Action υ Unit) = attach engine name kind := by
  simp [construct, attach]

end Pipeline

end Lineage
