import Lineage.Pipeline.World

/-!
# Engines

Registered classes of plugins, their settings, and engines: a new engine gets a plugin of
every registered class that is not disabled, in the order of registration.
-/

namespace Lineage

/-! ## Events -/

namespace Event

/-- Fired once before the first declaration of a run. -/
def begin : String := "resolveBegin"

/-- Fired once for each declaration of a run. -/
def declaration : String := "resolveReflection"

/-- Fired once after the last declaration of a run. -/
def finish : String := "resolveEnd"

end Event

namespace Pipeline

variable {υ : Type}

/-! ## Settings -/

def setting (key : String) : Action υ Json := do
  match Json.member? key (← get).settings with
  | some v => return v
  | none => throw (.unknownSetting key)

def setSetting (key : String) (value : Json) : Action υ Unit :=
  modify fun w => { w with settings := Json.setMember w.settings key value }

/-- The priority that a setting denotes; only numbers and truth values have an order. -/
def priorityOf : Json → Action υ Priority
  | .int n => return .ofInt n
  | .bool b => return .ofInt b.toNat
  | .float x =>
    match Priority.ofBinary64? x with
    | some priority => return priority
    | none => throw .wrongArguments
  | _ => throw .wrongArguments

/-- Whether a setting is switched on: it is unless it is null, false, zero or empty. -/
def isOn : Json → Bool
  | .null => false
  | .bool b => b
  | .int n => n != 0
  | .float (.finite _ significand _) => significand != 0
  | .float _ => true
  | .string s => !s.isEmpty
  | .array items => !items.isEmpty
  | .object members => !members.isEmpty

/-! ## Classes of plugins -/

def registerClass (name : String) (kind : PluginClass) : Action υ Unit := do
  let w ← get
  if (w.registry.lookup name).isSome then throw (.pluginTaken name)
  else set { w with registry := w.registry ++ [(name, kind)] }

/-! ## Engines -/

def subscribe (engine : EngineKey) (event : String) (callback : Callback)
    (priority : Priority) : Action υ Unit :=
  modify fun w => w.modifyEngine engine fun c =>
    { c with listeners := c.listeners.subscribe event callback priority }

def unsubscribe (engine : EngineKey) (event : String) (callback : Callback) : Action υ Unit :=
  modify fun w => w.modifyEngine engine fun c =>
    { c with listeners := c.listeners.unsubscribe event callback }

/-- Gives an engine a plugin; a resolver starts to listen with the priority of the settings. -/
def attach (engine : EngineKey) (name : String) (kind : PluginClass) : Action υ Unit := do
  let plugin := (← get).plugins.size
  modify fun w => { w with plugins := w.plugins.push { kind := kind, engine := engine } }
  if kind = .resolver then
    let priority ← priorityOf (← setting "priority")
    subscribe engine Event.declaration (.link plugin) priority
    subscribe engine Event.finish (.finish plugin) priority
  modify fun w => w.modifyEngine engine fun c =>
    { c with plugins := c.plugins ++ [(name, plugin)] }

def newEngine (disabled : List String) : Action υ EngineKey := do
  let w ← get
  let engine := w.engines.size
  set { w with engines := w.engines.push {} }
  (w.registry.filter fun e => !disabled.contains e.1).forM fun e => attach engine e.1 e.2
  return engine

/-- Takes a plugin away from its engine, with its listeners. -/
def detach (plugin : PluginKey) : Action υ Unit := do
  match (← get).plugins[plugin]? with
  | none => throw .missingAttribute
  | some p =>
    if p.kind = .resolver then
      unsubscribe p.engine Event.declaration (.link plugin)
      unsubscribe p.engine Event.finish (.finish plugin)
    modify fun w => w.modifyEngine p.engine fun c =>
      { c with plugins := c.plugins.filter (·.2 != plugin) }

end Pipeline

end Lineage
