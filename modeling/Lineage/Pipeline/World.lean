import Lineage.Fault
import Lineage.Linking
import Lineage.Pipeline.Listeners
import Lineage.Worklist

/-!
# Worlds

The state that the events of a pipeline act on: the graph, the engines with their listeners and
plugins, the runs with their tallies, and whatever the listeners of a user keep. An action that
fails leaves behind all it has changed before.
-/

namespace Lineage

/-! ## Parts -/

/-- The place of a plugin in its world. -/
abbrev PluginKey := Nat

/-- The place of an engine in its world. -/
abbrev EngineKey := Nat

/-- The place of a run in its world. -/
abbrev RunKey := Nat

/-- What a plugin does: nothing, or link references and build hierarchies. -/
inductive PluginClass
  | inert
  | resolver
  deriving DecidableEq, Repr

def PluginClass.name : PluginClass → String
  | .inert => "ConverterPlugin"
  | .resolver => "TypePlugin"

/-- A plugin of an engine; a resolver has a worklist of its own. -/
structure Plugin where
  kind : PluginClass
  engine : EngineKey
  pending : Worklist := []

/-- What a listener calls: one of the two jobs of a resolver, or a reaction of the user. -/
inductive Callback
  | link (plugin : PluginKey)
  | finish (plugin : PluginKey)
  | user (label : String)
  deriving DecidableEq, Repr

/-- An engine: its listeners, and its plugins by name in the order of attachment. -/
structure Engine where
  listeners : Listeners Callback := []
  plugins : List (String × PluginKey) := []

structure Run where
  project : ProjectKey
  tally : Tally := {}

/-! ## Settings -/

abbrev Settings := List (String × Json)

def Settings.initial : Settings :=
  [("plugin_name", .string "type"), ("priority", .int 0), ("log_dangling", .bool true)]

/-! ## State -/

/-- The state of a pipeline. -/
structure World (υ : Type) where
  graph : Graph
  engines : Array Engine := #[]
  plugins : Array Plugin := #[]
  runs : Array Run := #[]
  registry : List (String × PluginClass) := [("type", .resolver)]
  settings : Settings := Settings.initial
  user : υ

/-- A step on a world that may fail. -/
abbrev Action (υ : Type) := ExceptT Fault (StateM (World υ))

namespace World

variable {υ : Type}

def modifyEngine (w : World υ) (key : EngineKey) (f : Engine → Engine) : World υ :=
  { w with engines := w.engines.modify key f }

def setPending (w : World υ) (key : PluginKey) (pending : Worklist) : World υ :=
  { w with plugins := w.plugins.modify key fun p => { p with pending := pending } }

def modifyTally (w : World υ) (run : RunKey) (f : Tally → Tally) : World υ :=
  { w with runs := w.runs.modify run fun r => { r with tally := f r.tally } }

def tally (w : World υ) (run : RunKey) : Tally :=
  (w.runs[run]?.map (·.tally)).getD {}

/-- Starts a run over a project; its key is the number of runs before it. -/
def addRun (w : World υ) (project : ProjectKey) : World υ :=
  { w with runs := w.runs.push { project := project } }

def linking (w : World υ) (run : RunKey) : Linking :=
  ⟨w.graph, w.tally run⟩

/-- Takes over what linking has made of the graph and of the tally of a run. -/
def setLinking (w : World υ) (run : RunKey) (s : Linking) : World υ :=
  { w with graph := s.graph }.modifyTally run fun _ => s.tally

def link (w : World υ) (run : RunKey) (f : Linking → Linking) : World υ :=
  w.setLinking run (f (w.linking run))

end World

end Lineage
