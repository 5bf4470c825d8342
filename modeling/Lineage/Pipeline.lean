import Lineage.BackEdge
import Lineage.Chain
import Lineage.Linking.Detached
import Lineage.Pipeline.Engine

/-!
# The pipeline

Events call the listeners that were registered when they were fired. A run fires one event before,
one for each declaration and one after; which declarations it delivers is fixed once the listeners
of the first event have returned. A resolver links each declaration that is delivered and collects
its back edges, and builds the hierarchies at the end.
-/

namespace Lineage

/-- What an event is about: a declaration, or something that is none. -/
inductive Subject
  | declaration (key : DeclKey)
  | other
  deriving DecidableEq, Repr

/-- What an event tells its listeners: the run and, for some events, a subject. -/
structure Occurrence where
  run : RunKey
  subject : Option Subject := none

/-- What the listeners of a user do, by label. -/
abbrev Reactions (υ : Type) := String → Occurrence → Action υ Unit

namespace Pipeline

variable {υ : Type}

/-! ## Resolvers -/

/-- Links a declaration and adds its back edges, on behalf of a resolver. -/
def linkDeclaration (plugin : PluginKey) (run : RunKey) (key : DeclKey) : Action υ Unit :=
  modify fun w =>
    match w.plugins[plugin]?, w.runs[run]? with
    | some p, some r =>
      let w := w.link run (Linking.declaration r.project key)
      let c := w.graph.addBackEdges p.pending key
      ({ w with graph := c.graph }.setPending plugin c.pending).modifyTally run
        (·.countBackEdges c.added)
    | _, _ => w

/-- Builds the hierarchies that await it, on behalf of a resolver. -/
def finishRun (plugin : PluginKey) (run : RunKey) : Action υ Unit := do
  let w ← get
  match w.plugins[plugin]? with
  | none => return
  | some p =>
    let (graph, complete) := w.graph.storeChains p.pending
    let w := { w with graph := graph }
    if complete then
      set ((w.modifyTally run (·.countHierarchies p.pending.length)).setPending plugin [])
    else
      set w
      throw .missingAttribute

/-! ## Events -/

/-- Calls a callback; a resolver takes a declaration for one job and nothing for the other. -/
def call (react : Reactions υ) (occurrence : Occurrence) : Callback → Action υ Unit
  | .user label => react label occurrence
  | .link plugin =>
    match occurrence.subject with
    | some (.declaration key) => linkDeclaration plugin occurrence.run key
    | some .other => throw .missingAttribute
    | none => throw .wrongArguments
  | .finish plugin =>
    match occurrence.subject with
    | none => finishRun plugin occurrence.run
    | some _ => throw .wrongArguments

def fire (react : Reactions υ) (engine : EngineKey) (event : String)
    (occurrence : Occurrence) : Action υ Unit := do
  let callbacks := ((← get).engines[engine]?.map (·.listeners.callbacks event)).getD []
  callbacks.forM (call react occurrence)

/-! ## Runs -/

def deliver (react : Reactions υ) (engine : EngineKey) (run : RunKey) (key : DeclKey) :
    Action υ Unit := do
  fire react engine Event.declaration ⟨run, some (.declaration key)⟩
  modify fun w => w.modifyTally run (·.countDeclaration)

def runOver (react : Reactions υ) (engine : EngineKey) (project : ProjectKey) :
    Action υ RunKey := do
  let run := (← get).runs.size
  modify (·.addRun project)
  fire react engine Event.begin ⟨run, none⟩
  ((← get).graph.declarationsOf project).forM (deliver react engine run)
  fire react engine Event.finish ⟨run, none⟩
  return run

def runFresh (react : Reactions υ) (project : ProjectKey) : Action υ RunKey := do
  runOver react (← newEngine []) project

/-! ## Single types -/

def projectOf (run : RunKey) : Action υ ProjectKey :=
  return ((← get).runs[run]?.map (·.project)).getD 0

/-- Links references on behalf of a run as if they stood in a declaration. -/
def linkIn (run : RunKey) (origin : DeclKey) (references : List Reference) : Action υ Unit := do
  let project ← projectOf run
  modify fun w => w.link run (Linking.references project origin references)

/-- Links references on behalf of a run that stand in no declaration. -/
def linkDetached (run : RunKey) (origin : Option ProjectKey) (references : List Reference) :
    Action υ Unit := do
  let project ← projectOf run
  let report := isOn (← setting "log_dangling")
  let w ← get
  let (s, complete) := (w.linking run).detachedAll report project origin references
  set (w.setLinking run s)
  if !complete then throw .missingAttribute

/-- Links types on behalf of a run, as if they stood in a declaration, a project or nowhere. -/
def linkTypes (run : RunKey) (origin : Option Scope) (types : List TypeExpr) : Action υ Unit :=
  let references := TypeExpr.referencesOf types
  match origin with
  | some (.declaration key) => linkIn run key references
  | some (.project project) => linkDetached run (some project) references
  | none => linkDetached run none references

/-! ## Plain runs -/

def silent : Reactions υ := fun _ _ => return

/-- A run over a project without a listener of a user: its outcome and the graph it leaves. -/
def plainRun (g : Graph) (project : ProjectKey) : Except Fault Tally × Graph :=
  let (outcome, w) := (runFresh silent project).run.run ({ graph := g, user := () } : World Unit)
  (outcome.map w.tally, w.graph)

end Pipeline

end Lineage
