import Lineage.Console
import Lineage.Fault

/-!
# Log setup

Which sinks receive the log. A setup happens once, unless it is forced. The error stream receives
the log unless the console is suppressed; a file receives it only on demand. Its directory is made
first; then its path is read as a template, in which the time may stand, and the file is opened at
the path that the template becomes. Each record of the log adds a line to the file, behind what was
there before, so a file that is read later holds the records made until then.
-/

namespace Lineage.LogSinks

/-- What a caller asks for; what is left open is decided by the environment. -/
structure Request where
  level : String := "INFO"
  suppressConsole : Option Bool := none
  fileLogging : Option Bool := none
  force : Bool := false

/-- What a setup does to the sinks. -/
inductive Effect
  | removeAll
  | addConsole (level : String)
  | addFile (path level : String)
  deriving DecidableEq, Repr

def rotation : String := "10 MB"

def retention : String := "1 day"

def compression : String := "gz"

def filePath (env : Environment) : String :=
  Path.join ((env "DOCGRAPH_LOG_DIR").getD ".docgraph/logs") "docgraph.log"

/-- The effects of a setup, `configured` telling whether one has happened before. -/
def effects (env : Environment) (configured : Bool) (request : Request) : List Effect :=
  if configured && !request.force then []
  else
    let suppressed := request.suppressConsole.getD (env.isOn "DOCGRAPH_MACHINE_MODE")
    let toFile := request.fileLogging.getD (env.isOn "DOCGRAPH_FILE_LOGGING")
    .removeAll :: ((if suppressed then [] else [.addConsole request.level]) ++
      if toFile then [.addFile (filePath env) request.level] else [])

/-! ## Files -/

/-- The tree of files once the directory of a log file has been made. -/
def Effect.prepare (effect : Effect) (tree : FileTree) : Except Fault FileTree :=
  match effect with
  | .addFile path _ => (tree.makeDirectory (Path.parent path)).mapError .path
  | _ => .ok tree

def pathOf (template : String) : Except Fault Text.Template.Shown :=
  match Text.Template.expand template.toList with
  | .ok path => if path.text.contains '\x00' then .error (.template .holdsNul) else .ok path
  | .error fault => .error (.template fault)

/-- The tree of files once a log file has been opened. Of a path that depends on the moment only the
size is known: its file is none of those that are known. -/
def Effect.attach (effect : Effect) (tree : FileTree) : Except Fault FileTree :=
  match effect with
  | .addFile template _ => do
    let path ← pathOf template
    let file := FileTree.place (String.ofList path.text)
    if path.certain then
      let tree ← (tree.makeDirectory (Path.parent file)).mapError .path
      (tree.makeFile file).mapError .path
    else if FileTree.isTooLong file then throw (.path .tooLong)
    else return tree
  | _ => .ok tree

/-- The tree of files after effects, of which the first that fails ends them. -/
def perform (tree : FileTree) (effects : List Effect) : Except Fault FileTree :=
  effects.foldlM (fun tree effect => do effect.attach (← effect.prepare tree)) tree

/-! ## Records -/

/-- A record of the log: where it was made and what it says, for information. -/
structure Record where
  source : String
  message : String
  deriving DecidableEq, Repr

namespace Record

def loading (path : String) : Record where
  source := "docgraph.loader:load_project:168"
  message := "Loading project description from " ++ path

/-- The moment that stands in a line for the one at which its record was made. All moments are shown
in the same width and start with the digits of a year. -/
def moment : String := "2000-01-01 00:00:00.000"

def line (r : Record) : String :=
  moment ++ " | INFO     | " ++ r.source ++ " - " ++ r.message ++ "\n"

end Record

def maxFileSize : Nat := 10000000

/-- The bytes of a log file behind which a line was written. A file that the line would make too
large is put away first, and the line starts a new one. -/
def extend (line : String) (bytes : List UInt8) : List UInt8 :=
  if maxFileSize < bytes.length + line.length then line.toUTF8.toList
  else bytes ++ line.toUTF8.toList

/-- The tree of files once a record has reached the sink of an effect. -/
def Effect.write (effect : Effect) (record : Record) (tree : FileTree) : FileTree :=
  match effect with
  | .addFile template _ =>
    match pathOf template with
    | .ok path =>
      if path.certain then
        tree.modifyFile (FileTree.place (String.ofList path.text)) (extend record.line)
      else tree
    | .error _ => tree
  | _ => tree

/-- The tree of files once a record has reached the sinks that effects add. -/
def write (effects : List Effect) (record : Record) (tree : FileTree) : FileTree :=
  effects.foldl (fun tree effect => effect.write record tree) tree

def files (effects : List Effect) : List String :=
  effects.filterMap fun e => match e with
    | .addFile path _ => some path
    | _ => none

end Lineage.LogSinks
