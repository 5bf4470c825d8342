import Lineage.CommandLine

/-!
# The program

Reads the files and the environment that a command line asks for, makes the log files and puts its
outcome out. Items for a human are laid out plainly, without styles.
-/

open Lineage

namespace Lineage.Program

def readEntry (path : String) : IO FileEntry := do
  try
    let bytes ← IO.FS.readBinFile path
    return .file bytes.toList
  catch e =>
    match e with
    | .noFileOrDirectory .. => return .missing
    | _ => return .directory

def readTree (paths : List String) : IO FileTree := do
  let entries ← (paths.flatMap FileTree.places).mapM fun place =>
    return (place, ← readEntry place)
  return ⟨fun place => (entries.lookup place).getD .missing⟩

mutual

def treeLines (depth : Nat) : Tree → List String
  | .node label children =>
    (String.ofList (List.replicate (2 * depth) ' ') ++ Console.plain label) ::
      forestLines (depth + 1) children

def forestLines (depth : Nat) : List Tree → List String
  | [] => []
  | t :: ts => treeLines depth t ++ forestLines depth ts

end

def itemLines : Item → List String
  | .text markup => [Console.plain markup]
  | .tree tree => treeLines 0 tree
  | .table title columns rows =>
    Console.plain title :: "\t".intercalate (columns.map (·.header)) ::
      rows.map fun cells => "\t".intercalate (cells.map Console.plain)

def put : Emission → IO Unit
  | .echo line => IO.println line
  | .render item => (itemLines item).forM IO.println

def readEnvironment : IO Environment := do
  let names := ["DOCGRAPH_HUMAN_MODE", "DOCGRAPH_MACHINE_MODE", "DOCGRAPH_FILE_LOGGING",
    "DOCGRAPH_LOG_DIR"]
  let values ← names.mapM fun name => return (name, ← IO.getEnv name)
  return fun name => (values.lookup name).join

/-- Makes a log file with the directories on its way, unless its path depends on the time. -/
def makeLogFile (template : String) : IO Unit := do
  IO.FS.createDirAll (Path.parent template)
  if let .ok path := LogSinks.pathOf template then
    if path.certain then
      let file := FileTree.place (String.ofList path.text)
      IO.FS.createDirAll (Path.parent file)
      let _ ← IO.FS.Handle.mk file .append

end Lineage.Program

def main (arguments : List String) : IO UInt32 := do
  let env ← Program.readEnvironment
  let request? := CommandLine.parse arguments
  let logFiles := LogSinks.files ((request?.map (·.logEffects env)).getD [])
  let file? := (request?.bind (·.file?)).map Path.normalize
  let tree ← Program.readTree (file?.toList ++ logFiles)
  let outcome := CommandLine.run none env tree arguments
  if outcome.fault.isNone then logFiles.forM Program.makeLogFile
  outcome.emissions.forM Program.put
  if let some fault := outcome.fault then IO.eprintln (fault.message none)
  return outcome.exit.toUInt32
