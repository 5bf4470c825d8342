import Lineage.Description.Load
import Lineage.LogSinks
import Lineage.Pipeline
import Lineage.Report

/-!
# The command line

Options for all commands come before the command; the options and arguments of a command may be
mixed. The log is set up once the command is known, before its own options and arguments are read.
A command line that does not follow the usage exits with 2, a failure with 1.
-/

namespace Lineage.CommandLine

/-! ## Usage -/

inductive CommandName
  | resolve
  | hierarchy
  | dangling
  | version
  deriving DecidableEq, Repr

def CommandName.ofString? : String → Option CommandName
  | "resolve" => some .resolve
  | "hierarchy" => some .hierarchy
  | "dangling" => some .dangling
  | "version" => some .version
  | _ => none

inductive Command
  | resolve (file : String) (json : Bool)
  | hierarchy (file name : String) (json : Bool)
  | dangling (file : String) (json : Bool)
  | version
  deriving DecidableEq, Repr

/-- The options for all commands. -/
structure Global where
  human : Bool := false
  verbose : Bool := false
  deriving DecidableEq, Repr

/-- What a command line asks for, the tokens behind the command being left as they are. -/
inductive Request
  | help
  | command (options : Global) (name : CommandName) (tokens : List String)
  deriving DecidableEq, Repr

/-- What the tokens behind a command ask for. -/
inductive Invocation
  | help
  | run (command : Command)
  deriving DecidableEq, Repr

/-- A token that is read as an option: a dash and something behind it. -/
def isOption (token : String) : Bool :=
  match token.toList with
  | '-' :: _ :: _ => true
  | _ => false

/-- The tokens of a command: its options, its arguments, and whether help is asked for. -/
structure Tokens where
  json : Bool := false
  help : Bool := false
  arguments : List String := []

/-- Sorts the tokens of a command; behind two dashes all are arguments. -/
def tokens : List String → Option Tokens
  | [] => some {}
  | token :: rest =>
    if token == "--" then some { arguments := rest }
    else if token == "--json" then (tokens rest).map fun t => { t with json := true }
    else if token == "--help" then (tokens rest).map fun t => { t with help := true }
    else if isOption token then none
    else (tokens rest).map fun t => { t with arguments := token :: t.arguments }

def command? (name : CommandName) (t : Tokens) : Option Command :=
  match name, t.arguments with
  | .resolve, [file] => some (.resolve file t.json)
  | .hierarchy, [file, name] => some (.hierarchy file name t.json)
  | .dangling, [file] => some (.dangling file t.json)
  | .version, [] => if t.json then none else some .version
  | _, _ => none

/-- What the tokens behind a command ask for; none if they do not follow the usage. -/
def invocation? (name : CommandName) (rest : List String) : Option Invocation := do
  let t ← tokens rest
  if t.help && !(t.json && name == .version) then return .help
  return .run (← command? name t)

def request? (options : Global) (name : String) (rest : List String) : Option Request :=
  (CommandName.ofString? name).map fun name => .command options name rest

def letters? (options : Global) : List Char → Option Global
  | [] => some options
  | 'H' :: cs => letters? { options with human := true } cs
  | 'v' :: cs => letters? { options with verbose := true } cs
  | _ => none

/-- Reads a command line from its options for all commands on, `help` if help was asked for. -/
def parseFrom (options : Global) (help : Bool) : List String → Option Request
  | [] => if help then some .help else none
  | token :: rest =>
    if token == "--" then
      if help then some .help
      else
        match rest with
        | name :: rest => request? options name rest
        | [] => none
    else if token == "--human" then parseFrom { options with human := true } help rest
    else if token == "--verbose" then parseFrom { options with verbose := true } help rest
    else if token == "--help" then parseFrom options true rest
    else
      match token.toList with
      | '-' :: '-' :: _ => none
      | '-' :: c :: cs =>
        match letters? options (c :: cs) with
        | some options => parseFrom options help rest
        | none => none
      | _ => if help then some .help else request? options token rest

def Command.file? : Command → Option String
  | .resolve file _ => some file
  | .hierarchy file _ _ => some file
  | .dangling file _ => some file
  | .version => none

def Request.file? : Request → Option String
  | .help => none
  | .command _ name tokens =>
    match invocation? name tokens with
    | some (.run asked) => asked.file?
    | _ => none

/-- Reads a command line up to its command; none if it does not follow the usage. -/
def parse (arguments : List String) : Option Request :=
  parseFrom {} false arguments

/-! ## Outcomes -/

/-- What a command line leads to: an exit code, what is put out before, and an unexpected fault. -/
structure Outcome where
  exit : Nat
  emissions : List Emission := []
  fault : Option Fault := none

namespace Outcome

def stdout (o : Outcome) : String :=
  String.join ((Emission.echoed o.emissions).map (· ++ "\n"))

def failure (fault : Fault) : Outcome := { exit := 1, fault := some fault }

/-- A command line that does not follow the usage. -/
def misuse : Outcome := { exit := 2 }

end Outcome

/-! ## Surroundings -/

/-- What a command works with: whom it answers, where its log goes, and the files. -/
structure Surroundings where
  audience : Audience
  sinks : List LogSinks.Effect
  tree : FileTree

/-- What a path leads to once a record has reached the log. -/
def Surroundings.findAfter (s : Surroundings) (record : LogSinks.Record) (path : String) :
    FileEntry :=
  (LogSinks.write s.sinks record s.tree).find path

def logRequest (env : Environment) (options : Global) : LogSinks.Request where
  level := if options.verbose then "DEBUG" else "INFO"
  suppressConsole :=
    if options.human then none else some (Audience.choose env none == .machine)
  force := true

def logEffects (env : Environment) (options : Global) : List LogSinks.Effect :=
  LogSinks.effects env true (logRequest env options)

def Request.logEffects (env : Environment) : Request → List LogSinks.Effect
  | .help => []
  | .command options _ _ => CommandLine.logEffects env options

/-- The surroundings of a command in an environment and a tree of files, once the log is set up. -/
def surroundings (env : Environment) (tree : FileTree) (options : Global) :
    Except Fault Surroundings :=
  let sinks := logEffects env options
  match LogSinks.perform tree sinks with
  | .ok tree =>
    .ok
      { audience := Audience.choose env (if options.human then some .human else none)
        sinks := sinks
        tree := tree }
  | .error fault => .error fault

/-! ## Commands -/

def version : String := "0.4.0"

/-- The outcome of a fault: a load error is shown, any other one is unexpected. -/
def fail (help : Option String) (audience : Audience) (fault : Fault) : Outcome :=
  match fault with
  | .load .. => { exit := 1, emissions := Console.showError audience (fault.message help) }
  | _ => .failure fault

def loadResolved (path : String) (entry : FileEntry) : Except Fault Graph := do
  let g ← Graph.empty.loadFile path entry
  let (outcome, g) := Pipeline.plainRun g 0
  let _ ← outcome
  return g

/-- A JSON value for a machine or on demand, and items for a human. -/
def answer (audience : Audience) (json : Bool) (value : Option Json) (items : Option (List Item)) :
    Outcome :=
  if audience = .machine || json then
    match value with
    | some v => { exit := 0, emissions := Console.showJson audience v none }
    | none => .failure .missingAttribute
  else
    match items with
    | some is => { exit := 0, emissions := is.flatMap (Console.showItem audience) }
    | none => .failure .missingAttribute

def resolve (audience : Audience) (json : Bool) (g : Graph) : Outcome :=
  answer audience json (g.encodeProject? 0) (g.projectItems? 0)

def hierarchy (audience : Audience) (name : String) (json : Bool) (g : Graph) : Outcome :=
  let found := (g.find? (.project 0) (dottedParts name)).filter fun key =>
    (g.declaration? key).any (·.isClassLike)
  match found with
  | none =>
    { exit := 1
      emissions :=
        Console.showError audience ("No class or interface named '" ++ name ++ "'") }
  | some key => answer audience json (g.encode? key) ((g.tree? key).map fun t => [.tree t])

def dangling (audience : Audience) (json : Bool) (g : Graph) : Outcome :=
  answer audience json (some (g.encodeDangling 0)) (some [g.danglingItem 0])

/-- Runs a command on a file, which has to be there; its path counts in the normal form. That it is
about to be read is logged before, so a log file that is read holds this record as well. -/
def onFile (help : Option String) (s : Surroundings) (path : String) (command : Graph → Outcome) :
    Outcome :=
  let path := Path.normalize path
  match s.tree.find path with
  | .file _ =>
    match loadResolved path (s.findAfter (.loading path) path) with
    | .ok g => command g
    | .error fault => fail help s.audience fault
  | _ => .misuse

def execute (help : Option String) (s : Surroundings) : Command → Outcome
  | .resolve file json => onFile help s file (resolve s.audience json)
  | .hierarchy file name json => onFile help s file (hierarchy s.audience name json)
  | .dangling file json => onFile help s file (dangling s.audience json)
  | .version => { exit := 0, emissions := [.echo version] }

/--
The outcome of a command line in an environment and a tree of files. On violations more is to be
found at an address, if there is one.
-/
def run (help : Option String) (env : Environment) (tree : FileTree) (arguments : List String) :
    Outcome :=
  match parse arguments with
  | none => .misuse
  | some .help => { exit := 0 }
  | some (.command options name tokens) =>
    match surroundings env tree options with
    | .error fault => .failure fault
    | .ok s =>
      match invocation? name tokens with
      | none => .misuse
      | some .help => { exit := 0 }
      | some (.run command) => execute help s command

end Lineage.CommandLine
