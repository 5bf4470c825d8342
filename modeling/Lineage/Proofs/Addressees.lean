import Lineage.Proofs.Encodable
import Lineage.Proofs.Reordering

/-!
# Addressees

Whom a command line answers is chosen by an option and by a variable of the environment. A command
that is asked for JSON has the same to tell to machines and to humans. A value stands on standard
output for both, in different layouts. An error does so for machines only: for humans it is laid
out on the console.
-/

namespace Lineage.CommandLine

/-! ## Replies -/

/-- What a command has to tell: a value, or why there is none. -/
inductive Reply
  | value (v : Json)
  | error (message : String)

namespace Reply

def exit : Reply → Nat
  | .value _ => 0
  | .error _ => 1

def document : Reply → Json
  | .value v => v
  | .error message => .object [("status", .string "error"), ("message", .string message)]

/-- A reply on standard output, when JSON is asked for. -/
def stdout (reply : Reply) : Audience → String
  | .machine =>
    match reply with
    | .value _ => reply.document.print .compact ++ "\n"
    | .error _ => reply.document.print .spaced ++ "\n"
  | .human =>
    match reply with
    | .value _ => reply.document.print .indented ++ "\n"
    | .error _ => ""

/-- What of a reply is laid out on the console, when JSON is asked for. -/
def rendered (reply : Reply) : Audience → List Item
  | .machine => []
  | .human =>
    match reply with
    | .value _ => []
    | .error message => [.text ("[red]Error:[/red] " ++ Markup.escape message)]

/-- An outcome tells a reply to an audience, and nothing else. -/
structure Tells (reply : Reply) (audience : Audience) (o : Outcome) : Prop where
  exit : o.exit = reply.exit
  stdout : o.stdout = reply.stdout audience
  rendered : Emission.rendered o.emissions = reply.rendered audience
  fault : o.fault = none

theorem tells_showJson (audience : Audience) (v : Json) :
    (value v).Tells audience { exit := 0, emissions := Console.showJson audience v none } := by
  refine ⟨rfl, ?_, ?_, rfl⟩
  · cases audience <;> simp [Outcome.stdout, Console.showJson, Emission.echoed, stdout, document]
  · cases audience <;> rfl

theorem tells_showError (audience : Audience) (message : String) :
    (error message).Tells audience
      { exit := 1, emissions := Console.showError audience message } := by
  refine ⟨rfl, ?_, ?_, rfl⟩
  · cases audience <;> simp [Outcome.stdout, Console.showError, Emission.echoed, stdout, document]
  · cases audience <;> rfl

end Reply

/-! ## Commands -/

def Command.asksJson : Command → Bool
  | .resolve _ json => json
  | .hierarchy _ _ json => json
  | .dangling _ json => json
  | .version => false

/-- What a command that works on a file makes of the project that it resolves. -/
def onProject (audience : Audience) : Command → Graph → Outcome
  | .resolve _ json => resolve audience json
  | .hierarchy _ name json => hierarchy audience name json
  | .dangling _ json => dangling audience json
  | .version => fun _ => .misuse

theorem execute_eq_onFile {command : Command} {file : String} (h : command.file? = some file)
    (help : Option String) (s : Surroundings) :
    execute help s command = onFile help s file (onProject s.audience command) := by
  cases command <;> cases h <;> rfl

/-- The file of a command is there, and reading it gives a project or a reason why not. -/
structure Surroundings.Loads (s : Surroundings) (file : String) : Prop where
  exists_file : ∃ bytes, s.tree.find (Path.normalize file) = .file bytes
  refused : ∀ fault, Graph.empty.loadFile (Path.normalize file)
      (s.findAfter (.loading (Path.normalize file)) (Path.normalize file)) = .error fault →
    ∃ source cause, fault = .load source cause

/-- All that a command shows of a resolved project can be shown as JSON. -/
theorem exists_reply {command : Command} (hjson : command.asksJson = true) {g : Graph}
    (hfound : ∀ parts key, g.find? (.project 0) parts = some key → ∃ v, g.encode? key = some v)
    (hproject : ∃ v, g.encodeProject? 0 = some v) :
    ∃ reply : Reply, ∀ audience, reply.Tells audience (onProject audience command g) := by
  have hanswer : ∀ v items, ∃ reply : Reply, ∀ audience,
      reply.Tells audience (answer audience true (some v) items) := fun v items =>
    ⟨.value v, fun audience => by
      simpa only [answer, Bool.or_true, if_true] using Reply.tells_showJson audience v⟩
  cases command with
  | resolve file json =>
    obtain rfl : json = true := hjson
    obtain ⟨v, hv⟩ := hproject
    simp only [onProject, resolve, hv]
    exact hanswer v _
  | hierarchy file name json =>
    obtain rfl : json = true := hjson
    simp only [onProject, hierarchy]
    cases hkey : (g.find? (.project 0) (dottedParts name)).filter
        fun key => (g.declaration? key).any (·.isClassLike) with
    | none => exact ⟨_, fun audience => Reply.tells_showError audience _⟩
    | some key =>
      obtain ⟨v, hv⟩ := hfound _ key (Option.filter_eq_some_iff.mp hkey).1
      simp only [hv]
      exact hanswer v _
  | dangling file json =>
    obtain rfl : json = true := hjson
    simp only [onProject, dangling]
    exact hanswer _ _
  | version => cases hjson

theorem loadResolved_of_loadFile {path : String} {entry : FileEntry} {g : Graph}
    (hload : Graph.empty.loadFile path entry = .ok g) :
    ∃ spec r t, Graph.empty.adopt path spec = .ok g ∧ Pipeline.plainRun g 0 = (.ok t, r) ∧
      Resolved g 0 (g.declarationsOf 0) r t ∧ loadResolved path entry = .ok r := by
  obtain ⟨spec, hadopt⟩ := Graph.loadFile_eq_ok hload
  obtain ⟨t, r, hrun, hresolved⟩ := Pipeline.plainRun_spec (Graph.adopt_spec hadopt).loaded
  have hrun : Pipeline.plainRun g 0 = (.ok t, r) := hrun
  refine ⟨spec, r, t, hadopt, hrun, hresolved, ?_⟩
  rw [loadResolved, hload]
  simp only [bind, Except.bind, hrun, pure, Except.pure]

/-- What comes of a file that gives a project or a reason why not. -/
theorem loadResolved_spec {path : String} {entry : FileEntry}
    (h : ∀ fault, Graph.empty.loadFile path entry = .error fault →
      ∃ source cause, fault = .load source cause) :
    (∃ spec g r t, Graph.empty.adopt path spec = .ok g ∧
      Resolved g 0 (g.declarationsOf 0) r t ∧ loadResolved path entry = .ok r) ∨
    ∃ source cause, loadResolved path entry = .error (.load source cause) := by
  cases hload : Graph.empty.loadFile path entry with
  | error fault =>
    obtain ⟨source, cause, rfl⟩ := h fault hload
    exact Or.inr ⟨source, cause, by rw [loadResolved, hload]; rfl⟩
  | ok g =>
    obtain ⟨spec, r, t, hadopt, -, hresolved⟩ := loadResolved_of_loadFile hload
    exact Or.inl ⟨spec, g, r, t, hadopt, hresolved⟩

/-- Surroundings with the same files, in which records go to the same log files. -/
structure Surroundings.Alike (s s' : Surroundings) : Prop where
  tree : s'.tree = s.tree
  write : ∀ record tree,
    LogSinks.write s'.sinks record tree = LogSinks.write s.sinks record tree

theorem Surroundings.Alike.findAfter_eq {s s' : Surroundings} (h : s.Alike s')
    (record : LogSinks.Record) (path : String) :
    s'.findAfter record path = s.findAfter record path := by
  rw [findAfter, findAfter, h.write, h.tree]

/-- A command that is asked for JSON has one reply, for all who may ask. -/
theorem execute_sameReply (help : Option String) {s : Surroundings} {command : Command}
    (hjson : command.asksJson = true) (hloads : ∀ file ∈ command.file?, s.Loads file) :
    ∃ reply : Reply, ∀ s' : Surroundings, s.Alike s' →
      reply.Tells s'.audience (execute help s' command) := by
  obtain ⟨file, hfile⟩ : ∃ file, command.file? = some file := by
    cases command with
    | resolve file json => exact ⟨file, rfl⟩
    | hierarchy file name json => exact ⟨file, rfl⟩
    | dangling file json => exact ⟨file, rfl⟩
    | version => cases hjson
  obtain ⟨⟨bytes, hbytes⟩, hrefused⟩ := hloads file hfile
  rcases loadResolved_spec hrefused with ⟨spec, g, r, t, hadopt, hresolved, hload⟩ |
    ⟨source, cause, hload⟩
  · obtain ⟨hencode, hproject⟩ := Graph.exists_encodings hadopt hresolved
    have hencloses := (Graph.adopt_spec hadopt).encloses
    have hfound : ∀ parts key, r.find? (.project 0) parts = some key →
        ∃ v, r.encode? key = some v := by
      intro parts key hkey
      rw [hresolved.alike.find?_eq] at hkey
      refine hencode key ?_
      rw [hresolved.alike.declarationsOf_eq]
      exact hencloses.mem_of_find? (Or.inl rfl) hkey
    obtain ⟨reply, hreply⟩ := exists_reply hjson hfound hproject
    refine ⟨reply, fun s' halike => ?_⟩
    rw [execute_eq_onFile hfile, onFile]
    simp only [halike.tree, hbytes, halike.findAfter_eq, hload]
    exact hreply s'.audience
  · refine ⟨.error ((Fault.load source cause).message help), fun s' halike => ?_⟩
    rw [execute_eq_onFile hfile, onFile]
    simp only [halike.tree, hbytes, halike.findAfter_eq, hload]
    exact Reply.tells_showError s'.audience _

/-! ## Log setups -/

/-- The log file that a setup adds, in the only form that files depend on. -/
def logFile (env : Environment) : List LogSinks.Effect :=
  if env.isOn "DOCGRAPH_FILE_LOGGING" then [.addFile (LogSinks.filePath env) ""] else []

theorem logEffects_eq (env : Environment) (options : Global) :
    ∃ (console : Bool) (level : String), logEffects env options = .removeAll ::
      ((if console then [.addConsole level] else []) ++
        if env.isOn "DOCGRAPH_FILE_LOGGING" then [.addFile (LogSinks.filePath env) level]
        else []) := by
  refine ⟨!((logRequest env options).suppressConsole.getD (env.isOn "DOCGRAPH_MACHINE_MODE")),
    (logRequest env options).level, ?_⟩
  rw [logEffects, LogSinks.effects]
  cases (logRequest env options).suppressConsole.getD (env.isOn "DOCGRAPH_MACHINE_MODE") <;> rfl

/-- What depends on the files of sinks alone depends on the log file alone. -/
theorem logEffects_logFile {α : Type} (f : List LogSinks.Effect → α)
    (hremove : ∀ effects, f (.removeAll :: effects) = f effects)
    (hconsole : ∀ level effects, f (.addConsole level :: effects) = f effects)
    (hfile : ∀ path level, f [.addFile path level] = f [.addFile path ""])
    (env : Environment) (options : Global) : f (logEffects env options) = f (logFile env) := by
  obtain ⟨console, level, heffects⟩ := logEffects_eq env options
  rw [heffects, hremove, logFile]
  cases env.isOn "DOCGRAPH_FILE_LOGGING" with
  | false => cases console <;> simp [hconsole]
  | true => cases console <;> simp [hconsole, hfile _ level]

theorem perform_logEffects (tree : FileTree) (env : Environment) (options : Global) :
    LogSinks.perform tree (logEffects env options) = LogSinks.perform tree (logFile env) :=
  logEffects_logFile (LogSinks.perform tree) (fun _ => rfl) (fun _ _ => rfl) (fun _ _ => rfl) env
    options

theorem write_logEffects (record : LogSinks.Record) (tree : FileTree) (env : Environment)
    (options : Global) : LogSinks.write (logEffects env options) record tree =
      LogSinks.write (logFile env) record tree :=
  logEffects_logFile (fun effects => LogSinks.write effects record tree) (fun _ => rfl)
    (fun _ _ => rfl) (fun _ _ => rfl) env options

def addressee (env : Environment) (options : Global) : Audience :=
  Audience.choose env (if options.human then some .human else none)

/-- Surroundings that differ at most in whom the environment and the options name. -/
theorem surroundings_alike {env env' : Environment} {tree : FileTree} {options : Global}
    {s : Surroundings} (hs : surroundings env tree options = .ok s)
    (henv : ∀ key, key ≠ "DOCGRAPH_HUMAN_MODE" → env' key = env key)
    (options' : Global) :
    ∃ s', surroundings env' tree options' = .ok s' ∧ s.Alike s' ∧
      s'.audience = addressee env' options' := by
  have hfile : logFile env' = logFile env := by
    rw [logFile, logFile, Environment.isOn, Environment.isOn, LogSinks.filePath,
      LogSinks.filePath, henv "DOCGRAPH_FILE_LOGGING" (by decide),
      henv "DOCGRAPH_LOG_DIR" (by decide)]
  have hperform : LogSinks.perform tree (logEffects env' options') =
      LogSinks.perform tree (logEffects env options) := by
    rw [perform_logEffects, perform_logEffects, hfile]
  rw [surroundings] at hs ⊢
  simp only [hperform]
  cases htree : LogSinks.perform tree (logEffects env options) with
  | error fault =>
    simp only [htree] at hs
    cases hs
  | ok tree' =>
    simp only [htree] at hs
    cases hs
    refine ⟨_, rfl, ⟨rfl, fun record t => ?_⟩, rfl⟩
    rw [write_logEffects, write_logEffects, hfile]

/-! ## Command lines -/

theorem letters?_human {options o : Global} {letters : List Char}
    (h : letters? options letters = some o) :
    letters? { options with human := true } letters = some { o with human := true } := by
  fun_induction letters? options letters with
  | case1 options =>
    cases h
    rfl
  | case2 options cs ih => exact ih h
  | case3 options cs ih => exact ih h
  | case4 => cases h

theorem request?_human {options o : Global} {name : String} {rest tokens : List String}
    {command : CommandName} (h : request? options name rest = some (.command o command tokens)) :
    request? { options with human := true } name rest =
      some (.command { o with human := true } command tokens) := by
  obtain ⟨found, hfound, he⟩ := Option.map_eq_some_iff.mp h
  cases he
  rw [request?, hfound, Option.map_some]

theorem parseFrom_human {options o : Global} {help : Bool} {arguments : List String}
    {name : CommandName} {tokens : List String}
    (h : parseFrom options help arguments = some (.command o name tokens)) :
    parseFrom { options with human := true } help arguments =
      some (.command { o with human := true } name tokens) := by
  fun_induction parseFrom options help arguments with
  | case1 | case2 | case3 | case5 | case9 | case11 | case12 => cases h
  | case4 options help token hdashes hhelp name rest =>
    rw [parseFrom, if_pos hdashes, if_neg hhelp]
    exact request?_human h
  | case6 options help token rest hdashes hhuman ih =>
    rw [parseFrom.eq_def]
    simp only [if_neg hdashes, if_pos hhuman]
    exact ih h
  | case7 options help token rest hdashes hhuman hverbose ih =>
    rw [parseFrom.eq_def]
    simp only [if_neg hdashes, if_neg hhuman, if_pos hverbose]
    exact ih h
  | case8 options help token rest hdashes hhuman hverbose hask ih =>
    rw [parseFrom.eq_def]
    simp only [if_neg hdashes, if_neg hhuman, if_neg hverbose, if_pos hask]
    exact ih h
  | case10 options help token rest hdashes hhuman hverbose hask c cs hc htoken more hletters ih =>
    rw [parseFrom.eq_def]
    simp only [if_neg hdashes, if_neg hhuman, if_neg hverbose, if_neg hask]
    split
    · next htoken' =>
      cases htoken.symm.trans htoken'
      exact absurd rfl hc
    · next htoken' =>
      cases htoken.symm.trans htoken'
      rw [letters?_human hletters]
      exact ih h
    · next hnone => exact absurd htoken (hnone c cs)
  | case13 options help token rest hdashes hhuman hverbose hask hhelp htwo hone =>
    rw [parseFrom.eq_def]
    simp only [if_neg hdashes, if_neg hhuman, if_neg hverbose, if_neg hask, if_neg hhelp]
    exact request?_human h

theorem parse_human {options : Global} {name : CommandName} {arguments tokens : List String}
    (h : parse arguments = some (.command options name tokens)) :
    parse ("--human" :: arguments) =
      some (.command { options with human := true } name tokens) :=
  parseFrom_human h

/--
A command line that asks a command for JSON has one reply. Whoever is chosen by the option for
humans or by the environment is told it with the same exit code: a value as one document on standard
output, an error as one document for machines and on the console for humans.
-/
theorem run_sameReply (help : Option String) {env : Environment} {tree : FileTree}
    {arguments tokens : List String} {options : Global} {name : CommandName} {command : Command}
    {s : Surroundings}
    (hparse : parse arguments = some (.command options name tokens))
    (hcommand : invocation? name tokens = some (.run command)) (hjson : command.asksJson = true)
    (hs : surroundings env tree options = .ok s)
    (hloads : ∀ file ∈ command.file?, s.Loads file) :
    parse ("--human" :: arguments) =
        some (.command { options with human := true } name tokens) ∧
      ∃ reply : Reply, ∀ env' options' arguments',
        parse arguments' = some (.command options' name tokens) →
        (∀ key, key ≠ "DOCGRAPH_HUMAN_MODE" → env' key = env key) →
        reply.Tells (addressee env' options') (run help env' tree arguments') := by
  obtain ⟨reply, hreply⟩ := execute_sameReply help hjson hloads
  refine ⟨parse_human hparse, reply, fun env' options' arguments' hparse' henv => ?_⟩
  obtain ⟨s', hs', halike, haudience⟩ := surroundings_alike hs henv options'
  have hrun : run help env' tree arguments' = execute help s' command := by
    simp only [run, hparse', hs', hcommand]
  rw [hrun, ← haudience]
  exact hreply s' halike

def unset : Environment := fun _ => none

/-- A machine asks for a document of two classes, and nothing is logged to files. -/
def asked : Surroundings where
  audience := .machine
  sinks := logEffects unset {}
  tree := (Surroundings.holding ((Json.classes false).print .compact)).tree

theorem asked_loads : asked.Loads "model.json" := by
  have halike : (Surroundings.holding ((Json.classes false).print .compact)).Alike asked :=
    ⟨rfl, fun _ _ => rfl⟩
  obtain ⟨hfile, hholds⟩ := Surroundings.offers_classes false
  rw [← halike.findAfter_eq] at hholds
  refine ⟨hfile, fun fault hfault => ?_⟩
  have hloaded : Graph.empty.loadJson (Path.normalize "model.json") (.classes false) = .ok _ :=
    eq_ok_getD (by decide +kernel) .empty
  rw [Graph.loadFile_eq_loadJson hholds, hloaded] at hfault
  cases hfault

theorem run_sameReply_classes :
    parse ["hierarchy", "model.json", "B", "--json"] =
        some (.command {} .hierarchy ["model.json", "B", "--json"]) ∧
      ∃ reply : Reply,
        reply.Tells .machine
          (run none unset asked.tree ["hierarchy", "model.json", "B", "--json"]) ∧
        reply.Tells .human
          (run none unset asked.tree ["--human", "hierarchy", "model.json", "B", "--json"]) := by
  have hparse : parse ["hierarchy", "model.json", "B", "--json"] =
      some (.command {} .hierarchy ["model.json", "B", "--json"]) := by decide
  have hcommand : invocation? .hierarchy ["model.json", "B", "--json"] =
      some (.run (.hierarchy "model.json" "B" true)) := by decide
  have hasked : surroundings unset asked.tree {} = .ok asked := rfl
  have hloads : ∀ file ∈ (Command.hierarchy "model.json" "B" true).file?, asked.Loads file := by
    intro file hfile
    cases hfile
    exact asked_loads
  obtain ⟨hhuman, reply, hreply⟩ := run_sameReply none hparse hcommand rfl hasked hloads
  exact ⟨hparse, reply, hreply unset {} _ hparse fun _ _ => rfl,
    hreply unset { human := true } _ hhuman fun _ _ => rfl⟩

/-- Humans and machines learn of an error in different places. -/
theorem run_errorForHumans :
    let tree := (Surroundings.holding "\x7b\x7d").tree
    let arguments := ["hierarchy", "model.json", "X", "--json"]
    (run none unset tree arguments).exit = 1 ∧
      (run none unset tree ("--human" :: arguments)).exit = 1 ∧
      (run none unset tree arguments).stdout =
        "\x7b\"status\": \"error\", \"message\": \"No class or interface named 'X'\"\x7d\n" ∧
      (run none unset tree ("--human" :: arguments)).stdout = "" := by
  decide +kernel

end Lineage.CommandLine
