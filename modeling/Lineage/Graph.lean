import Lineage.Declaration
import Lineage.Index
import Lineage.Text.Decimal

/-!
# Graphs

The tables that hold all declarations, projects and links, with registration and lookup. A project
knows its declarations by id; a declaration belongs to the children of exactly the scope it was
registered under.
-/

namespace Lineage

/-- A project: its top-level declarations, and its declarations by id and by symbol number. -/
structure Project where
  name : String
  children : List DeclKey := []
  index : Index DeclKey := []
  symbols : Index Int := []
  nextId : Int := 1

namespace Project

/-- The id that a declaration is registered under: its own, or the next free one of the project. -/
def idFor (p : Project) (d : Declaration) : Int :=
  if d.id < 0 then p.nextId else d.id

/-- Enters a declaration into the tables of a project. -/
def enter (p : Project) (id : Int) (key : DeclKey) (symbol : Option Int) : Project :=
  { p with
    index := p.index.set id key
    symbols := symbol.elim p.symbols fun s => p.symbols.set s id
    nextId := max p.nextId (id + 1) }

end Project

/-- Why a call to register a declaration fails: another one is registered under its id, or its own
registration cannot be reported. -/
inductive Refusal
  | taken (id : Int)
  | unreported
  deriving DecidableEq

/-- All declarations, projects and links. -/
structure Graph where
  declarations : Array Declaration := #[]
  projects : Array Project := #[]
  links : Links := #[]

namespace Graph

def empty : Graph := {}

/-! ## Tables -/

def declaration? (g : Graph) (key : DeclKey) : Option Declaration :=
  g.declarations[key]?

def project? (g : Graph) (key : ProjectKey) : Option Project :=
  g.projects[key]?

def modify (g : Graph) (key : DeclKey) (f : Declaration → Declaration) : Graph :=
  { g with declarations := g.declarations.modify key f }

def modifyProject (g : Graph) (key : ProjectKey) (f : Project → Project) : Graph :=
  { g with projects := g.projects.modify key f }

/-- Adds a declaration that no project knows yet; its key is the number of those before it. -/
def add (g : Graph) (d : Declaration) : Graph :=
  { g with declarations := g.declarations.push d }

def addProject (g : Graph) (name : String) : Graph :=
  { g with projects := g.projects.push { name := name } }

def addLinks (g : Graph) (count : Nat) : Graph :=
  { g with links := g.links ++ Array.replicate count none }

/-! ## Registration -/

def addChild (g : Graph) (scope : Scope) (key : DeclKey) : Graph :=
  match scope with
  | .declaration parent => g.modify parent fun d => { d with children := d.children ++ [key] }
  | .project p => g.modifyProject p fun q => { q with children := q.children ++ [key] }

/--
Enters a declaration into the tables of a project. Without a parent it becomes a top-level
declaration. The result is the id that is already taken, if it is.
-/
def enter (g : Graph) (project : ProjectKey) (key : DeclKey) (symbol : Option Int) :
    Except Int Graph :=
  match g.project? project, g.declaration? key with
  | some p, some d =>
    let id := p.idFor d
    if p.index.holds id then .error id
    else
      let scope := d.parent.getD (.project project)
      let g := g.modify key fun d => { d with id := id, parent := some scope }
      let g := g.modifyProject project fun p => p.enter id key symbol
      .ok (g.addChild scope key)
  | _, _ => .ok g

def assignId (g : Graph) (project : ProjectKey) (key : DeclKey) : Graph :=
  match g.project? project with
  | some p => g.modify key fun d => { d with id := p.idFor d }
  | none => g

/-- Reports a registered declaration by its id, unless this is too long to be written. -/
def report (g : Graph) (key : DeclKey) : Except Refusal DeclKey :=
  if ∀ d ∈ g.declaration? key, Text.Writable d.id then .ok key else .error .unreported

/--
Registers a declaration, which may be in use already. It is given its id before the id is found to
be taken, and keeps it then. The report comes last: where it fails, the declaration is registered
all the same.
-/
def register (g : Graph) (project : ProjectKey) (key : DeclKey) (symbol : Option Int) :
    Except Refusal DeclKey × Graph :=
  let g := g.assignId project key
  match g.enter project key symbol with
  | .ok g' => (g'.report key, g')
  | .error id => (.error (.taken id), g)

def create (g : Graph) (project : ProjectKey) (name : String) (kind : Kind)
    (parent : Option Scope) (symbol : Option Int) : Except Refusal DeclKey × Graph :=
  (g.add { name := name, kind := kind, parent := parent }).register project g.declarations.size
    symbol

/-! ## Declarations of a project -/

/-- The declarations of a project in ascending order of the ids they were registered under. -/
def declarationsOf (g : Graph) (project : ProjectKey) : List DeclKey :=
  ((g.project? project).map fun p => p.index.values).getD []

def byId? (g : Graph) (project : ProjectKey) (id : Int) : Option DeclKey := do
  (← g.project? project).index.get? id

def bySymbol? (g : Graph) (project : ProjectKey) (symbol : Int) : Option DeclKey := do
  let p ← g.project? project
  p.index.get? (← p.symbols.get? symbol)

def byKind (g : Graph) (project : ProjectKey) (kind : Kind) : List DeclKey :=
  (g.declarationsOf project).filter fun key =>
    (g.declaration? key).any fun d => d.kind.meets kind

def classesOf (g : Graph) (project : ProjectKey) : List DeclKey :=
  g.byKind project .classOrInterface

/-! ## Links -/

def target? (g : Graph) (r : Reference) : Option Target :=
  r.target? g.links

def isLinked (g : Graph) (r : Reference) : Bool :=
  (g.target? r).isSome

/-- The declarations that the types at the top of a list are linked to. -/
def targets (g : Graph) (types : Option (List TypeExpr)) : List DeclKey :=
  (types.getD []).filterMap fun t => t.head?.bind (·.declaration? g.links)

end Graph

end Lineage
