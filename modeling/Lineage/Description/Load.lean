import Lineage.Description.Schema
import Lineage.Fault

/-!
# Loading

Turns a description into a project of a graph. All declarations are placed first, so that a parent
may be described after its children; then each is registered in the order of the description.
-/

namespace Lineage

/-! ## Declarations -/

namespace DecoratorEntry

def referenceCount (s : DecoratorEntry) : Nat :=
  TypeEntry.referenceCountOf s.type.toList

/-- The annotations that a list describes, their references using the links from `link` on. -/
def toDecorators (link : LinkKey) : List DecoratorEntry → List Decorator
  | [] => []
  | s :: rest =>
    ⟨s.name, s.type.map (·.toExpr link), s.arguments⟩ ::
      toDecorators (link + s.referenceCount) rest

end DecoratorEntry

/-- A list that counts as absent when it is empty. -/
def nonempty? {α : Type} : List α → Option (List α)
  | [] => none
  | items => some items

namespace DeclarationEntry

def toDeclaration (s : DeclarationEntry) (kind : Kind) (parent : Option Scope) (link : LinkKey) :
    Declaration :=
  let count := TypeEntry.referenceCountOf
  let inheritedFrom := link + count s.type.toList
  let overwrites := inheritedFrom + count s.inheritedFrom.toList
  let extended := overwrites + count s.overwrites.toList
  let implemented := extended + count s.extendedTypes
  let decorators := implemented + count s.implementedTypes
  { id := s.id
    name := s.name
    kind := kind
    parent := parent
    type := s.type.map (·.toExpr link)
    inheritedFrom := s.inheritedFrom.map (·.toExpr inheritedFrom)
    overwrites := s.overwrites.map (·.toExpr overwrites)
    extendedTypes := nonempty? (TypeEntry.toExprs extended s.extendedTypes)
    implementedTypes := nonempty? (TypeEntry.toExprs implemented s.implementedTypes)
    decorators := nonempty? (DecoratorEntry.toDecorators decorators s.decorators) }

/-- Where the parent of a declaration stands, the declarations being placed from `base` on. -/
def scopeIn (s : DeclarationEntry) (base : DeclKey) (all : List DeclarationEntry) : Option Scope :=
  (s.parent.bind fun parent => all.findIdx? (·.id == parent)).map fun i => .declaration (base + i)

end DeclarationEntry

namespace Graph

/-! ## Projects -/

/-- Adds a described declaration together with its links, without registering it. -/
def place (base : DeclKey) (all : List DeclarationEntry) (g : Graph)
    (entry : DeclarationEntry × Kind) : Graph :=
  let s := entry.1
  (g.add (s.toDeclaration entry.2 (s.scopeIn base all) g.links.size)).addLinks s.referenceCount

/-- Registers described declarations that stand from `key` on, up to the first that fails. -/
def registerFrom (g : Graph) (project : ProjectKey) (key : DeclKey) :
    List DeclarationEntry → Except Fault Graph
  | [] => .ok g
  | s :: rest =>
    match g.register project key s.symbol with
    | (.ok _, g) => g.registerFrom project (key + 1) rest
    | (.error refusal, _) => .error refusal.fault

/-- Adds a described project to the graph; its key is the number of projects before it. -/
def adopt (g : Graph) (source : String) (spec : Description) : Except Fault Graph :=
  match Forest.check spec.declarations with
  | .error defect => .error (defect.fault source)
  | .ok kinds =>
    let base := g.declarations.size
    let placed :=
      (spec.declarations.zip kinds).foldl (place base spec.declarations) (g.addProject spec.name)
    placed.registerFrom g.projects.size base spec.declarations

/-! ## Documents -/

def loadJson (g : Graph) (source : String) : Json → Except Fault Graph
  | .object members =>
    match Schema.project members with
    | .valid spec => g.adopt source spec
    | .invalid vs => .error (.load source (.violations vs))
  | _ => .error (.load source .notObject)

def loadText (g : Graph) (source text : String) : Except Fault Graph :=
  match Json.read text with
  | .ok v => g.loadJson source v
  | .error (.malformed complaint position) =>
    .error (.load source (.malformed complaint position))
  | .error (.numeralTooLong digits) => .error (.numeralTooLong digits)

end Graph

/-! ## Files -/

def Graph.loadFile (g : Graph) (path : String) : FileEntry → Except Fault Graph
  | .missing => .error (.load path .notFound)
  | .tooLong => .error (.path .tooLong)
  | .directory => .error (.load path (.directory path))
  | .file bytes =>
    match Text.Utf8.decode bytes with
    | .ok cs => g.loadText path (String.ofList (Text.Utf8.unifyLineEnds cs))
    | .error fault => .error (.load path (.encoding fault))

end Lineage
