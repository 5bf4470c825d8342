import Lineage.Binary64.Shortest
import Lineage.Console
import Lineage.Coverage
import Lineage.Encoding

/-!
# Reports

The figures of a project, its classes and its dangling references, as JSON values and as items for
a human.
-/

namespace Lineage

/-! ## Figures -/

/-- A figure of a report: a count or a share. -/
inductive Figure
  | count (n : Nat)
  | share (x : Binary64)

def Figure.encode : Figure → Json
  | .count n => .int n
  | .share x => .float x

def Figure.text : Figure → String
  | .count n => toString n
  | .share x => x.percent

namespace Coverage

def figures (c : Coverage) : List (String × Figure) :=
  [("total_declarations", .count c.declarations),
    ("class_or_interface_declarations", .count c.classes),
    ("total_references", .count c.references),
    ("linked_references", .count c.linked),
    ("dangling_references", .count c.dangling),
    ("resolution_rate", .share c.rate),
    ("hierarchies", .count c.hierarchies)]

def encode (c : Coverage) : Json :=
  .object (c.figures.map fun f => (f.1, f.2.encode))

def table (c : Coverage) (project : String) : Item :=
  .table ("Resolution of '" ++ project ++ "'")
    [{ header := "Metric", style := "cyan" }, { header := "Value", justify := "right" }]
    (c.figures.map fun f =>
      [String.ofList (f.1.toList.map fun c => if c == '_' then ' ' else c), f.2.text])

end Coverage

/-! ## Trees -/

def Tree.chain : List String → List Tree
  | [] => []
  | label :: labels => [.node label (Tree.chain labels)]

namespace Hierarchy.Level

def label (l : Hierarchy.Level) : String :=
  let text := Markup.escape (TypeExpr.textOf ", " l.types)
  if l.isTarget then "[bold cyan]" ++ text ++ "[/bold cyan]" else text

end Hierarchy.Level

namespace Graph

def branch (title : String) (types : Option (List TypeExpr)) : List Tree :=
  match types.getD [] with
  | [] => []
  | ts => [.node (title ++ Markup.escape (TypeExpr.textOf ", " ts)) []]

/-- The hierarchy of a declaration as a tree; none if its kind has no name. -/
def tree? (g : Graph) (key : DeclKey) : Option Tree := do
  let d ← g.declaration? key
  let kind ← d.kind.lowerName?
  let label :=
    "[bold]" ++ Markup.escape (g.fullName key) ++ "[/bold] [dim](" ++ kind ++ ")[/dim]"
  return .node label
    (Tree.chain ((d.levels?.getD []).map (·.label)) ++
      branch "implements: " d.implementedTypes ++ branch "implemented by: " d.implementedBy)

/-! ## Dangling references -/

/-- The dangling references of a project: the full name of the declaration, and the reference. -/
def danglingRows (g : Graph) (project : ProjectKey) : List (String × String) :=
  (g.danglingIn project).map fun e => (g.fullName e.1, e.2.name)

def encodeDangling (g : Graph) (project : ProjectKey) : Json :=
  let rows := g.danglingRows project
  .object
    [("dangling", .array (rows.map fun r =>
        .object [("declaration", .string r.1), ("reference", .string r.2)])),
      ("count", .int rows.length)]

/-- The dangling references for a human: a table, or a line if there are none. -/
def danglingItem (g : Graph) (project : ProjectKey) : Item :=
  match g.danglingRows project with
  | [] => .text "[green]All references resolved.[/green]"
  | rows =>
    .table ("Dangling references (" ++ toString rows.length ++ ")")
      [{ header := "Declaration", style := "cyan" }, { header := "Reference", style := "yellow" }]
      (rows.map fun r => [Markup.escape r.1, Markup.escape r.2])

/-! ## Projects -/

def encodeProject? (g : Graph) (project : ProjectKey) : Option Json := do
  let p ← g.project? project
  let classes ← (g.classesOf project).mapM g.encode?
  return .object
    [("project", .string p.name), ("stats", (g.coverage project).encode),
      ("declarations", .array classes)]

/-- A whole project for a human: the table of its report, and a tree for each of its classes. -/
def projectItems? (g : Graph) (project : ProjectKey) : Option (List Item) := do
  let p ← g.project? project
  let trees ← (g.classesOf project).mapM g.tree?
  return (g.coverage project).table p.name :: trees.map .tree

end Graph

end Lineage
