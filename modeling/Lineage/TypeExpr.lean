import Lineage.Key

/-!
# Type expressions

The types that a declaration mentions. A reference names a declaration; where it leads is kept in
the link table of the graph, so that a type expression never changes and the same reference may
stand in several places. References that are made already linked carry their target themselves.
-/

namespace Lineage

/-! ## References -/

/-- What a reference can lead to; only declarations take part in inheritance. -/
inductive Target
  | declaration (key : DeclKey)
  | project (key : ProjectKey)
  | foreign (name : String)
  deriving DecidableEq, Repr

/-- Where the target of a reference is found: in a link of the graph or in the reference. -/
inductive Anchor
  | link (key : LinkKey)
  | bound (target : Target)
  deriving DecidableEq, Repr

/-- The links of a graph, each empty until its references are resolved. -/
abbrev Links := Array (Option DeclKey)

/-- A name in a type, together with the symbol number it is looked up by. -/
structure Reference where
  name : String
  symbol : Int
  anchor : Anchor
  deriving DecidableEq, Repr

namespace Reference

/-- The symbol number of a reference that is looked up by name. -/
def byName : Int := -2

/-- The symbol number of a reference that is never looked up. -/
def settled : Int := -1

def toDeclaration (name : String) (key : DeclKey) : Reference :=
  ⟨name, settled, .bound (.declaration key)⟩

def target? (links : Links) (r : Reference) : Option Target :=
  match r.anchor with
  | .bound t => some t
  | .link key => (links[key]?.join).map .declaration

def declaration? (links : Links) (r : Reference) : Option DeclKey :=
  match r.target? links with
  | some (.declaration key) => some key
  | _ => none

end Reference

/-! ## Expressions -/

/-- A type; `blank` is an empty place in a list of types. -/
inductive TypeExpr
  | reference (head : Reference)
  | applied (head : Reference) (arguments : List TypeExpr)
  | tuple (elements : List TypeExpr)
  | union (members : List TypeExpr)
  | intrinsic (name : String)
  | literal (value : String)
  | unknown (name : String)
  | blank
  deriving Repr, Inhabited

namespace TypeExpr

def head? : TypeExpr → Option Reference
  | reference r => some r
  | applied r _ => some r
  | _ => none

/-- The name that a type is sorted by; composite types and literals have none. -/
def name? : TypeExpr → Option String
  | reference r => some r.name
  | applied r _ => some r.name
  | intrinsic name => some name
  | unknown name => some name
  | _ => none

mutual

/-- The references of a type, from the outside in and from left to right. -/
def references : TypeExpr → List Reference
  | reference r => [r]
  | applied r arguments => r :: referencesOf arguments
  | tuple elements => referencesOf elements
  | union members => referencesOf members
  | _ => []

def referencesOf : List TypeExpr → List Reference
  | [] => []
  | t :: ts => t.references ++ referencesOf ts

end

/-! ## Text -/

mutual

def text : TypeExpr → String
  | reference r => r.name
  | applied r [] => r.name
  | applied r arguments => r.name ++ "<" ++ textOf ", " arguments ++ ">"
  | tuple elements => "[" ++ textOf ", " elements ++ "]"
  | union members => textOf " | " members
  | intrinsic name => name
  | literal value => "\"" ++ value ++ "\""
  | unknown name => name
  | blank => "None"

def textOf (separator : String) : List TypeExpr → String
  | [] => ""
  | [t] => t.text
  | t :: ts => t.text ++ separator ++ textOf separator ts

end

end TypeExpr

end Lineage
