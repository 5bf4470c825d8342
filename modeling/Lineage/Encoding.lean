import Lineage.Graph

/-!
# Encoding

The JSON form of types, chains and declarations. A linked reference carries the id of its
declaration; what leads elsewhere than to a declaration, and an empty place, have no JSON form.
-/

namespace Lineage

/-! ## Types -/

namespace Graph

/-- The id that a linked reference shows; none if its target has no id. -/
def shownId? (g : Graph) (r : Reference) : Option (List (String × Json)) :=
  match g.target? r with
  | none => some []
  | some (.declaration key) => (g.declaration? key).map fun d => [("id", .int d.id)]
  | some _ => none

mutual

def encodeType? (g : Graph) : TypeExpr → Option Json
  | .reference r => do
    return .object (("type", .string "reference") :: ("name", .string r.name) :: (← g.shownId? r))
  | .applied r [] => do
    return .object (("type", .string "reference") :: ("name", .string r.name) :: (← g.shownId? r))
  | .applied r arguments => do
    let shown ← g.shownId? r
    let items ← g.encodeTypes? arguments
    return .object
      (("type", .string "reference") :: ("name", .string r.name) ::
        (shown ++ [("type_arguments", .array items)]))
  | .tuple elements => do
    return .object [("type", .string "tuple"), ("elements", .array (← g.encodeTypes? elements))]
  | .union members => do
    return .object [("type", .string "union"), ("types", .array (← g.encodeTypes? members))]
  | .intrinsic name => some (.object [("type", .string "intrinsic"), ("name", .string name)])
  | .literal value => some (.object [("type", .string "stringLiteral"), ("value", .string value)])
  | .unknown name => some (.object [("type", .string "unknown"), ("name", .string name)])
  | .blank => none

def encodeTypes? (g : Graph) : List TypeExpr → Option (List Json)
  | [] => some []
  | t :: ts => do return (← g.encodeType? t) :: (← g.encodeTypes? ts)

end

end Graph

/-! ## Chains -/

def Hierarchy.Level.encode (l : Hierarchy.Level) : Json :=
  .object
    [("types", .array (l.types.map fun t => .string t.text)), ("is_target", .bool l.isTarget)]

/-! ## Declarations -/

/-- The JSON form of a kind: its name in lower case, or its flags as a number. -/
def Kind.encode (k : Kind) : Json :=
  match k.lowerName? with
  | some name => .string name
  | none => .int k.flags

namespace Graph

/-- A member for a list of types, left out when the list is empty. -/
def encodeList? (g : Graph) (name : String) (types : Option (List TypeExpr)) :
    Option (List (String × Json)) :=
  match types.getD [] with
  | [] => some []
  | ts => (g.encodeTypes? ts).map fun items => [(name, .array items)]

def encodeDeclaration? (g : Graph) (d : Declaration) : Option Json := do
  let head := [("id", Json.int d.id), ("name", .string d.name), ("kind", d.kind.encode)]
  let extendedTypes ← g.encodeList? "extended_types" d.extendedTypes
  let extendedBy ← g.encodeList? "extended_by" d.extendedBy
  let implementedTypes ← g.encodeList? "implemented_types" d.implementedTypes
  let implementedBy ← g.encodeList? "implemented_by" d.implementedBy
  let hierarchy :=
    d.levels?.elim [] fun ls => [("type_hierarchy", Json.array (ls.map (·.encode)))]
  return .object
    (head ++ extendedTypes ++ extendedBy ++ implementedTypes ++ implementedBy ++ hierarchy)

def encode? (g : Graph) (key : DeclKey) : Option Json :=
  (g.declaration? key).bind g.encodeDeclaration?

end Graph

end Lineage
