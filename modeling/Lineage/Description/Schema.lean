import Lineage.Description
import Lineage.Description.Checked
import Lineage.Description.IntegerText

/-!
# Reading descriptions

Decodes a JSON value into a described project. Members that a model does not know are ignored. An
absent member takes its default, if it has one; every violation is reported at its place, in the
order of the fields.
-/

namespace Lineage

namespace Schema

/-! ## Leaves -/

def string : Json → Checked String
  | .string s => .valid s
  | v => .fail .notString v

/-- The least and the greatest integer that a double may describe lie strictly within this bound. -/
def integerBound : Int := Int.ofNat (Nat.pow 2 63)

/-- An integer: a number without fraction, a truth value, or a text that reads as one. -/
def integer : Json → Checked Int
  | .int n => .valid n
  | .bool b => .valid b.toNat
  | .float x =>
    if x.isFinite then
      match x.toInt? with
      | none => .fail .fractionalInteger (.float x)
      | some n =>
        if -integerBound < n ∧ n < integerBound then .valid n
        else .fail .oversizedInteger (.float x)
    else .fail .notFinite (.float x)
  | .string s =>
    match IntegerText.read s with
    | .integer n => .valid n
    | .unreadable => .fail .unreadableInteger (.string s)
    | .oversized => .fail .oversizedInteger (.string s)
  | v => .fail .notInteger v

def dictionary : Json → Checked (List (String × Json))
  | .object members => .valid members
  | v => .fail .notDictionary v

def nullable {α : Type} (decode : Json → Checked α) : Json → Checked (Option α)
  | .null => .valid none
  | v => (decode v).map some

/-! ## Members -/

def required {α : Type} (members : List (String × Json)) (name : String)
    (decode : Json → Checked α) : Checked α :=
  match Json.member? name members with
  | none => (Checked.fail .missing (.object members)).under (.member name)
  | some v => (decode v).under (.member name)

def optional {α : Type} (members : List (String × Json)) (name : String) (default : α)
    (decode : Json → Checked α) : Checked α :=
  match Json.member? name members with
  | none => .valid default
  | some v => (decode v).under (.member name)

def itemsFrom {α : Type} (decode : Json → Checked α) (position : Nat) :
    List Json → Checked (List α)
  | [] => .valid []
  | v :: vs =>
    List.cons <$> (decode v).under (.item position) <*> itemsFrom decode (position + 1) vs

def list {α : Type} (decode : Json → Checked α) : Json → Checked (List α)
  | .array items => itemsFrom decode 0 items
  | v => .fail .notList v

/-! ## Types -/

mutual

/-- A type, selected by its tag; violations below it pass through the tag. -/
def type : Json → Checked TypeEntry
  | .object members =>
    match Json.member? "type" members with
    | none => .fail .untagged (.object members)
    | some (.string "reference") =>
      (TypeEntry.reference <$> required members "name" string <*>
        optional members "symbol_id" none (nullable integer) <*>
        argumentsIn members).under (.member "reference")
    | some (.string "tuple") =>
      (TypeEntry.tuple <$> typesIn "elements" members).under (.member "tuple")
    | some (.string "union") =>
      (TypeEntry.union <$> typesIn "types" members).under (.member "union")
    | some (.string "intrinsic") =>
      (TypeEntry.intrinsic <$> required members "name" string).under (.member "intrinsic")
    | some (.string "stringLiteral") =>
      (TypeEntry.literal <$> required members "value" string).under (.member "stringLiteral")
    | some (.string "unknown") =>
      (TypeEntry.unknown <$> required members "name" string).under (.member "unknown")
    | some tag => .fail (.unknownTag tag) (.object members)
  | v => .fail .notType v

def typesFrom (position : Nat) : List Json → Checked (List TypeEntry)
  | [] => .valid []
  | v :: vs => List.cons <$> (type v).under (.item position) <*> typesFrom (position + 1) vs

/-- The list of types in the member of a name, empty if there is none. -/
def typesIn (name : String) : List (String × Json) → Checked (List TypeEntry)
  | [] => .valid []
  | (key, v) :: rest =>
    if key = name then
      match v with
      | .array items => (typesFrom 0 items).under (.member name)
      | v => (Checked.fail .notList v).under (.member name)
    else typesIn name rest

def argumentsIn : List (String × Json) → Checked (Option (List TypeEntry))
  | [] => .valid none
  | (key, v) :: rest =>
    if key = "type_arguments" then
      match v with
      | .null => .valid none
      | .array items => ((typesFrom 0 items).map some).under (.member "type_arguments")
      | v => (Checked.fail .notList v).under (.member "type_arguments")
    else argumentsIn rest

end

/-! ## Models -/

def decorator : Json → Checked DecoratorEntry
  | .object members =>
    DecoratorEntry.mk <$> required members "name" string <*>
      optional members "type" none (nullable type) <*>
      optional members "arguments" [] dictionary
  | v => .fail (.notModel "DecoratorSpec") v

def declaration : Json → Checked DeclarationEntry
  | .object members =>
    DeclarationEntry.mk <$> required members "id" integer <*> required members "name" string <*>
      required members "kind" string <*>
      optional members "symbol_id" none (nullable integer) <*>
      optional members "parent" none (nullable integer) <*>
      optional members "type" none (nullable type) <*>
      optional members "inherited_from" none (nullable type) <*>
      optional members "overwrites" none (nullable type) <*>
      optional members "extended_types" [] (list type) <*>
      optional members "implemented_types" [] (list type) <*>
      optional members "decorators" [] (list decorator)
  | v => .fail (.notModel "DeclarationSpec") v

def project (members : List (String × Json)) : Checked Description :=
  Description.mk <$> optional members "name" "project" string <*>
    optional members "declarations" [] (list declaration)

end Schema

end Lineage
