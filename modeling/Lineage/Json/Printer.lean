import Lineage.Json
import Lineage.Binary64.Shortest
import Lineage.Text.Decimal
import Lineage.Text.Quoted

/-!
# Writing JSON

A value is written in printable ASCII, on one line with a choice of separators or indented. Other
characters become escapes of their UTF-16 code units. Another text form, for messages, shows a
value the way a programmer would write it down.
-/

namespace Lineage.Json

/-! ## Strings -/

def unitEscape (unit : Nat) : List Char :=
  '\\' :: 'u' :: Text.hex 4 unit

def stringChar (c : Char) : List Char :=
  let n := c.toNat
  if c == '"' || c == '\\' then ['\\', c]
  else if c == '\n' then ['\\', 'n']
  else if c == '\r' then ['\\', 'r']
  else if c == '\t' then ['\\', 't']
  else if c == '\x08' then ['\\', 'b']
  else if c == '\x0c' then ['\\', 'f']
  else if 0x20 ≤ n && n < 0x7F then [c]
  else if n < 0x10000 then unitEscape n
  else unitEscape (0xD800 + (n - 0x10000) / 0x400) ++ unitEscape (0xDC00 + (n - 0x10000) % 0x400)

def stringLiteral (s : String) : String :=
  String.ofList ('"' :: s.toList.flatMap stringChar ++ ['"'])

/-! ## Documents -/

def floatLiteral : Binary64 → String
  | .nan => "NaN"
  | .infinite negative => if negative then "-Infinity" else "Infinity"
  | x => x.text

/-- How a document is laid out: its separators, and the width of an indent if it has one. -/
structure Layout where
  comma : String
  colon : String
  indent : Option Nat

def Layout.compact : Layout := ⟨",", ":", none⟩

def Layout.spaced : Layout := ⟨", ", ": ", none⟩

def Layout.indented : Layout := ⟨",", ": ", some 2⟩

def Layout.lineBreak (l : Layout) (depth : Nat) : String :=
  match l.indent with
  | none => ""
  | some width => String.ofList ('\n' :: List.replicate (width * depth) ' ')

mutual

def render (l : Layout) (depth : Nat) : Json → String
  | .null => "null"
  | .bool b => if b then "true" else "false"
  | .int n => toString n
  | .float x => floatLiteral x
  | .string s => stringLiteral s
  | .array [] => "[]"
  | .array items =>
    "[" ++ l.lineBreak (depth + 1) ++ renderItems l (depth + 1) items ++ l.lineBreak depth ++ "]"
  | .object [] => "\x7b\x7d"
  | .object members =>
    "\x7b" ++ l.lineBreak (depth + 1) ++ renderMembers l (depth + 1) members ++
      l.lineBreak depth ++ "\x7d"

def renderItems (l : Layout) (depth : Nat) : List Json → String
  | [] => ""
  | [v] => render l depth v
  | v :: vs => render l depth v ++ l.comma ++ l.lineBreak depth ++ renderItems l depth vs

def renderMembers (l : Layout) (depth : Nat) : List (String × Json) → String
  | [] => ""
  | [(name, v)] => stringLiteral name ++ l.colon ++ render l depth v
  | (name, v) :: ms =>
    stringLiteral name ++ l.colon ++ render l depth v ++ l.comma ++ l.lineBreak depth ++
      renderMembers l depth ms

end

def print (l : Layout) (v : Json) : String :=
  render l 0 v

/-! ## Values in messages -/

mutual

def inspect : Json → String
  | .null => "None"
  | .bool b => if b then "True" else "False"
  | .int n => toString n
  | .float x => x.text
  | .string s => Text.quoted s
  | .array items => "[" ++ inspectItems items ++ "]"
  | .object members => "\x7b" ++ inspectMembers members ++ "\x7d"

def inspectItems : List Json → String
  | [] => ""
  | [v] => inspect v
  | v :: vs => inspect v ++ ", " ++ inspectItems vs

def inspectMembers : List (String × Json) → String
  | [] => ""
  | [(name, v)] => Text.quoted name ++ ": " ++ inspect v
  | (name, v) :: ms => Text.quoted name ++ ": " ++ inspect v ++ ", " ++ inspectMembers ms

end

mutual

/-- Whether all integers in a value are short enough to be written. -/
def isWritable : Json → Bool
  | .int n => decide (Text.Writable n)
  | .array items => areWritable items
  | .object members => membersWritable members
  | _ => true

def areWritable : List Json → Bool
  | [] => true
  | v :: vs => isWritable v && areWritable vs

def membersWritable : List (String × Json) → Bool
  | [] => true
  | (_, v) :: ms => isWritable v && membersWritable ms

end

def typeName : Json → String
  | .null => "NoneType"
  | .bool _ => "bool"
  | .int _ => "int"
  | .float _ => "float"
  | .string _ => "str"
  | .array _ => "list"
  | .object _ => "dict"

/-- A value in a message, or a stand-in for one that cannot be written. -/
def quote (v : Json) : String :=
  if v.isWritable then v.inspect else "<unprintable " ++ v.typeName ++ " object>"

def display : Json → String
  | .string s => s
  | v => v.quote

end Lineage.Json
