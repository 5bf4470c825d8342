import Lineage.Json.Printer

/-!
# Checked values

The outcome of a check that goes on after a violation: a value, or every violation in the order of
the fields, each with the path from the root of the document to its place and with what was found
there. A report of violations shows all of this.
-/

namespace Lineage

/-! ## Violations -/

/-- A step of a path: into a member, or to an item. -/
inductive Step
  | member (name : String)
  | item (position : Nat)
  deriving DecidableEq, Repr

/-- What a document does wrong at a place. -/
inductive Cause
  | missing
  | notString
  | notList
  | notDictionary
  | notModel (model : String)
  | notType
  | untagged
  | unknownTag (tag : Json)
  | notInteger
  | unreadableInteger
  | oversizedInteger
  | fractionalInteger
  | notFinite

def Cause.name : Cause → String
  | .missing => "missing"
  | .notString => "string_type"
  | .notList => "list_type"
  | .notDictionary => "dict_type"
  | .notModel _ => "model_type"
  | .notType => "model_attributes_type"
  | .untagged => "union_tag_not_found"
  | .unknownTag _ => "union_tag_invalid"
  | .notInteger => "int_type"
  | .unreadableInteger => "int_parsing"
  | .oversizedInteger => "int_parsing_size"
  | .fractionalInteger => "int_from_float"
  | .notFinite => "finite_number"

def Cause.message : Cause → String
  | .missing => "Field required"
  | .notString => "Input should be a valid string"
  | .notList => "Input should be a valid list"
  | .notDictionary => "Input should be a valid dictionary"
  | .notModel model => "Input should be a valid dictionary or instance of " ++ model
  | .notType => "Input should be a valid dictionary or object to extract fields from"
  | .untagged => "Unable to extract tag using discriminator 'type'"
  | .unknownTag tag =>
    "Input tag '" ++ tag.display ++ "' found using 'type' does not match any of the expected " ++
      "tags: 'reference', 'tuple', 'union', 'intrinsic', 'stringLiteral', 'unknown'"
  | .notInteger => "Input should be a valid integer"
  | .unreadableInteger =>
    "Input should be a valid integer, unable to parse string as an integer"
  | .oversizedInteger => "Unable to parse input string as an integer, exceeded maximum size"
  | .fractionalInteger => "Input should be a valid integer, got a number with a fractional part"
  | .notFinite => "Input should be a finite number"

/-- A place in a document with what is wrong there, and the value at fault: what stands there, or
the object that a missing member is missing from. -/
structure Violation where
  path : List Step
  cause : Cause
  input : Json

/-! ## Reports -/

/-- The characters at the front of a text that take no more than a number of bytes. -/
def Text.takeBytes (limit : Nat) : List Char → List Char
  | [] => []
  | c :: cs =>
    if c.utf8Size ≤ limit then c :: takeBytes (limit - c.utf8Size) cs else []

/-- A text that is short enough, or else its two ends. -/
def Text.abridged (s : String) : String :=
  if s.utf8ByteSize ≤ 50 then s
  else
    String.ofList (takeBytes 25 s.toList) ++ "..." ++
      String.ofList (takeBytes 24 s.toList.reverse).reverse

def Step.text : Step → String
  | .member name => name
  | .item position => toString position

/-- The lines on a violation. The last of them says where more is to be found on its cause, if there
is such a place. -/
def Violation.text (help : Option String) (v : Violation) : String :=
  ".".intercalate (v.path.map Step.text) ++ "\n  " ++ v.cause.message ++
    " [type=" ++ v.cause.name ++ ", input_value=" ++ Text.abridged v.input.quote ++
    ", input_type=" ++ v.input.typeName ++ "]" ++
    (help.elim "" fun address => "\n    For further information visit " ++ address ++ v.cause.name)

def Violation.report (help : Option String) (vs : List Violation) : String :=
  toString vs.length ++ (if vs.length = 1 then " validation error" else " validation errors") ++
    " for ProjectSpec\n" ++ "\n".intercalate (vs.map (text help))

/-! ## Checks -/

/-- A value, or all violations that were found in place of it. -/
inductive Checked (α : Type)
  | valid (value : α)
  | invalid (violations : List Violation)

namespace Checked

variable {α β : Type}

def fail (cause : Cause) (input : Json) : Checked α :=
  .invalid [⟨[], cause, input⟩]

def map (f : α → β) : Checked α → Checked β
  | .valid a => .valid (f a)
  | .invalid vs => .invalid vs

/-- Applies a checked function to a checked value; violations of both are kept, in that order. -/
def seq (f : Checked (α → β)) (a : Checked α) : Checked β :=
  match f, a with
  | .valid f, .valid a => .valid (f a)
  | .valid _, .invalid vs => .invalid vs
  | .invalid vs, .valid _ => .invalid vs
  | .invalid vs, .invalid ws => .invalid (vs ++ ws)

instance : Applicative Checked where
  pure := .valid
  map := map
  seq f a := seq f (a ())

/-- Moves the violations below a step. -/
def under (step : Step) : Checked α → Checked α
  | .valid a => .valid a
  | .invalid vs => .invalid (vs.map fun v => { v with path := step :: v.path })

end Checked

end Lineage
