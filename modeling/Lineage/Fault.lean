import Lineage.Description.Checked
import Lineage.Description.Forest
import Lineage.FileTree
import Lineage.Graph
import Lineage.Json.Reader
import Lineage.Text.Template
import Lineage.Text.Utf8

/-!
# Faults

Everything that can go wrong, by cause, and the wording of each.
-/

namespace Lineage

/-! ## Loading -/

/-- Why a project could not be loaded. -/
inductive LoadCause
  | notFound
  | directory (path : String)
  | encoding (fault : Text.Utf8.Fault)
  | malformed (complaint : Json.Complaint) (position : Json.Position)
  | notObject
  | violations (violations : List Violation)
  | defect (defect : Defect)

def Text.Utf8.Reason.message : Text.Utf8.Reason → String
  | .invalidStart => "invalid start byte"
  | .invalidContinuation => "invalid continuation byte"
  | .unexpectedEnd => "unexpected end of data"

def Text.Utf8.Fault.message (f : Text.Utf8.Fault) : String :=
  let place :=
    if f.length = 1 then
      "byte 0x" ++ String.ofList (Text.hex 2 f.first.toNat) ++ " in position " ++
        toString f.offset
    else
      "bytes in position " ++ toString f.offset ++ "-" ++ toString (f.offset + f.length - 1)
  "'utf-8' codec can't decode " ++ place ++ ": " ++ f.reason.message

def Json.Position.message (p : Json.Position) : String :=
  "line " ++ toString p.line ++ " column " ++ toString p.column ++ " (char " ++
    toString p.offset ++ ")"

/-- The wording of a cause; what is wrong in detail is not part of it. -/
def LoadCause.summary : LoadCause → String
  | .notFound => "file not found"
  | .directory path => "cannot read file: [Errno 21] Is a directory: " ++ Text.quoted path
  | .encoding fault => "not valid UTF-8: " ++ fault.message
  | .malformed complaint position =>
    "invalid JSON: " ++ complaint.message ++ ": " ++ position.message
  | .notObject => "top-level value is not a JSON object"
  | .violations vs =>
    "invalid project description: " ++ toString vs.length ++ " error(s)"
  | .defect d => d.message

/-- The wording of a cause, with where more is to be found on violations. -/
def LoadCause.message (help : Option String) (c : LoadCause) : String :=
  match c with
  | .violations vs => c.summary ++ "\n" ++ Violation.report help vs
  | _ => c.summary

/-! ## Paths -/

def PathCause.message : PathCause → String
  | .alreadyExists => "File exists"
  | .notDirectory => "Not a directory"
  | .isDirectory => "Is a directory"
  | .tooLong => "File name too long"

/-! ## Templates -/

def Text.Template.Flaw.message : Text.Template.Flaw → String
  | .loneOpen => "Single '\x7b' encountered in format string"
  | .loneClose => "Single '\x7d' encountered in format string"
  | .openInName => "unexpected '\x7b' in field name"
  | .unclosedName => "expected '\x7d' before end of string"
  | .conversionMissing => "end of string while looking for conversion specifier"
  | .conversionTail => "expected ':' after conversion specifier"
  | .unclosedFormat => "unmatched '\x7b' in format spec"

/-- A character in a message: its code, unless it is plain text below a limit. -/
def Text.Template.showChar (limit : Nat) (c : Char) : String :=
  if 32 < c.toNat && c.toNat < limit then c.toString
  else "\\x" ++ String.ofList (Nat.toDigits 16 c.toNat)

def Text.Template.Layout.Subject.name : Text.Template.Layout.Subject → String
  | .text => "str"
  | .number => "int"

def Text.Template.Layout.Fault.message : Text.Template.Layout.Fault → String
  | .tooManyDigits => "Too many decimal digits in format string"
  | .twoGroupMarks => "Cannot specify both ',' and '_'."
  | .precisionMissing => "Format specifier missing precision"
  | .invalid spec subject =>
    "Invalid format specifier '" ++ spec ++ "' for object of type '" ++ subject.name ++ "'"
  | .unknownForm form subject =>
    "Unknown format code '" ++ Text.Template.showChar 128 form ++ "' for object of type '" ++
      subject.name ++ "'"
  | .groupMarkInForm mark form =>
    "Cannot specify '" ++ mark.toString ++ "' with '" ++ Text.Template.showChar 128 form ++ "'."
  | .signOfText true => "Space not allowed in string format specifier"
  | .signOfText false => "Sign not allowed in string format specifier"
  | .unsignedZeroOfText => "Negative zero coercion (z) not allowed in string format specifier"
  | .alternateOfText => "Alternate form (#) not allowed in string format specifier"
  | .alignmentOfText => "'=' alignment not allowed in string format specifier"
  | .precisionOfNumber => "Precision not allowed in integer format specifier"
  | .unsignedZeroOfNumber => "Negative zero coercion (z) not allowed in integer format specifier"
  | .signOfCharacter => "Sign not allowed with integer format specifier 'c'"
  | .alternateOfCharacter => "Alternate form (#) not allowed with integer format specifier 'c'"
  | .notCharacter => "%c arg not in range(0x110000)"
  | .precisionTooLarge => "precision too big"

def Text.Template.Clock.Fault.message : Text.Template.Clock.Fault → String
  | .tooFine =>
    "Invalid time format: the provided format string contains more than six successive 'S' " ++
      "characters. This may be due to an attempt to use nanosecond precision, which is not " ++
      "supported."

def Text.Template.Value.ItemFault.message : Text.Template.Value.ItemFault → String
  | .noItems => "no items"
  | .noSuchIndex => "index out of range"
  | .noSuchKey key => key
  | .noSuchNumber n => toString n

def Text.Template.Fault.message : Text.Template.Fault → String
  | .flaw f => f.message
  | .unknownName name => name
  | .positional => "Format string contains positional fields"
  | .indexTooLarge => "Too many decimal digits in format string"
  | .emptyAttribute => "Empty attribute in format string"
  | .unknownAttribute => "unknown attribute"
  | .afterBracket => "Only '.' or '[' may follow ']' in format field specifier"
  | .item f => f.message
  | .unknownConversion c => "Unknown conversion specifier " ++ Text.Template.showChar 127 c
  | .layout f => f.message
  | .clock f => f.message
  | .noLayout => "no layout"
  | .tooDeep => "Max string recursion exceeded"
  | .holdsNul => "embedded null byte"

/-! ## Faults -/

/-- Why an operation failed. -/
inductive Fault
  | load (source : String) (cause : LoadCause)
  | path (cause : PathCause)
  | template (cause : Text.Template.Fault)
  | numeralTooLong (digits : Nat)
  | unwritable
  | idTaken (id : Int)
  | pluginTaken (name : String)
  | unknownSetting (key : String)
  | unknownKind (key : String)
  | rejected (message : String)
  | missingAttribute
  | wrongArguments

def Fault.message (help : Option String) : Fault → String
  | .load source cause => "Failed to load project from " ++ source ++ ": " ++ cause.message help
  | .path cause => cause.message
  | .template cause => cause.message
  | .numeralTooLong digits =>
    "Exceeds the limit (" ++ toString Text.maxDigits ++
      " digits) for integer string conversion: value has " ++ toString digits ++
      " digits; use sys.set_int_max_str_digits() to increase the limit"
  | .unwritable =>
    "Exceeds the limit (" ++ toString Text.maxDigits ++
      " digits) for integer string conversion; use sys.set_int_max_str_digits() to increase the " ++
      "limit"
  | .idTaken id => "Declaration id " ++ toString id ++ " is already registered"
  | .pluginTaken name => "A converter plugin named '" ++ name ++ "' is already registered."
  | .unknownSetting key => "Unknown resolution setting '" ++ key ++ "'"
  | .unknownKind key => key
  | .rejected message => message
  | .missingAttribute => "missing attribute"
  | .wrongArguments => "wrong number of arguments"

/-- A defect of a description, which cannot be told if its number cannot be written. -/
def Defect.fault (source : String) (d : Defect) : Fault :=
  if d.Writable then .load source (.defect d) else .unwritable

def Refusal.fault : Refusal → Fault
  | .taken id => if Text.Writable id then .idTaken id else .unwritable
  | .unreported => .unwritable

end Lineage
