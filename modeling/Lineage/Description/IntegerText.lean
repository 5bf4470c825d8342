import Lineage.Text.Blank
import Lineage.Json.Reader

/-!
# Integers in text

An integer may be described by a text. A plain one is a minus sign, if any, and digits without a
needless zero in front. A text may differ from that in white space around it, a plus sign, a
fraction of zeros, single underscores between its characters, and zeros in front. Those zeros may be
mixed with underscores as they please and may also stand before the minus sign.
-/

namespace Lineage.IntegerText

/-! ## Plain integers -/

/-- A digit that a number of several digits can start with. -/
def isLeading (c : Char) : Bool :=
  c.isDigit && c != '0'

/-- A text without the minus sign at its front. -/
def magnitude : List Char → List Char
  | '-' :: s => s
  | s => s

/-- A natural number in digits, of which there are no more than an integer in a document has. -/
def natural? (s : List Char) : Option Nat :=
  match s with
  | ['0'] => some 0
  | c :: _ =>
    if isLeading c && s.all Char.isDigit && s.length ≤ Text.maxDigits then
      some (Json.decimalValue s)
    else none
  | [] => none

def plain? : List Char → Option Int
  | '-' :: s => (natural? s).map fun n : Nat => -(n : Int)
  | s => (natural? s).map fun n : Nat => (n : Int)

/-- Whether a text sets out like a plain integer, but with more digits than one may have. -/
def isOversized (s : List Char) : Bool :=
  let digits := (magnitude s).takeWhile Char.isDigit
  digits.head?.any isLeading && Text.maxDigits < digits.length

/-! ## Other spellings -/

/-- A text without its plus sign, which no minus sign may follow. -/
def dropPlus? : List Char → Option (List Char)
  | '+' :: '-' :: _ => none
  | '+' :: s => some s
  | s => some s

/-- The text before a point that is followed by zeros only; any other text stays as it is. -/
def dropZeroFraction (s : List Char) : List Char :=
  match s.dropWhile (· != '.') with
  | _ :: d :: ds => if (d :: ds).all (· == '0') then s.takeWhile (· != '.') else s
  | _ => s

/--
A text from its first digit other than zero on, or from a minus sign on; the zeros in front may be
mixed with underscores behind the first. Of zeros alone the last one is left.
-/
def dropZeros? (s : List Char) : Option (List Char) :=
  let rest :=
    match s with
    | '0' :: t => t.dropWhile fun c => c == '0' || c == '_'
    | _ => s
  match rest with
  | c :: _ => if isLeading c || c == '-' then some rest else none
  | [] => if s.getLast? = some '0' then some ['0'] else none

/-- Drops zeros in front of the digits, behind the minus sign if the text starts with one. -/
def normalize? : List Char → Option (List Char)
  | '-' :: s => (dropZeros? s).map ('-' :: ·)
  | s => dropZeros? s

/-- A text without its underscores, each of which has to stand alone before another character. -/
def join? : List Char → Option (List Char)
  | [] => some []
  | ['_'] => none
  | '_' :: c :: s => if c = '_' then none else (join? s).map (c :: ·)
  | c :: s => (join? s).map (c :: ·)

/-! ## Reading -/

/-- What a text is to be read as. -/
inductive Reading
  | integer (value : Int)
  | unreadable
  | oversized

def value? (s : List Char) : Option Int := do
  let signed ← dropPlus? (Text.trim Text.isSpace s)
  plain? (← join? (← normalize? (dropZeroFraction signed)))

/--
Reads a text as an integer. Too many digits are told apart only where the text starts with them;
behind anything that does not belong to a plain integer they make it unreadable.
-/
def read (text : String) : Reading :=
  if isOversized text.toList then .oversized
  else
    match value? text.toList with
    | some n => .integer n
    | none => .unreadable

end Lineage.IntegerText
