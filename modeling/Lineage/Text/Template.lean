import Lineage.Text.Template.Value

/-!
# Templates

Text with fields between braces. A brace that is text is written twice. A field has a name, behind
which a conversion may follow an exclamation mark and a format may follow a colon; a format may hold
fields of its own. The one name that stands for something is `time`, the moment at which the
template is filled in; its parts and items are named behind it. What depends on the moment is shown
as a sample.
-/

namespace Lineage.Text.Template

/-! ## Reading -/

/-- Why a text cannot be read as a template. -/
inductive Flaw
  | loneOpen
  | loneClose
  | openInName
  | unclosedName
  | conversionMissing
  | conversionTail
  | unclosedFormat
  deriving DecidableEq, Repr

inductive Piece
  | literal (text : List Char)
  | field (name : List Char) (conversion : Option Char) (format : List Char)
  deriving DecidableEq, Repr

/-- Where a reader stands: in text, behind a brace that may be doubled, in the name of a field and
there between brackets or not, before or behind a conversion, or in a format with braces that are
still open. -/
inductive State
  | text (read : List Char)
  | opened (read : List Char)
  | closed (read : List Char)
  | name (bracketed : Bool) (read : List Char)
  | conversion (name : List Char)
  | converted (name : List Char) (conversion : Char)
  | format (name : List Char) (conversion : Option Char) (depth : Nat) (read : List Char)

/-- The piece that ends with a character of a name, if one does, and what comes next. Brackets hide
the characters between them. -/
def stepName (bracketed : Bool) (read : List Char) (c : Char) :
    Except Flaw (List Piece × State) :=
  if bracketed then .ok ([], .name (c != ']') (read ++ [c]))
  else if c == '\x7b' then .error .openInName
  else if c == '\x7d' then .ok ([.field read none []], .text [])
  else if c == ':' then .ok ([], .format read none 0 [])
  else if c == '!' then .ok ([], .conversion read)
  else .ok ([], .name (c == '[') (read ++ [c]))

/-- The pieces that end with a character, and where the reader stands behind it. -/
def step : State → Char → Except Flaw (List Piece × State)
  | .text read, c =>
    if c == '\x7b' then .ok ([], .opened read)
    else if c == '\x7d' then .ok ([], .closed read)
    else .ok ([], .text (read ++ [c]))
  | .opened read, c =>
    if c == '\x7b' then .ok ([], .text (read ++ [c]))
    else (stepName false [] c).map fun r => (.literal read :: r.1, r.2)
  | .closed read, c =>
    if c == '\x7d' then .ok ([], .text (read ++ [c])) else .error .loneClose
  | .name bracketed read, c => stepName bracketed read c
  | .conversion name, c => .ok ([], .converted name c)
  | .converted name conversion, c =>
    if c == '\x7d' then .ok ([.field name (some conversion) []], .text [])
    else if c == ':' then .ok ([], .format name (some conversion) 0 [])
    else .error .conversionTail
  | .format name conversion depth read, c =>
    if c == '\x7d' then
      match depth with
      | 0 => .ok ([.field name conversion read], .text [])
      | depth + 1 => .ok ([], .format name conversion depth (read ++ [c]))
    else .ok ([], .format name conversion (if c == '\x7b' then depth + 1 else depth) (read ++ [c]))

/-- What the end of a text means where a reader stands. -/
def finish : State → List Piece × Option Flaw
  | .text read => ([.literal read], none)
  | .opened _ => ([], some .loneOpen)
  | .closed _ => ([], some .loneClose)
  | .name .. => ([], some .unclosedName)
  | .conversion _ => ([], some .conversionMissing)
  | .converted .. => ([], some .unclosedFormat)
  | .format .. => ([], some .unclosedFormat)

/-- The pieces of a text from a state on, up to the first flaw. -/
def piecesFrom (state : State) : List Char → List Piece × Option Flaw
  | [] => finish state
  | c :: cs =>
    match step state c with
    | .error flaw => ([], some flaw)
    | .ok (pieces, next) =>
      let rest := piecesFrom next cs
      (pieces ++ rest.1, rest.2)

def pieces (cs : List Char) : List Piece × Option Flaw :=
  piecesFrom (.text []) cs

/-! ## Filling in -/

/-- Why a template cannot be filled in. -/
inductive Fault
  | flaw (flaw : Flaw)
  | unknownName (name : String)
  | positional
  | indexTooLarge
  | emptyAttribute
  | unknownAttribute
  | afterBracket
  | item (fault : Value.ItemFault)
  | unknownConversion (c : Char)
  | layout (fault : Layout.Fault)
  | clock (fault : Clock.Fault)
  | noLayout
  | tooDeep
  | holdsNul
  deriving DecidableEq, Repr

def maxIndex : Nat := Nat.pow 2 63 - 1

/-- The index that digits behind those of `n` make. The first digit too many is a fault, whatever
comes behind it. -/
def indexFrom (n : Nat) : List Char → Except Fault (Option Nat)
  | [] => .ok (some n)
  | c :: cs =>
    match digitValue? c with
    | none => .ok none
    | some digit =>
      if maxIndex < 10 * n + digit then .error .indexTooLarge else indexFrom (10 * n + digit) cs

def index? (cs : List Char) : Except Fault (Option Nat) :=
  if cs.isEmpty then .ok none else indexFrom 0 cs

def isAccess (c : Char) : Bool :=
  c == '.' || c == '['

theorem length_dropWhile_lt_succ (p : Char → Bool) (cs : List Char) :
    (cs.dropWhile p).length < cs.length + 1 :=
  Nat.lt_succ_of_le (List.dropWhile_sublist p).length_le

/-- Follows the parts and items that are named behind a value. -/
def access (v : Value) : List Char → Except Fault Value
  | [] => .ok v
  | c :: cs =>
    if c == '.' then
      let name := cs.takeWhile (!isAccess ·)
      if name.isEmpty then .error .emptyAttribute
      else
        match v.part? (String.ofList name) with
        | some part => access part (cs.dropWhile (!isAccess ·))
        | none => .error .unknownAttribute
    else if c == '[' then
      let key := cs.takeWhile (· != ']')
      match index? key with
      | .error fault => .error fault
      | .ok position =>
        if key.isEmpty then .error .emptyAttribute
        else
          match v.item (String.ofList key) position with
          | .ok item => access item ((cs.dropWhile (· != ']')).drop 1)
          | .error fault => .error (.item fault)
    else .error .afterBracket
termination_by cs => cs.length
decreasing_by
  · exact length_dropWhile_lt_succ _ cs
  · exact Nat.lt_of_le_of_lt (List.drop_sublist 1 _).length_le (length_dropWhile_lt_succ _ cs)

def lookUp (name : List Char) : Except Fault Value := do
  let first := name.takeWhile (!isAccess ·)
  let index ← index? first
  if first.isEmpty || index.isSome then .error .positional
  else if String.ofList first != "time" then .error (.unknownName (String.ofList first))
  else access .formatter (name.dropWhile (!isAccess ·))

def convert (v : Value) : Option Char → Except Fault Value
  | none => .ok v
  | some 's' => .ok (.text v.shown)
  | some 'r' => .ok (.text v.written)
  | some 'a' => .ok (.text v.written)
  | some c => .error (.unknownConversion c)

/-- The format of the moment in the name of a file. -/
def fileFormat : List Char := "%Y-%m-%d_%H-%M-%S_%f".toList

def layOut (v : Value) (format : List Char) : Except Fault Shown :=
  match v with
  | .formatter => (Clock.layOut fileFormat format).mapError .clock
  | .moment => (Clock.layOut [] format).mapError .clock
  | .number n certain => (Layout.number n certain format).mapError .layout
  | .text shown => (Layout.text shown format).mapError .layout
  | v =>
    if format.isEmpty then .ok v.shown
    else
      match v with
      | .dateTime _ => .ok ⟨Clock.figures format, false⟩
      | .date _ => .ok ⟨Clock.figures format, false⟩
      | _ => .error .noLayout

def fill (nested : List Char → Except Fault Shown) : Piece → Except Fault Shown
  | .literal text => .ok ⟨text, true⟩
  | .field name conversion format => do
    let v ← convert (← lookUp name) conversion
    if format.contains '\x7b' then
      let format ← nested format
      let shown ← layOut v format.text
      return { shown with certain := shown.certain && format.certain }
    else layOut v format

/-- The text of a template in which fields may stand in each other's formats `depth` deep. -/
def expandTo : Nat → List Char → Except Fault Shown
  | 0, _ => .error .tooDeep
  | depth + 1, cs => do
    let (pieces, flaw) := pieces cs
    let texts ← pieces.mapM (fill (expandTo depth))
    if let some flaw := flaw then throw (.flaw flaw)
    return texts.foldl Shown.append ⟨[], true⟩

/-- The text of a template. It is read as a whole before any field is filled in. -/
def expand (cs : List Char) : Except Fault Shown :=
  match (pieces cs).2 with
  | some flaw => .error (.flaw flaw)
  | none => expandTo 2 cs

end Lineage.Text.Template
