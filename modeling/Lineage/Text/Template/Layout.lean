import Lineage.Text.Digit

/-!
# Layouts

How a text or a number is laid out in a field. A layout names in this order: a fill and an
alignment, a sign, a mark that zero has no sign, a mark for the alternate form, a leading zero, a
width, a group mark, a precision and a form. A text that depends on when or where it is written is
kept as a sample of its size.
-/

namespace Lineage.Text.Template

/-! ## Shown texts -/

/-- A text that a field shows; a sample of the same size unless it is certain. -/
structure Shown where
  text : List Char
  certain : Bool := true
  deriving DecidableEq, Repr

/-- The size from which on it makes no difference how long a text is. -/
def maxShown : Nat := 8192

/-- Copies of a character, as far as their number makes a difference. -/
def copies (count : Nat) (c : Char) : List Char :=
  List.replicate (min count maxShown) c

namespace Shown

def sample (size : Nat) : Shown := ⟨copies size '*', false⟩

def ofString (s : String) : Shown := ⟨s.toList, true⟩

def append (a b : Shown) : Shown := ⟨a.text ++ b.text, a.certain && b.certain⟩

end Shown

namespace Layout

/-! ## Faults -/

inductive Subject
  | text
  | number
  deriving DecidableEq, Repr

/-- Why something cannot be laid out. -/
inductive Fault
  | tooManyDigits
  | twoGroupMarks
  | precisionMissing
  | invalid (spec : String) (subject : Subject)
  | unknownForm (form : Char) (subject : Subject)
  | groupMarkInForm (mark form : Char)
  | signOfText (space : Bool)
  | unsignedZeroOfText
  | alternateOfText
  | alignmentOfText
  | precisionOfNumber
  | unsignedZeroOfNumber
  | signOfCharacter
  | alternateOfCharacter
  | notCharacter
  | precisionTooLarge
  deriving DecidableEq, Repr

/-! ## Reading -/

structure Spec where
  fill : Char := ' '
  align : Char
  sign : Option Char := none
  unsignedZero : Bool := false
  alternate : Bool := false
  width : Nat := 0
  group : Option Char := none
  precision : Option Nat := none
  form : Char
  deriving DecidableEq, Repr

def maxCount : Nat := Nat.pow 2 63 - 1

def readCountFrom (n : Nat) : List Char → Except Fault (Nat × List Char)
  | [] => .ok (n, [])
  | c :: cs =>
    match digitValue? c with
    | none => .ok (n, c :: cs)
    | some digit =>
      if maxCount < 10 * n + digit then .error .tooManyDigits else readCountFrom (10 * n + digit) cs

def readCount (cs : List Char) : Except Fault (Option Nat × List Char) := do
  let (n, rest) ← readCountFrom 0 cs
  return (if rest.length = cs.length then none else some n, rest)

def isAlign (c : Char) : Bool :=
  c == '<' || c == '>' || c == '=' || c == '^'

def readOne (p : Char → Bool) : List Char → Option Char × List Char
  | [] => (none, [])
  | c :: cs => if p c then (some c, cs) else (none, c :: cs)

def readAlign : List Char → Option Char × Option Char × List Char
  | fill :: align :: cs =>
    if isAlign align then (some fill, some align, cs)
    else
      let (align, rest) := readOne isAlign (fill :: align :: cs)
      (none, align, rest)
  | cs =>
    let (align, rest) := readOne isAlign cs
    (none, align, rest)

def readGroup (cs : List Char) : Except Fault (Option Char × List Char) :=
  let (comma, rest) := readOne (· == ',') cs
  let (line, rest) := readOne (· == '_') rest
  let (again, _) := readOne (· == ',') rest
  if (comma.isSome || again.isSome) && line.isSome then .error .twoGroupMarks
  else .ok (comma.or line, rest)

def readPrecision (cs : List Char) : Except Fault (Option Nat × List Char) :=
  match cs with
  | '.' :: rest => do
    let (precision, rest) ← readCount rest
    match precision with
    | none => .error .precisionMissing
    | some n => return (some n, rest)
  | _ => .ok (none, cs)

def groupsIn (mark form : Char) : Bool :=
  ['d', 'e', 'f', 'g', 'E', 'G', '%', 'F'].contains form ||
    (mark == '_' && ['b', 'o', 'x', 'X'].contains form)

/-- Reads a layout, an alignment and a form being given where it leaves them open. -/
def read (subject : Subject) (align form : Char) (cs : List Char) : Except Fault Spec := do
  let (fill, chosen, rest) := readAlign cs
  let (sign, rest) := readOne (fun c => c == ' ' || c == '+' || c == '-') rest
  let (unsigned, rest) := readOne (· == 'z') rest
  let (alternate, rest) := readOne (· == '#') rest
  let (zero, rest) := if fill.isSome then (none, rest) else readOne (· == '0') rest
  let (width, rest) ← readCount rest
  let (group, rest) ← readGroup rest
  let (precision, rest) ← readPrecision rest
  let form ← match rest with
    | [] => pure form
    | [c] => pure c
    | _ => throw (.invalid (String.ofList cs) subject)
  if let some mark := group then
    unless groupsIn mark form do throw (.groupMarkInForm mark form)
  return {
    fill := fill.getD (if zero.isSome then '0' else ' ')
    align := chosen.getD (if zero.isSome && align == '>' then '=' else align)
    sign := sign
    unsignedZero := unsigned.isSome
    alternate := alternate.isSome
    width := width.getD 0
    group := group
    precision := precision
    form := form }

/-! ## Laying out -/

/-- Pads a body that has a sign or a mark of its base in front. -/
def pad (spec : Spec) (front body : List Char) : List Char :=
  let room := spec.width - (front.length + body.length)
  match spec.align with
  | '<' => front ++ body ++ copies room spec.fill
  | '>' => copies room spec.fill ++ front ++ body
  | '=' => front ++ copies room spec.fill ++ body
  | _ => copies (room / 2) spec.fill ++ front ++ body ++ copies (room - room / 2) spec.fill

def text (s : Shown) (cs : List Char) : Except Fault Shown := do
  if cs.isEmpty then return s
  let spec ← read .text '<' 's' cs
  if spec.form != 's' then throw (.unknownForm spec.form .text)
  if let some sign := spec.sign then throw (.signOfText (sign == ' '))
  if spec.unsignedZero then throw .unsignedZeroOfText
  if spec.alternate then throw .alternateOfText
  if spec.align == '=' then throw .alignmentOfText
  let kept := match spec.precision with
    | some n => s.text.take n
    | none => s.text
  return { s with text := pad spec [] kept }

/-- Digits with a mark between groups of a size, counted from the end. -/
def grouped (size : Nat) (mark : Char) (digits : List Char) : List Char :=
  (digits.zipIdx.flatMap fun (c, i) =>
    if i != 0 && (digits.length - i) % size == 0 then [mark, c] else [c])

/-- Digits in groups; zeros that fill the room up are in the groups too. -/
def digitsOf (spec : Spec) (size room : Nat) (digits : List Char) : List Char :=
  match spec.group with
  | none => digits
  | some mark =>
    let zeros :=
      if spec.fill == '0' && spec.align == '=' then
        let more := min room maxShown
        ((List.range more).find? fun n =>
          room ≤ (grouped size mark (copies n '0' ++ digits)).length).getD 0
      else 0
    grouped size mark (copies zeros '0' ++ digits)

def signOf (spec : Spec) (n : Int) : List Char :=
  if n < 0 then ['-'] else (spec.sign.filter (· != '-')).toList

def whole (spec : Spec) (n : Int) (base size : Nat) (mark : List Char) (upper : Bool) : List Char :=
  let front := signOf spec n ++ (if spec.alternate then mark else [])
  let digits := Nat.toDigits base n.natAbs
  let digits := if upper then digits.map Char.toUpper else digits
  pad spec front (digitsOf spec size (spec.width - front.length) digits)

def pointSize (spec : Spec) (n : Int) : Nat :=
  let digits := (Nat.toDigits 10 n.natAbs).length
  let precision := spec.precision.getD 6
  if spec.form == 'f' || spec.form == 'F' then digits + 1 + precision
  else if spec.form == '%' then digits + 4 + precision
  else if spec.form == 'g' || spec.form == 'G' then digits
  else 6 + precision

def maxPrecision : Nat := Nat.pow 2 31 - 1

def number (n : Int) (certain : Bool) (cs : List Char) : Except Fault Shown := do
  if cs.isEmpty then return ⟨(toString n).toList, certain⟩
  let spec ← read .number '>' 'd' cs
  let plain : Except Fault Unit := do
    if spec.precision.isSome then throw .precisionOfNumber
    if spec.unsignedZero then throw .unsignedZeroOfNumber
  match spec.form with
  | 'b' => plain; return ⟨whole spec n 2 4 ['0', 'b'] false, certain⟩
  | 'o' => plain; return ⟨whole spec n 8 4 ['0', 'o'] false, certain⟩
  | 'x' => plain; return ⟨whole spec n 16 4 ['0', 'x'] false, certain⟩
  | 'X' => plain; return ⟨whole spec n 16 4 ['0', 'X'] true, certain⟩
  | 'd' => plain; return ⟨whole spec n 10 3 [] false, certain⟩
  | 'n' => plain; return ⟨whole spec n 10 3 [] false, certain⟩
  | 'c' =>
    plain
    if spec.sign.isSome then throw .signOfCharacter
    if spec.alternate then throw .alternateOfCharacter
    if n < 0 || 0x10FFFF < n then throw .notCharacter
    return ⟨pad spec [] [Char.ofNat n.toNat], certain⟩
  | form =>
    if ['e', 'E', 'f', 'F', 'g', 'G', '%'].contains form then
      if (spec.precision.any (maxPrecision < ·)) then throw .precisionTooLarge
      return ⟨pad spec (signOf spec n) (copies (pointSize spec n) '0'), false⟩
    else throw (.unknownForm form .number)

end Layout

end Lineage.Text.Template
