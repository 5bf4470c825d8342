import Lineage.Json
import Lineage.Text.Decimal

/-!
# Reading JSON

A reader for JSON texts that also takes the numbers `NaN`, `Infinity` and `-Infinity`. It stops at
the first fault and says what it missed and where. A numeral without fraction and exponent is an
integer, refused when it has more than 4300 digits; every other numeral is a double.

Each scanner takes the characters that are left and returns a shorter rest, so reading ends.
-/

namespace Lineage.Json

/-! ## Faults -/

/-- What a malformed text lacks or holds in excess. -/
inductive Complaint
  | value
  | memberName
  | colon
  | comma
  | unterminatedString
  | controlCharacter
  | badEscape
  | badUnicodeEscape
  | extraData
  | byteOrderMark
  deriving DecidableEq, Repr

def Complaint.message : Complaint → String
  | .value => "Expecting value"
  | .memberName => "Expecting property name enclosed in double quotes"
  | .colon => "Expecting ':' delimiter"
  | .comma => "Expecting ',' delimiter"
  | .unterminatedString => "Unterminated string starting at"
  | .controlCharacter => "Invalid control character at"
  | .badEscape => "Invalid \\escape"
  | .badUnicodeEscape => "Invalid \\uXXXX escape"
  | .extraData => "Extra data"
  | .byteOrderMark => "Unexpected UTF-8 BOM (decode using utf-8-sig)"

/-- A place in a text: characters before it, line and column from one. -/
structure Position where
  offset : Nat
  line : Nat
  column : Nat
  deriving DecidableEq, Repr

/-- The place after the first `offset` characters; only a line feed ends a line. -/
def Position.after (text : List Char) (offset : Nat) : Position :=
  let before := text.take offset
  { offset := offset
    line := 1 + before.count '\n'
    column := 1 + ((before.reverse).takeWhile (· != '\n')).length }

/-- Why a text has no value. -/
inductive ReadFault
  | malformed (complaint : Complaint) (position : Position)
  | numeralTooLong (digits : Nat)
  deriving DecidableEq, Repr

/-- A fault during reading; `rest` is what was left at its place. -/
inductive Stop
  | malformed (complaint : Complaint) (rest : List Char)
  | numeralTooLong (digits : Nat)
  deriving DecidableEq, Repr

/-- What is left of `s` once something has been read. -/
abbrev Rest (s : List Char) := { r : List Char // r.length < s.length }

/-! ## White space -/

/-- The characters that may stand between tokens. -/
def isGap (c : Char) : Bool :=
  c == ' ' || c == '\t' || c == '\n' || c == '\r'

private theorem length_dropWhile_le (p : Char → Bool) (s : List Char) :
    (s.dropWhile p).length ≤ s.length :=
  (List.dropWhile_suffix p).length_le

def skipGap (s : List Char) : { r : List Char // r.length ≤ s.length } :=
  ⟨s.dropWhile isGap, length_dropWhile_le isGap s⟩

/-! ## Strings -/

def hexValue? (c : Char) : Option Nat :=
  if '0' ≤ c ∧ c ≤ '9' then some (c.toNat - 48)
  else if 'a' ≤ c ∧ c ≤ 'f' then some (c.toNat - 87)
  else if 'A' ≤ c ∧ c ≤ 'F' then some (c.toNat - 55)
  else none

def hexQuad? (a b c d : Char) : Option Nat := do
  return (((← hexValue? a) * 16 + (← hexValue? b)) * 16 + (← hexValue? c)) * 16 + (← hexValue? d)

def shortEscape? : Char → Option Char
  | '"' => some '"'
  | '\\' => some '\\'
  | '/' => some '/'
  | 'b' => some '\x08'
  | 'f' => some '\x0c'
  | 'n' => some '\n'
  | 'r' => some '\r'
  | 't' => some '\t'
  | _ => none

/--
The code units of a string up to its closing quote; `opening` is the text from the opening quote
on. An escaped code unit needs four digits and a further character behind them.
-/
def stringUnits (opening : List Char) : (s : List Char) → Except Stop (List Nat × Rest s)
  | [] => .error (.malformed .unterminatedString opening)
  | '"' :: r => .ok ([], ⟨r, by simp⟩)
  | '\\' :: [] => .error (.malformed .unterminatedString opening)
  | '\\' :: 'u' :: t =>
    match t with
    | a :: b :: c :: d :: e :: t' =>
      match hexQuad? a b c d with
      | some n => do
        let (us, r) ← stringUnits opening (e :: t')
        return (n :: us, ⟨r.1, by have := r.2; simp at this ⊢; omega⟩)
      | none => .error (.malformed .badUnicodeEscape ('u' :: a :: b :: c :: d :: e :: t'))
    | t => .error (.malformed .badUnicodeEscape ('u' :: t))
  | '\\' :: x :: t =>
    match shortEscape? x with
    | some c => do
      let (us, r) ← stringUnits opening t
      return (c.toNat :: us, ⟨r.1, by have := r.2; simp; omega⟩)
    | none => .error (.malformed .badEscape ('\\' :: x :: t))
  | c :: t =>
    if c.toNat < 0x20 then .error (.malformed .controlCharacter (c :: t))
    else do
      let (us, r) ← stringUnits opening t
      return (c.toNat :: us, ⟨r.1, by have := r.2; simp; omega⟩)

/-- Joins the two halves of an escaped character beyond U+FFFF; a lone half is replaced. -/
def joinUnits : List Nat → List Char
  | [] => []
  | [u] => [if 0xD800 ≤ u ∧ u < 0xE000 then '\uFFFD' else Char.ofNat u]
  | u :: v :: rest =>
    if 0xD800 ≤ u ∧ u < 0xDC00 ∧ 0xDC00 ≤ v ∧ v < 0xE000 then
      Char.ofNat (0x10000 + (u - 0xD800) * 0x400 + (v - 0xDC00)) :: joinUnits rest
    else if 0xD800 ≤ u ∧ u < 0xE000 then '\uFFFD' :: joinUnits (v :: rest)
    else Char.ofNat u :: joinUnits (v :: rest)

def stringText (opening s : List Char) : Except Stop (String × Rest s) := do
  let (us, r) ← stringUnits opening s
  return (String.ofList (joinUnits us), r)

/-! ## Numbers -/

def decimalValue (ds : List Char) : Nat :=
  ds.foldl (fun n c => n * 10 + (c.toNat - 48)) 0

/-- A numeral: its sign, whole part, fraction, and exponent if it has one. -/
structure Numeral where
  negative : Bool
  whole : List Char
  fraction : List Char
  exponent : Option Int

def Numeral.value (n : Numeral) : Except Stop Json :=
  match n.fraction, n.exponent with
  | [], none =>
    if Text.maxDigits < n.whole.length then .error (.numeralTooLong n.whole.length)
    else
      let v : Int := decimalValue n.whole
      .ok (.int (if n.negative then -v else v))
  | fraction, exponent =>
    let digits := decimalValue (n.whole ++ fraction)
    .ok (.float (.ofDecimal n.negative digits (exponent.getD 0 - fraction.length)))

/-- The whole part of a numeral: a zero alone, or digits that start with another one. -/
def wholePart? : (s : List Char) → Option (List Char × Rest s)
  | [] => none
  | c :: r =>
    if c == '0' then some (['0'], ⟨r, by simp⟩)
    else if c.isDigit then
      some (c :: r.takeWhile Char.isDigit,
        ⟨r.dropWhile Char.isDigit, by
          have := length_dropWhile_le Char.isDigit r
          simp; omega⟩)
    else none

def fractionPart (s : List Char) : List Char × { r : List Char // r.length ≤ s.length } :=
  match s with
  | '.' :: r =>
    if (r.takeWhile Char.isDigit).isEmpty then ([], ⟨'.' :: r, Nat.le_refl _⟩)
    else
      (r.takeWhile Char.isDigit,
        ⟨r.dropWhile Char.isDigit, by
          have := length_dropWhile_le Char.isDigit r
          simp; omega⟩)
  | s => ([], ⟨s, Nat.le_refl _⟩)

def exponentPart (s : List Char) : Option Int × { r : List Char // r.length ≤ s.length } :=
  match s with
  | [] => (none, ⟨[], Nat.le_refl _⟩)
  | e :: r =>
    let negative := r.head? == some '-'
    let body := if r.head? == some '-' || r.head? == some '+' then r.drop 1 else r
    if (e == 'e' || e == 'E') && !(body.takeWhile Char.isDigit).isEmpty then
      let v : Int := decimalValue (body.takeWhile Char.isDigit)
      (some (if negative then -v else v),
        ⟨body.dropWhile Char.isDigit, by
          have h := length_dropWhile_le Char.isDigit body
          have : body.length ≤ r.length := by simp only [body]; split <;> simp
          simp only [List.length_cons]; omega⟩)
    else (none, ⟨e :: r, Nat.le_refl _⟩)

/-- An unsigned numeral, `start` being the text from its sign on. -/
def unsigned (negative : Bool) (start s : List Char) : Except Stop (Json × Rest s) :=
  match wholePart? s with
  | none => .error (.malformed .value start)
  | some (whole, r) =>
    let (fraction, r') := fractionPart r.1
    let (exponent, r'') := exponentPart r'.1
    match Numeral.value ⟨negative, whole, fraction, exponent⟩ with
    | .error stop => .error stop
    | .ok v => .ok (v, ⟨r''.1, by have := r.2; have := r'.2; have := r''.2; omega⟩)

/-! ## Values -/

/-- A value that holds no other: a literal, a string or a number. -/
def scalar (s : List Char) : Except Stop (Json × Rest s) :=
  match s with
  | '"' :: r => do
    let (t, r') ← stringText ('"' :: r) r
    return (.string t, ⟨r'.1, by have := r'.2; simp; omega⟩)
  | 'n' :: 'u' :: 'l' :: 'l' :: r => .ok (.null, ⟨r, by simp; omega⟩)
  | 't' :: 'r' :: 'u' :: 'e' :: r => .ok (.bool true, ⟨r, by simp; omega⟩)
  | 'f' :: 'a' :: 'l' :: 's' :: 'e' :: r => .ok (.bool false, ⟨r, by simp; omega⟩)
  | 'N' :: 'a' :: 'N' :: r => .ok (.float .nan, ⟨r, by simp; omega⟩)
  | 'I' :: 'n' :: 'f' :: 'i' :: 'n' :: 'i' :: 't' :: 'y' :: r =>
    .ok (.float (.infinite false), ⟨r, by simp; omega⟩)
  | '-' :: 'I' :: 'n' :: 'f' :: 'i' :: 'n' :: 'i' :: 't' :: 'y' :: r =>
    .ok (.float (.infinite true), ⟨r, by simp; omega⟩)
  | '-' :: r =>
    match unsigned true ('-' :: r) r with
    | .error stop => .error stop
    | .ok (v, r') => .ok (v, ⟨r'.1, by have := r'.2; simp; omega⟩)
  | s => unsigned false s s

def memberName (s : List Char) : Except Stop (String × Rest s) :=
  match s with
  | '"' :: r => do
    let (name, r') ← stringText ('"' :: r) r
    let gap := skipGap r'.1
    match h : gap.1 with
    | ':' :: t =>
      let gap' := skipGap t
      return (name, ⟨gap'.1, by
        have := r'.2; have := gap.2; have := gap'.2
        rw [h] at *; simp at *; omega⟩)
    | t => .error (.malformed .colon t)
  | s => .error (.malformed .memberName s)

mutual

def value (s : List Char) : Except Stop (Json × Rest s) :=
  match s with
  | '[' :: r =>
    let gap := skipGap r
    match h : gap.1 with
    | ']' :: t => .ok (.array [], ⟨t, by have := gap.2; rw [h] at this; simp at *; omega⟩)
    | t => do
      let (items, r') ← elements t
      return (.array items, ⟨r'.1, by
        have := gap.2; have := r'.2; rw [h] at *; simp at *; omega⟩)
  | '{' :: r =>
    let gap := skipGap r
    match h : gap.1 with
    | '}' :: t => .ok (.object [], ⟨t, by have := gap.2; rw [h] at this; simp at *; omega⟩)
    | t => do
      let (ms, r') ← members t
      return (.object (mergeMembers ms), ⟨r'.1, by
        have := gap.2; have := r'.2; rw [h] at *; simp at *; omega⟩)
  | s => scalar s
termination_by 2 * s.length
decreasing_by
  all_goals
    have := gap.2
    rw [h] at this
    simp at *
    omega

def elements (s : List Char) : Except Stop (List Json × Rest s) := do
  let (v, r) ← value s
  let gap := skipGap r.1
  match h : gap.1 with
  | ']' :: t => return ([v], ⟨t, by
      have := r.2; have := gap.2; rw [h] at *; simp at *; omega⟩)
  | ',' :: t =>
    let gap' := skipGap t
    let (vs, r') ← elements gap'.1
    return (v :: vs, ⟨r'.1, by
      have := r.2; have := gap.2; have := gap'.2; have := r'.2; rw [h] at *; simp at *; omega⟩)
  | t => .error (.malformed .comma t)
termination_by 2 * s.length + 1
decreasing_by
  · omega
  · have := r.2; have := gap.2; have := (skipGap t).2
    rw [h] at *
    simp at *
    omega

def members (s : List Char) : Except Stop (List (String × Json) × Rest s) := do
  let (name, n) ← memberName s
  let (v, r) ← value n.1
  let gap := skipGap r.1
  match h : gap.1 with
  | '}' :: t => return ([(name, v)], ⟨t, by
      have := n.2; have := r.2; have := gap.2; rw [h] at *; simp at *; omega⟩)
  | ',' :: t =>
    let gap' := skipGap t
    let (ms, r') ← members gap'.1
    return ((name, v) :: ms, ⟨r'.1, by
      have := n.2; have := r.2; have := gap.2; have := gap'.2; have := r'.2
      rw [h] at *; simp at *; omega⟩)
  | t => .error (.malformed .comma t)
termination_by 2 * s.length + 1
decreasing_by
  · have := n.2; omega
  · have := n.2; have := r.2; have := gap.2; have := (skipGap t).2
    rw [h] at *
    simp at *
    omega

end

/-! ## Documents -/

/-- The value of a text that holds nothing else but white space around it. -/
def document (text : List Char) : Except Stop Json :=
  match text with
  | '\uFEFF' :: _ => .error (.malformed .byteOrderMark text)
  | text => do
    let (v, r) ← value (skipGap text).1
    match (skipGap r.1).1 with
    | [] => return v
    | extra => .error (.malformed .extraData extra)

def read (text : String) : Except ReadFault Json :=
  match document text.toList with
  | .ok v => .ok v
  | .error (.numeralTooLong digits) => .error (.numeralTooLong digits)
  | .error (.malformed complaint rest) =>
    .error (.malformed complaint
      (.after text.toList (text.toList.length - rest.length)))

end Lineage.Json
