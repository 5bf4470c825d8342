import Lineage.Text.Template.Layout

/-!
# Layouts of a moment

A moment in time is laid out in one of two ways. With a percent sign in it, a layout names the
figures of the moment by letters behind percent signs; else runs of letters stand for figures. What
is shown is a sample for the first moment of the year 2000.
-/

namespace Lineage.Text.Template.Clock

/-! ## Figures behind percent signs -/

/-- What a letter behind a percent sign shows; a letter without a meaning is left as it is. -/
def figure (c : Char) : String :=
  match c with
  | 'a' => "Sat" | 'A' => "Saturday" | 'w' => "6" | 'u' => "6"
  | 'b' => "Jan" | 'h' => "Jan" | 'B' => "January" | 'm' => "01"
  | 'd' => "01" | 'e' => " 1" | 'j' => "001" | 'U' => "00" | 'W' => "00" | 'V' => "52"
  | 'C' => "20" | 'y' => "00" | 'Y' => "2000" | 'g' => "99" | 'G' => "1999"
  | 'H' => "00" | 'k' => " 0" | 'I' => "12" | 'l' => "12" | 'p' => "AM" | 'P' => "am"
  | 'M' => "00" | 'S' => "00" | 'f' => "000000" | 's' => "946684800"
  | 'z' => "+0000" | 'Z' => "UTC"
  | 'R' => "00:00" | 'T' => "00:00:00" | 'X' => "00:00:00" | 'r' => "12:00:00 AM"
  | 'F' => "2000-01-01" | 'D' => "01/01/00" | 'x' => "01/01/00"
  | 'c' => "Sat Jan  1 00:00:00 2000"
  | 'n' => "\n" | 't' => "\t" | '%' => "%"
  | c => String.ofList ['%', c]

def figures : List Char → List Char
  | [] => []
  | '%' :: c :: cs => (figure c).toList ++ figures cs
  | c :: cs => c :: figures cs

/-! ## Runs of letters -/

/-- The runs of letters that stand for something, longer ones before those they begin with. -/
def runs : List (String × String) :=
  [("HH", "00"), ("H", "0"), ("hh", "12"), ("h", "12"), ("mm", "00"), ("m", "0"), ("ss", "00"),
    ("s", "0"), ("SSSSSS", "000000"), ("SSSSS", "00000"), ("SSSS", "0000"), ("SSS", "000"),
    ("SS", "00"), ("S", "0"), ("YYYY", "2000"), ("YY", "00"), ("MMMM", "January"), ("MMM", "Jan"),
    ("MM", "01"), ("M", "1"), ("DDDD", "001"), ("DDD", "1"), ("DD", "01"), ("D", "1"),
    ("ZZ", "+0000"), ("Z", "+00:00"), ("zz", "UTC"), ("A", "AM"), ("X", "946684800"),
    ("x", "946684800000000"), ("E", "6"), ("Q", "1"), ("dddd", "Saturday"), ("ddd", "Sat"),
    ("d", "5")]

/-- What a text in brackets stands for if it is a run or nothing: itself. -/
def bracketed : List (String × String) :=
  ("[]", "") :: ("[!UTC]", "!UTC") :: runs.map fun run => ("[" ++ run.1 ++ "]", run.1)

/-- The text of a layout with runs of letters; the first `skip` characters have been read. -/
def runsFrom (skip : Nat) : List Char → List Char
  | [] => []
  | c :: cs =>
    match skip with
    | skip + 1 => runsFrom skip cs
    | 0 =>
      match (bracketed ++ runs).find? fun run => run.1.toList.isPrefixOf (c :: cs) with
      | some run => run.2.toList ++ runsFrom (run.1.length - 1) cs
      | none => c :: runsFrom 0 cs

/-! ## Layouts -/

/-- A layout asks for a fraction of a second that is too fine. -/
inductive Fault
  | tooFine
  deriving DecidableEq, Repr

def tooManyPlaces : List Char := List.replicate 7 'S'

def isTooFine : List Char → Bool
  | [] => false
  | c :: cs => tooManyPlaces.isPrefixOf (c :: cs) || isTooFine cs

def universal : List Char := "!UTC".toList

/-- Lays the moment out, `fallback` being the layout where none is left. -/
def layOut (fallback cs : List Char) : Except Fault Shown :=
  let cs := if cs.isEmpty then fallback else cs
  let cs := if universal.isSuffixOf cs then cs.take (cs.length - universal.length) else cs
  let cs := if cs.isEmpty then "%Y-%m-%dT%H:%M:%S.%f%z".toList else cs
  if cs.contains '%' then .ok ⟨figures cs, false⟩
  else if isTooFine cs then .error .tooFine
  else .ok ⟨runsFrom 0 cs, false⟩

end Lineage.Text.Template.Clock
