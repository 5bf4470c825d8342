/-!
# Markup

Text in which square brackets hold style tags. A tag starts with a lower-case letter, `#`, `/` or
`@` and ends at the first closing bracket, with no opening bracket before it. A backslash in front
of a tag makes it plain text, so foreign text is escaped before it is put between tags.
-/

namespace Lineage.Markup

/-! ## Tags -/

def startsTag (c : Char) : Bool :=
  ('a' ≤ c && c ≤ 'z') || c == '#' || c == '/' || c == '@'

/-- Whether a closing bracket comes before any opening one. -/
def closes : List Char → Bool
  | [] => false
  | c :: cs => if c == ']' then true else if c == '[' then false else closes cs

/-- Whether the text behind an opening bracket makes it a tag. -/
def opensTag : List Char → Bool
  | [] => false
  | c :: cs => startsTag c && closes cs

/-! ## Escaping -/

/--
Escapes every tag: the backslashes in front of it, of which `slashes` are already passed, are
doubled and one is added.
-/
def escapeTags (slashes : Nat) : List Char → List Char
  | [] => List.replicate slashes '\\'
  | c :: cs =>
    if c == '\\' then escapeTags (slashes + 1) cs
    else if c == '[' && opensTag cs then
      List.replicate (2 * slashes + 1) '\\' ++ c :: escapeTags 0 cs
    else List.replicate slashes '\\' ++ c :: escapeTags 0 cs

/-- Doubles a backslash that stands alone at the end, so that it does not escape what follows. -/
def closeSlash (s : List Char) : List Char :=
  match s.reverse with
  | '\\' :: '\\' :: _ => s
  | '\\' :: _ => s ++ ['\\']
  | _ => s

def escape (text : String) : String :=
  String.ofList (closeSlash (escapeTags 0 text.toList))

/-! ## Removing -/

/-- The text behind the first closing bracket on the same line. -/
def behindBracket? : List Char → Option (List Char)
  | [] => none
  | c :: cs => if c == ']' then some cs else if c == '\n' then none else behindBracket? cs

/-- Drops everything from an opening bracket to the first closing one of the same line. -/
def removeBrackets : (skip : Nat) → List Char → List Char
  | _, [] => []
  | skip + 1, _ :: cs => removeBrackets skip cs
  | 0, c :: cs =>
    if c == '[' then
      match behindBracket? cs with
      | some rest => removeBrackets (cs.length - rest.length) cs
      | none => c :: removeBrackets 0 cs
    else c :: removeBrackets 0 cs

end Lineage.Markup
