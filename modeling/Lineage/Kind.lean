import Lineage.Text.Blank
import Lineage.Text.Uppercase

/-!
# Kinds

The kind of a declaration is a set of flags. A kind is written by name: the name of a single flag,
of one of a few composites, or of the flags it holds.
-/

namespace Lineage

/-- A set of flags, one bit each. -/
structure Kind where
  flags : Nat
  deriving DecidableEq, Repr, Inhabited

namespace Kind

/-! ## Flags -/

/-- The flags that have a name, in ascending order. -/
def named : List (String × Nat) :=
  [("EXTERNAL_MODULE", 1), ("MODULE", 2), ("ENUM", 4), ("ENUM_MEMBER", 16), ("VARIABLE", 32),
    ("FUNCTION", 64), ("CLASS", 128), ("INTERFACE", 256), ("CONSTRUCTOR", 512),
    ("PROPERTY", 1024), ("METHOD", 2048), ("CALL_SIGNATURE", 4096), ("INDEX_SIGNATURE", 8192),
    ("CONSTRUCTOR_SIGNATURE", 16384), ("PARAMETER", 32768), ("TYPE_LITERAL", 65536),
    ("TYPE_PARAMETER", 131072), ("ACCESSOR", 262144), ("GET_SIGNATURE", 524288),
    ("SET_SIGNATURE", 1048576), ("OBJECT_LITERAL", 2097152), ("TYPE_ALIAS", 4194304),
    ("EVENT", 8388608)]

/-- The sets of no flag or several flags that have a name of their own. -/
def composites : List (String × Nat) :=
  [("GLOBAL", 0), ("CLASS_OR_INTERFACE", 384), ("CLASS_OR_MODULE", 131)]

def aliases : List (String × Nat) :=
  [("NAMESPACE", 2)]

/-- Classes and interfaces, the kinds that take part in inheritance. -/
def classOrInterface : Kind := ⟨384⟩

/-- The kind that an integer denotes; a negative one counts down from the next power of two. -/
def ofInt (n : Int) : Kind :=
  if 0 ≤ n then ⟨n.toNat⟩
  else if -Int.ofNat (Nat.pow 2 24) ≤ n then ⟨(Int.ofNat (Nat.pow 2 24) + n).toNat⟩
  else ⟨(Int.ofNat (Nat.pow 2 (n.natAbs.log2 + 1)) + n).toNat⟩

def meets (a b : Kind) : Bool :=
  a.flags &&& b.flags != 0

/-! ## Names -/

/-- The form in which a name is looked up: trimmed, in upper case, its words joined by `_`. -/
def normalize (name : String) : String :=
  String.ofList
    ((Text.uppercase (Text.strip name.toList)).map fun c => if c == '-' || c == ' ' then '_' else c)

def lookup? (key : String) : Option Kind :=
  ((named ++ composites ++ aliases).lookup key).map Kind.mk

def ofName? (name : String) : Option Kind :=
  lookup? (normalize name)

/-- The name of a kind: its own, or those of its flags and what is left; none without any flag. -/
def name? (k : Kind) : Option String :=
  match composites.find? (·.2 == k.flags) with
  | some c => some c.1
  | none =>
    let held := named.filter fun f => k.flags &&& f.2 != 0
    let left := k.flags - (held.map (·.2)).foldl (· + ·) 0
    if held.isEmpty then none
    else
      some ("|".intercalate
        (held.map (·.1) ++ if left = 0 then [] else [toString left]))

def lowerName? (k : Kind) : Option String :=
  k.name?.map fun n => String.ofList (n.toList.map Char.toLower)

def describe (k : Kind) : String :=
  match k.name? with
  | some name => "<ReflectionKind." ++ name ++ ": " ++ toString k.flags ++ ">"
  | none => "<ReflectionKind: " ++ toString k.flags ++ ">"

end Kind

end Lineage
