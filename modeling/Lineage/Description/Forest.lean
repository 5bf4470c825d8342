import Lineage.Description
import Lineage.Text.Decimal

/-!
# Well-formed descriptions

A description is accepted if its ids are distinct and not negative, its kinds are known, and its
parents form a forest. Ids and kinds are checked first over the whole list, then parents, then
cycles; the first defect in that order counts.
-/

namespace Lineage

/-- Why a description is refused. -/
inductive Defect
  | negativeId (name : String)
  | duplicateId (id : Int)
  | unknownKind (kind name : String)
  | ownParent (name : String)
  | unknownParent (parent : Int) (name : String)
  | parentCycle (name : String) (id : Int)
  deriving DecidableEq, Repr

def Defect.message : Defect → String
  | .negativeId name => "declaration '" ++ name ++ "' has a negative id"
  | .duplicateId id => "duplicate declaration id " ++ toString id
  | .unknownKind kind name => "unknown kind '" ++ kind ++ "' for declaration '" ++ name ++ "'"
  | .ownParent name => "declaration '" ++ name ++ "' is its own parent"
  | .unknownParent parent name =>
    "unknown parent id " ++ toString parent ++ " for declaration '" ++ name ++ "'"
  | .parentCycle name id =>
    "parent cycle through declaration '" ++ name ++ "' (id " ++ toString id ++ ")"

def Defect.number? : Defect → Option Int
  | .duplicateId id => some id
  | .unknownParent parent _ => some parent
  | .parentCycle _ id => some id
  | _ => none

/-- A defect that can be put into words. -/
def Defect.Writable (d : Defect) : Prop :=
  ∀ n ∈ d.number?, Text.Writable n

instance (d : Defect) : Decidable d.Writable :=
  inferInstanceAs (Decidable (∀ n ∈ d.number?, Text.Writable n))

namespace Forest

/-! ## Ids and kinds -/

/-- The kinds of declarations whose ids are new, not negative, and none of `seen`. -/
def kindsOf (seen : List Int) : List DeclarationEntry → Except Defect (List Kind)
  | [] => .ok []
  | s :: rest =>
    if s.id < 0 then .error (.negativeId s.name)
    else if s.id ∈ seen then .error (.duplicateId s.id)
    else
      match Kind.ofName? s.kind with
      | none => .error (.unknownKind s.kind s.name)
      | some kind => (kindsOf (s.id :: seen) rest).map (kind :: ·)

/-! ## Parents -/

def parentDefect? (all : List DeclarationEntry) (s : DeclarationEntry) : Option Defect :=
  match s.parent with
  | none => none
  | some parent =>
    if parent = s.id then some (.ownParent s.name)
    else if all.any (·.id == parent) then none
    else some (.unknownParent parent s.name)

/-! ## Cycles -/

def parentId? (all : List DeclarationEntry) (id : Int) : Option Int :=
  (all.find? (·.id == id)).bind (·.parent)

/-- Whether the parents of an id come to an end within some number of steps. -/
def endsWithin (all : List DeclarationEntry) : Nat → Int → Bool
  | steps, id =>
    match parentId? all id with
    | none => true
    | some parent =>
      match steps with
      | 0 => false
      | steps + 1 => endsWithin all steps parent

/-- The defect of a declaration whose parents do not end: there are more steps than declarations. -/
def cycleDefect? (all : List DeclarationEntry) (s : DeclarationEntry) : Option Defect :=
  if endsWithin all all.length s.id then none else some (.parentCycle s.name s.id)

/-! ## Check -/

def firstDefect (test : DeclarationEntry → Option Defect) (all : List DeclarationEntry) :
    Except Defect Unit :=
  match all.findSome? test with
  | none => .ok ()
  | some defect => .error defect

/-- The kinds of the declarations of a well-formed description, or its first defect. -/
def check (all : List DeclarationEntry) : Except Defect (List Kind) := do
  let kinds ← kindsOf [] all
  firstDefect (parentDefect? all) all
  firstDefect (cycleDefect? all) all
  return kinds

end Forest

end Lineage
