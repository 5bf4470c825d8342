/-!
# Indexes

An index is a list of keys with their values, ascending by key. A key occurs once: giving it a
value again replaces the old one.
-/

namespace Lineage

/-- Values by integer key, in ascending order of the keys. -/
abbrev Index (α : Type) := List (Int × α)

namespace Index

variable {α : Type}

def get? (key : Int) : Index α → Option α
  | [] => none
  | e :: es => if e.1 = key then some e.2 else get? key es

def set (key : Int) (value : α) : Index α → Index α
  | [] => [(key, value)]
  | e :: es =>
    if key < e.1 then (key, value) :: e :: es
    else if e.1 = key then (key, value) :: es
    else e :: set key value es

def holds (key : Int) (index : Index α) : Bool :=
  (index.get? key).isSome

def values (index : Index α) : List α :=
  index.map (·.2)

theorem get?_set_self (key : Int) (value : α) (index : Index α) :
    (index.set key value).get? key = some value := by
  induction index with
  | nil => simp [set, get?]
  | cons e es ih =>
    simp only [set]
    split
    · simp [get?]
    · split
      · simp [get?]
      · simp [get?, *]

theorem get?_set_of_ne {key other : Int} (value : α) (index : Index α) (h : other ≠ key) :
    (index.set key value).get? other = index.get? other := by
  induction index with
  | nil => simp [set, get?, Ne.symm h]
  | cons e es ih =>
    simp only [set]
    split
    · simp [get?, Ne.symm h]
    · split
      · next _ hk => simp [get?, hk, Ne.symm h]
      · simp [get?, ih]

end Index

end Lineage
