import Lineage.Proofs.Loaded
import Lineage.Coverage
import Mathlib.Data.List.ReduceOption

/-!
# Places

Where references stand. A place is the list of positions on the way down: the field of a
declaration, the type within the field, and then the child indices within the type. Places are
compared lexicographically, so that a node comes before everything inside it and the places of a
type ascend in depth-first pre-order.
-/

namespace Lineage

/-! ## Numbered items -/

/-- A place within something, and the reference that stands there. -/
abbrev Placed := List Nat × Reference

/-- What stands in a list of items, each place below the number of its item. -/
def numbered {α : Type} (within : α → List Placed) (first : Nat) : List α → List Placed
  | [] => []
  | a :: as => (within a).map (fun o => (first :: o.1, o.2)) ++ numbered within (first + 1) as

section Numbered

variable {α : Type} {within : α → List Placed}

theorem map_snd_numbered (within : α → List Placed) (first : Nat) (as : List α) :
    (numbered within first as).map Prod.snd = as.flatMap fun a => (within a).map Prod.snd := by
  induction as generalizing first with
  | nil => rfl
  | cons a as ih => simp [numbered, ih]

theorem mem_numbered {first : Nat} {as : List α} {o : Placed} :
    o ∈ numbered within first as ↔ ∃ (i : Nat) (a : α) (place : List Nat),
      as[i]? = some a ∧ (place, o.2) ∈ within a ∧ o.1 = (first + i) :: place := by
  induction as generalizing first with
  | nil => simp [numbered]
  | cons a as ih =>
    rw [numbered, List.mem_append, ih, List.mem_map]
    constructor
    · rintro (⟨⟨place, r⟩, hmem, rfl⟩ | ⟨i, b, place, hb, hmem, hplace⟩)
      · exact ⟨0, a, place, rfl, hmem, rfl⟩
      · exact ⟨i + 1, b, place, hb, hmem, by rw [hplace]; congr 1; omega⟩
    · rintro ⟨i, b, place, hb, hmem, hplace⟩
      cases i with
      | zero =>
        obtain rfl := Option.some.inj hb
        exact Or.inl ⟨(place, o.2), hmem, Prod.ext hplace.symm rfl⟩
      | succ i => exact Or.inr ⟨i, b, place, hb, hmem, by rw [hplace]; congr 1; omega⟩

theorem pairwise_numbered {first : Nat} {as : List α}
    (h : ∀ a ∈ as, (within a).Pairwise fun o p => o.1 < p.1) :
    (numbered within first as).Pairwise fun o p => o.1 < p.1 := by
  induction as generalizing first with
  | nil => exact List.Pairwise.nil
  | cons a as ih =>
    rw [List.forall_mem_cons] at h
    rw [numbered, List.pairwise_append, List.pairwise_map]
    refine ⟨h.1.imp fun hlt => List.cons_lt_cons_iff.mpr (Or.inr ⟨rfl, hlt⟩), ih h.2, ?_⟩
    intro o ho p hp
    obtain ⟨o, -, rfl⟩ := List.mem_map.mp ho
    obtain ⟨i, b, place, -, -, hplace⟩ := mem_numbered.mp hp
    rw [hplace]
    exact List.cons_lt_cons_iff.mpr (Or.inl (by omega))

end Numbered

/-! ## Types -/

/-- A reference stands at a place in a type. -/
inductive TypeExpr.At (r : Reference) : List Nat → TypeExpr → Prop
  | reference : At r [] (.reference r)
  | head (arguments : List TypeExpr) : At r [] (.applied r arguments)
  | argument {head : Reference} {arguments : List TypeExpr} {i : Nat} {t : TypeExpr}
    {place : List Nat} : arguments[i]? = some t → At r place t →
    At r (i :: place) (.applied head arguments)
  | element {elements : List TypeExpr} {i : Nat} {t : TypeExpr} {place : List Nat} :
    elements[i]? = some t → At r place t → At r (i :: place) (.tuple elements)
  | member {members : List TypeExpr} {i : Nat} {t : TypeExpr} {place : List Nat} :
    members[i]? = some t → At r place t → At r (i :: place) (.union members)

namespace TypeExpr

mutual

/-- The references of a type with their places, in depth-first pre-order. -/
def placed : TypeExpr → List Placed
  | reference r => [([], r)]
  | applied r arguments => ([], r) :: placedFrom 0 arguments
  | tuple elements => placedFrom 0 elements
  | union members => placedFrom 0 members
  | _ => []

/-- The references of a list of types with their places, the types being numbered from `first`. -/
def placedFrom (first : Nat) : List TypeExpr → List Placed
  | [] => []
  | t :: ts => t.placed.map (fun o => (first :: o.1, o.2)) ++ placedFrom (first + 1) ts

end

theorem placedFrom_eq (first : Nat) (ts : List TypeExpr) :
    placedFrom first ts = numbered placed first ts := by
  induction ts generalizing first with
  | nil => rw [placedFrom, numbered]
  | cons t ts ih => rw [placedFrom, numbered, ih]

theorem map_snd_placed (t : TypeExpr) : t.placed.map Prod.snd = t.references := by
  have hlist : ∀ ts : List TypeExpr, (∀ t ∈ ts, t.placed.map Prod.snd = t.references) →
      (placedFrom 0 ts).map Prod.snd = referencesOf ts := fun ts ih => by
    rw [placedFrom_eq, map_snd_numbered, referencesOf_eq_flatMap]
    exact List.flatMap_congr ih
  induction t using induction_children with
  | reference r => rfl
  | applied r ts ih => rw [placed, references, List.map_cons, hlist ts ih]
  | tuple ts ih => rw [placed, references, hlist ts ih]
  | union ts ih => rw [placed, references, hlist ts ih]
  | intrinsic | literal | unknown | blank => rfl

theorem mem_placed {t : TypeExpr} {o : Placed} : o ∈ t.placed ↔ t.At o.2 o.1 := by
  have hlist : ∀ ts : List TypeExpr, (∀ t ∈ ts, ∀ {o : Placed}, o ∈ t.placed ↔ t.At o.2 o.1) →
      ∀ o : Placed, o ∈ placedFrom 0 ts ↔ ∃ (i : Nat) (t : TypeExpr) (place : List Nat),
        ts[i]? = some t ∧ t.At o.2 place ∧ o.1 = i :: place := fun ts ih o => by
    rw [placedFrom_eq, mem_numbered]
    constructor
    · rintro ⟨i, t, place, ht, hmem, hplace⟩
      exact ⟨i, t, place, ht, (ih t (List.mem_of_getElem? ht)).mp hmem, by simpa using hplace⟩
    · rintro ⟨i, t, place, ht, hat, hplace⟩
      exact ⟨i, t, place, ht, (ih t (List.mem_of_getElem? ht)).mpr hat, by simpa using hplace⟩
  obtain ⟨place, r⟩ := o
  induction t using induction_children generalizing place r with
  | reference q =>
    rw [placed, List.mem_singleton, Prod.mk.injEq]
    constructor
    · rintro ⟨rfl, rfl⟩
      exact .reference
    · intro h
      cases h with
      | reference => exact ⟨rfl, rfl⟩
  | applied q ts ih =>
    rw [placed, List.mem_cons, hlist ts (fun t ht o => ih t ht o.1 o.2), Prod.mk.injEq]
    constructor
    · rintro (⟨rfl, rfl⟩ | ⟨i, t, place, ht, hat, rfl⟩)
      · exact .head ts
      · exact .argument ht hat
    · intro h
      cases h with
      | head => exact Or.inl ⟨rfl, rfl⟩
      | argument ht hat => exact Or.inr ⟨_, _, _, ht, hat, rfl⟩
  | tuple ts ih =>
    rw [placed, hlist ts (fun t ht o => ih t ht o.1 o.2)]
    constructor
    · rintro ⟨i, t, place, ht, hat, rfl⟩
      exact .element ht hat
    · intro h
      cases h with
      | element ht hat => exact ⟨_, _, _, ht, hat, rfl⟩
  | union ts ih =>
    rw [placed, hlist ts (fun t ht o => ih t ht o.1 o.2)]
    constructor
    · rintro ⟨i, t, place, ht, hat, rfl⟩
      exact .member ht hat
    · intro h
      cases h with
      | member ht hat => exact ⟨_, _, _, ht, hat, rfl⟩
  | intrinsic | literal | unknown | blank =>
    exact ⟨fun h => by simp [placed] at h, nofun⟩

theorem pairwise_placed (t : TypeExpr) : t.placed.Pairwise fun o p => o.1 < p.1 := by
  induction t using induction_children with
  | reference r => exact List.pairwise_singleton _ _
  | applied r ts ih =>
    rw [placed, placedFrom_eq]
    refine List.pairwise_cons.mpr ⟨fun o ho => ?_, pairwise_numbered ih⟩
    obtain ⟨i, t, place, -, -, hplace⟩ := mem_numbered.mp ho
    rw [hplace]
    exact List.nil_lt_cons _ _
  | tuple ts ih => rw [placed, placedFrom_eq]; exact pairwise_numbered ih
  | union ts ih => rw [placed, placedFrom_eq]; exact pairwise_numbered ih
  | intrinsic | literal | unknown | blank => exact List.Pairwise.nil

end TypeExpr

/-! ## Declarations -/

namespace Declaration

/-- The fields of a declaration in the order of resolution, each with the types it holds. -/
def fields (d : Declaration) : List (List (Option TypeExpr)) :=
  [[d.type], [d.inheritedFrom], [d.overwrites], (d.extendedTypes.getD []).map some,
    (d.extendedBy.getD []).map some, (d.implementedTypes.getD []).map some,
    (d.decorators.getD []).map (·.type)]

/-- A reference stands at a place in a type of a declaration. -/
inductive At (r : Reference) : List Nat → Declaration → Prop
  | field {d : Declaration} {i j : Nat} {types : List (Option TypeExpr)} {t : TypeExpr}
    {place : List Nat} : d.fields[i]? = some types → types[j]? = some (some t) → t.At r place →
    At r (i :: j :: place) d

/-- The references of a declaration with their places, field by field. -/
def placed (d : Declaration) : List Placed :=
  numbered (numbered (fun t? : Option TypeExpr => (t?.map (·.placed)).getD []) 0) 0 d.fields

theorem types_eq_flatMap_fields (d : Declaration) :
    d.types = d.fields.flatMap List.reduceOption := by
  have hone : ∀ t? : Option TypeExpr, [t?].reduceOption = t?.toList := fun t? => by
    cases t? <;> rfl
  have hall : ∀ ts : List TypeExpr, (ts.map some).reduceOption = ts := fun ts => by
    simp [List.reduceOption]
  have hdecorators : ∀ ds : List Decorator, (ds.map (·.type)).reduceOption =
      ds.filterMap (·.type) := fun ds => by simp [List.reduceOption]
  simp only [types, fields, List.flatMap_cons, List.flatMap_nil, hone, hall, hdecorators,
    List.append_assoc, List.append_nil]

theorem map_snd_placed (d : Declaration) : d.placed.map Prod.snd = d.references := by
  have hfield : ∀ types : List (Option TypeExpr),
      (types.flatMap fun t? => ((t?.map (·.placed)).getD []).map Prod.snd) =
        types.reduceOption.flatMap TypeExpr.references := fun types => by
    induction types with
    | nil => rfl
    | cons t? types ih => cases t? <;> simp [ih, TypeExpr.map_snd_placed]
  rw [placed, map_snd_numbered, references, types_eq_flatMap_fields,
    TypeExpr.referencesOf_eq_flatMap, List.flatMap_assoc]
  refine List.flatMap_congr fun types _ => ?_
  rw [map_snd_numbered, hfield]

theorem mem_placed {d : Declaration} {o : Placed} : o ∈ d.placed ↔ d.At o.2 o.1 := by
  simp only [placed, mem_numbered]
  constructor
  · rintro ⟨i, types, _, hi, ⟨j, t?, place, hj, hmem, hbelow⟩, hplace⟩
    cases t? with
    | none => simp at hmem
    | some t =>
      rw [hplace, hbelow, Nat.zero_add, Nat.zero_add]
      exact .field hi hj (TypeExpr.mem_placed.mp hmem)
  · intro h
    obtain ⟨place, r⟩ := o
    cases h with
    | @field d i j types t place hi hj hat =>
      exact ⟨i, types, j :: place, hi,
        ⟨j, some t, place, hj, TypeExpr.mem_placed.mpr hat, by rw [Nat.zero_add]⟩,
        by rw [Nat.zero_add]⟩

theorem pairwise_placed (d : Declaration) : d.placed.Pairwise fun o p => o.1 < p.1 := by
  refine pairwise_numbered fun types _ => pairwise_numbered fun t? _ => ?_
  cases t? with
  | none => exact List.Pairwise.nil
  | some t => exact t.pairwise_placed

end Declaration

/-! ## Projects -/

/-- A reference at its place in a declaration. -/
structure Site where
  key : DeclKey
  place : List Nat
  reference : Reference

namespace Graph

variable {g : Graph} {project : ProjectKey}

/-- A site in a project whose reference leads nowhere. -/
structure Dangles (g : Graph) (project : ProjectKey) (o : Site) : Prop where
  key : o.key ∈ g.declarationsOf project
  declaration : ∃ d, g.declaration? o.key = some d ∧ d.At o.reference o.place
  unlinked : g.target? o.reference = none

/-- A site lies in a declaration with a smaller id, or at an earlier place of the same one. -/
def Precedes (g : Graph) (o p : Site) : Prop :=
  g.IdBelow o.key p.key ∨ o.key = p.key ∧ o.place < p.place

def sitesAt (g : Graph) (key : DeclKey) : List Site :=
  (((g.declaration? key).map (·.placed)).getD []).map fun o => ⟨key, o.1, o.2⟩

theorem mem_sitesAt {key : DeclKey} {o : Site} : o ∈ g.sitesAt key ↔
    o.key = key ∧ ∃ d, g.declaration? key = some d ∧ d.At o.reference o.place := by
  rw [sitesAt, List.mem_map]
  cases g.declaration? key with
  | none => simp
  | some d =>
    simp only [Option.map_some, Option.getD_some, Option.some.injEq, exists_eq_left']
    constructor
    · rintro ⟨p, hp, rfl⟩
      exact ⟨rfl, Declaration.mem_placed.mp hp⟩
    · rintro ⟨rfl, hat⟩
      exact ⟨(o.place, o.reference), Declaration.mem_placed.mpr hat, rfl⟩

theorem map_sitesAt (g : Graph) (key : DeclKey) :
    (g.sitesAt key).map (fun o => (o.key, o.reference)) =
      (((g.declaration? key).map (·.references)).getD []).map fun r => (key, r) := by
  rw [sitesAt]
  cases g.declaration? key with
  | none => rfl
  | some d => simp [← Declaration.map_snd_placed, Function.comp_def]

theorem pairwise_sitesAt (g : Graph) (key : DeclKey) :
    (g.sitesAt key).Pairwise g.Precedes := by
  rw [sitesAt, List.pairwise_map]
  cases g.declaration? key with
  | none => exact List.Pairwise.nil
  | some d => exact d.pairwise_placed.imp fun hlt => Or.inr ⟨rfl, hlt⟩

/--
The dangling references of a project are those of its unlinked sites, each listed once, by ascending
id of the declaration and then by place.
-/
theorem exists_dangling (hids : (g.declarationsOf project).Pairwise g.IdBelow) :
    ∃ os : List Site, os.map (fun o => (o.key, o.reference)) = g.danglingIn project ∧
      (∀ o, o ∈ os ↔ g.Dangles project o) ∧ os.Pairwise g.Precedes := by
  refine ⟨((g.declarationsOf project).flatMap g.sitesAt).filter
    (fun o => !g.isLinked o.reference), ?_, fun o => ?_, ?_⟩
  · rw [danglingIn, referencesIn]
    simp only [← map_sitesAt, ← List.map_flatMap, List.filter_map]
    rfl
  · simp only [List.mem_filter, List.mem_flatMap, mem_sitesAt, Bool.not_eq_true', isLinked,
      Option.isSome_eq_false_iff, Option.isNone_iff_eq_none]
    constructor
    · rintro ⟨⟨key, hkey, rfl, hat⟩, hnone⟩
      exact ⟨hkey, hat, hnone⟩
    · rintro ⟨hkey, hat, hnone⟩
      exact ⟨⟨o.key, hkey, rfl, hat⟩, hnone⟩
  · refine List.Pairwise.filter _ (List.pairwise_flatMap.mpr
      ⟨fun key _ => g.pairwise_sitesAt key, hids.imp fun hlt o ho p hp => ?_⟩)
    rw [(mem_sitesAt.mp ho).1.symm, (mem_sitesAt.mp hp).1.symm] at hlt
    exact Or.inl hlt

end Graph

end Lineage
