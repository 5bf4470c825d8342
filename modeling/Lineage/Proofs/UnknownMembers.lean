import Lineage.Description.Load
import Mathlib.Data.List.Basic
import Mathlib.Data.List.Forall2

/-!
# Unknown members

A document without the members that no model knows. Loading makes the same of it: the same project,
or the same fault with the same violations at the same places. All that differs is what a violation
shows of an object that lacks a field: this object, with the members that it has.
-/

namespace Lineage.Schema

/-! ## Pruning -/

/-- The members that a model knows, each with what becomes of its value. -/
abbrev Fields := List (String × (Json → Json))

def pruneMembers (fields : Fields) (members : List (String × Json)) : List (String × Json) :=
  members.filterMap fun m => (fields.lookup m.1).map fun prune => (m.1, prune m.2)

/-- Prunes an object; what is no object is not of the model and stays as it is. -/
def pruneObject (fields : Fields) : Json → Json
  | .object members => .object (pruneMembers fields members)
  | v => v

def pruneItems (prune : Json → Json) : Json → Json
  | .array items => .array (items.map prune)
  | v => v

/-- The members of a type with a tag, and whether there are types in them again. -/
def typeMembers? : String → Option (List (String × Bool))
  | "reference" =>
    some [("type", false), ("name", false), ("symbol_id", false), ("type_arguments", true)]
  | "tuple" => some [("type", false), ("elements", true)]
  | "union" => some [("type", false), ("types", true)]
  | "intrinsic" => some [("type", false), ("name", false)]
  | "stringLiteral" => some [("type", false), ("value", false)]
  | "unknown" => some [("type", false), ("name", false)]
  | _ => none

mutual

/-- Prunes a type by its tag; without a known tag it stays as it is. -/
def pruneType : Json → Json
  | .object members =>
    match Json.member? "type" members with
    | some (.string tag) =>
      match typeMembers? tag with
      | some known => .object (pruneTypeMembers known members)
      | none => .object members
    | _ => .object members
  | v => v

def pruneTypeMembers (known : List (String × Bool)) :
    List (String × Json) → List (String × Json)
  | [] => []
  | (name, v) :: rest =>
    match known.lookup name with
    | none => pruneTypeMembers known rest
    | some false => (name, v) :: pruneTypeMembers known rest
    | some true => (name, pruneTypeList v) :: pruneTypeMembers known rest

def pruneTypeList : Json → Json
  | .array items => .array (pruneTypes items)
  | v => v

def pruneTypes : List Json → List Json
  | [] => []
  | v :: vs => pruneType v :: pruneTypes vs

end

def decoratorFields : Fields :=
  [("name", id), ("type", pruneType), ("arguments", id)]

def declarationFields : Fields :=
  [("id", id), ("name", id), ("kind", id), ("symbol_id", id), ("parent", id), ("type", pruneType),
    ("inherited_from", pruneType), ("overwrites", pruneType),
    ("extended_types", pruneItems pruneType), ("implemented_types", pruneItems pruneType),
    ("decorators", pruneItems (pruneObject decoratorFields))]

def projectFields : Fields :=
  [("name", id), ("declarations", pruneItems (pruneObject declarationFields))]

def prune : Json → Json :=
  pruneObject projectFields

/-! ## Alike -/

/-- An object of a model, and what becomes of it. -/
inductive Pruned : Json → Json → Prop
  | declaration (v : Json) : Pruned v (pruneObject declarationFields v)
  | decorator (v : Json) : Pruned v (pruneObject decoratorFields v)
  | type (v : Json) : Pruned v (pruneType v)

end Schema

/--
The same violation before and after pruning. It shows the same value, unless a field is missing:
then it shows the object without the field, as that is in each of the documents.
-/
structure Violation.Alike (old new : Violation) : Prop where
  path : new.path = old.path
  cause : new.cause = old.cause
  input : new.input = old.input ∨ old.cause = .missing ∧ Schema.Pruned old.input new.input

namespace Checked

variable {α β : Type}

/-- The same outcome of a check before and after pruning. -/
inductive Alike : Checked α → Checked α → Prop
  | valid (a : α) : Alike (.valid a) (.valid a)
  | invalid {vs ws : List Violation} : List.Forall₂ Violation.Alike vs ws →
    Alike (.invalid vs) (.invalid ws)

theorem Alike.refl (c : Checked α) : Alike c c := by
  cases c with
  | valid a => exact .valid a
  | invalid vs => exact .invalid (List.forall₂_same.mpr fun v _ => ⟨rfl, rfl, .inl rfl⟩)

theorem Alike.map {c c' : Checked α} (h : Alike c c') (f : α → β) : Alike (f <$> c) (f <$> c') := by
  cases h with
  | valid a => exact .valid (f a)
  | invalid h => exact .invalid h

theorem Alike.seq {f f' : Checked (α → β)} {c c' : Checked α} (hf : Alike f f')
    (hc : Alike c c') : Alike (f <*> c) (f' <*> c') := by
  cases hf with
  | valid g =>
    cases hc with
    | valid a => exact .valid (g a)
    | invalid h => exact .invalid h
  | invalid hf =>
    cases hc with
    | valid a => exact .invalid hf
    | invalid hc => exact .invalid (List.rel_append hf hc)

theorem Alike.under {c c' : Checked α} (h : Alike c c') (step : Step) :
    Alike (c.under step) (c'.under step) := by
  cases h with
  | valid a => exact .valid a
  | invalid h =>
    refine .invalid (List.forall₂_map_left_iff.mpr (List.forall₂_map_right_iff.mpr ?_))
    exact h.imp fun v w hvw => ⟨congrArg (step :: ·) hvw.path, hvw.cause, hvw.input⟩

end Checked

namespace Schema

open Checked

/-! ## Members -/

theorem member?_pruneMembers (fields : Fields) (members : List (String × Json)) (name : String) :
    Json.member? name (pruneMembers fields members) =
      (fields.lookup name).bind fun prune => (Json.member? name members).map prune := by
  induction members with
  | nil => cases fields.lookup name <;> rfl
  | cons m rest ih =>
    rw [pruneMembers, List.filterMap_cons, ← pruneMembers, Json.member?]
    by_cases hm : m.1 = name
    · subst hm
      rw [if_pos rfl]
      cases hfield : fields.lookup m.1 with
      | none => simp only [Option.map_none, ih, hfield, Option.bind_none]
      | some prune => simp only [Option.map_some, Json.member?, if_true, Option.bind_some]
    · rw [if_neg hm, ← ih]
      cases fields.lookup m.1 with
      | none => rfl
      | some prune => simp only [Option.map_some, Json.member?, if_neg hm]

section Fields

variable {α : Type} {fields : Fields} {name : String} {change : Json → Json}
  {decode : Json → Checked α}

/-- A field that has to be there is read alike if its value is. -/
theorem required_pruneMembers (hfield : fields.lookup name = some change)
    {members : List (String × Json)}
    (hpruned : Pruned (.object members) (.object (pruneMembers fields members)))
    (hdecode : ∀ v, Alike (decode v) (decode (change v))) :
    Alike (required members name decode)
      (required (pruneMembers fields members) name decode) := by
  rw [required, required, member?_pruneMembers, hfield, Option.bind_some]
  cases Json.member? name members with
  | none =>
    have hviolation : Violation.Alike ⟨[], .missing, .object members⟩
        ⟨[], .missing, .object (pruneMembers fields members)⟩ :=
      ⟨rfl, rfl, .inr ⟨rfl, hpruned⟩⟩
    exact .under (.invalid (.cons hviolation .nil)) _
  | some v => exact (hdecode v).under _

/-- A field that may be absent is read alike if its value is. -/
theorem optional_pruneMembers (hfield : fields.lookup name = some change)
    {members : List (String × Json)}
    (hdecode : ∀ v, Json.member? name members = some v → Alike (decode v) (decode (change v)))
    (default : α) :
    Alike (optional members name default decode)
      (optional (pruneMembers fields members) name default decode) := by
  rw [optional, optional, member?_pruneMembers, hfield, Option.bind_some]
  cases hmember : Json.member? name members with
  | none => exact .valid default
  | some v => exact (hdecode v hmember).under _

end Fields

/-! ## Lists -/

section Lists

variable {α : Type} {decode : Json → Checked α} {change : Json → Json}

theorem itemsFrom_map {items : List Json} (h : ∀ v ∈ items, Alike (decode v) (decode (change v)))
    (position : Nat) :
    Alike (itemsFrom decode position items) (itemsFrom decode position (items.map change)) := by
  induction items generalizing position with
  | nil => exact .valid []
  | cons v vs ih =>
    rw [List.forall_mem_cons] at h
    exact ((h.1.under _).map _).seq (ih h.2 _)

theorem list_pruneItems {v : Json}
    (h : ∀ items, v = .array items → ∀ u ∈ items, Alike (decode u) (decode (change u))) :
    Alike (list decode v) (list decode (pruneItems change v)) := by
  cases v with
  | array items => exact itemsFrom_map (h items rfl) 0
  | _ => exact .refl _

/-- A value that may be null is read alike if it is one to begin with. -/
theorem nullable_alike {v : Json} (hnull : change .null = .null)
    (hother : v ≠ .null → change v ≠ .null) (h : Alike (decode v) (decode (change v))) :
    Alike (nullable decode v) (nullable decode (change v)) := by
  have hnot : ∀ {u : Json}, u ≠ .null → nullable decode u = (decode u).map some := by
    intro u hu
    cases u with
    | null => exact absurd rfl hu
    | _ => rfl
  by_cases hv : v = .null
  · rw [hv, hnull]
    exact .refl _
  · rw [hnot hv, hnot (hother hv)]
    exact h.map some

end Lists

/-! ## Types -/

def typeFields (known : List (String × Bool)) : Fields :=
  known.map fun m => (m.1, if m.2 then pruneItems pruneType else id)

theorem pruneTypes_eq_map (vs : List Json) : pruneTypes vs = vs.map pruneType := by
  induction vs with
  | nil => rfl
  | cons v vs ih => rw [pruneTypes, ih, List.map_cons]

theorem pruneTypeList_eq (v : Json) : pruneTypeList v = pruneItems pruneType v := by
  cases v with
  | array items => rw [pruneTypeList, pruneItems, pruneTypes_eq_map]
  | _ => rfl

theorem pruneTypeMembers_eq (known : List (String × Bool)) (members : List (String × Json)) :
    pruneTypeMembers known members = pruneMembers (typeFields known) members := by
  have hlookup : ∀ name, (typeFields known).lookup name =
      (known.lookup name).map fun nested => if nested then pruneItems pruneType else id := by
    intro name
    induction known with
    | nil => rfl
    | cons m known ih =>
      rw [typeFields, List.map_cons, List.lookup_cons, List.lookup_cons, ← typeFields, ih]
      cases name == m.1 <;> rfl
  induction members with
  | nil => rfl
  | cons m rest ih =>
    obtain ⟨name, v⟩ := m
    rw [pruneMembers, List.filterMap_cons, ← pruneMembers, hlookup, ← ih, pruneTypeMembers]
    rcases known.lookup name with _ | _ | _
    · rfl
    · rfl
    · rw [pruneTypeList_eq]
      rfl

theorem typesFrom_eq (position : Nat) (vs : List Json) :
    typesFrom position vs = itemsFrom type position vs := by
  induction vs generalizing position with
  | nil => rfl
  | cons v vs ih => rw [typesFrom, itemsFrom, ih]

theorem typesIn_eq (name : String) (members : List (String × Json)) :
    typesIn name members = optional members name [] (list type) := by
  induction members with
  | nil => rfl
  | cons m rest ih =>
    obtain ⟨key, v⟩ := m
    rw [typesIn.eq_def, optional, Json.member?]
    by_cases hkey : key = name
    · simp only [if_pos hkey]
      cases v <;> simp only [typesFrom_eq, list]
    · simp only [if_neg hkey]
      exact ih

theorem argumentsIn_eq (members : List (String × Json)) :
    argumentsIn members = optional members "type_arguments" none (nullable (list type)) := by
  induction members with
  | nil => rfl
  | cons m rest ih =>
    obtain ⟨key, v⟩ := m
    rw [argumentsIn.eq_def, optional, Json.member?]
    by_cases hkey : key = "type_arguments"
    · simp only [if_pos hkey]
      cases v <;> simp only [typesFrom_eq, nullable, list] <;> rfl
    · simp only [if_neg hkey]
      exact ih

theorem mem_of_member? {name : String} {members : List (String × Json)} {v : Json}
    (h : Json.member? name members = some v) : (name, v) ∈ members := by
  induction members with
  | nil => cases h
  | cons m rest ih =>
    rw [Json.member?] at h
    split at h
    · next hm =>
      obtain rfl := Option.some.inj h
      rw [← hm]
      exact List.mem_cons_self
    · exact List.mem_cons_of_mem m (ih h)

/-- What stands in the lists of an object is smaller than the object. -/
theorem sizeOf_lt_of_member? {name : String} {members : List (String × Json)} {items : List Json}
    (h : Json.member? name members = some (.array items)) {v : Json} (hv : v ∈ items) :
    sizeOf v < sizeOf (Json.object members) := by
  have hitem := List.sizeOf_lt_of_mem hv
  have hmember := List.sizeOf_lt_of_mem (mem_of_member? h)
  simp only [Prod.mk.sizeOf_spec, Json.array.sizeOf_spec] at hmember
  rw [Json.object.sizeOf_spec]
  omega

theorem member?_tag {tag : String} {known : List (String × Bool)}
    (h : typeMembers? tag = some known) (members : List (String × Json)) :
    Json.member? "type" (pruneMembers (typeFields known) members) =
      Json.member? "type" members := by
  have hfield : (typeFields known).lookup "type" = some id := by
    unfold typeMembers? at h
    split at h <;> cases h <;> rfl
  rw [member?_pruneMembers, hfield, Option.bind_some, Option.map_id, id]

theorem type_pruneType (v : Json) : Alike (type v) (type (pruneType v)) := by
  cases v with
  | object members =>
    have hlist : ∀ {name : String} {v : Json}, Json.member? name members = some v →
        Alike (list type v) (list type (pruneItems pruneType v)) := by
      intro name v hv
      apply list_pruneItems
      rintro items rfl u hu
      have hlt : sizeOf u < sizeOf (Json.object members) := sizeOf_lt_of_member? hv hu
      exact type_pruneType u
    have hnullable : ∀ {name : String} {v : Json}, Json.member? name members = some v →
        Alike (nullable (list type) v) (nullable (list type) (pruneItems pruneType v)) := by
      intro name v hv
      refine nullable_alike rfl (fun hnot => ?_) (hlist hv)
      cases v with
      | null => exact absurd rfl hnot
      | _ => exact nofun
    have hpruned := Pruned.type (.object members)
    rw [pruneType] at hpruned ⊢
    split
    · next tag htag =>
      split
      · next known hknown =>
        have htag' := (member?_tag hknown members).trans htag
        simp only [htag, hknown, pruneTypeMembers_eq] at hpruned ⊢
        -- Each tag has its own fields, and each of them is read alike.
        unfold typeMembers? at hknown
        split at hknown
        · cases hknown
          simp only [type, htag', htag, argumentsIn_eq]
          refine .under ((((required_pruneMembers rfl hpruned fun _ => .refl _).map _).seq
            (optional_pruneMembers rfl (fun _ _ => .refl _) _)).seq
            (optional_pruneMembers rfl ?_ _)) _
          exact fun _ hv => hnullable hv
        · cases hknown
          simp only [type, htag', htag, typesIn_eq]
          refine .under ((optional_pruneMembers rfl ?_ _).map _) _
          exact fun _ hv => hlist hv
        · cases hknown
          simp only [type, htag', htag, typesIn_eq]
          refine .under ((optional_pruneMembers rfl ?_ _).map _) _
          exact fun _ hv => hlist hv
        · cases hknown
          simp only [type, htag', htag]
          exact .under ((required_pruneMembers rfl hpruned fun _ => .refl _).map _) _
        · cases hknown
          simp only [type, htag', htag]
          exact .under ((required_pruneMembers rfl hpruned fun _ => .refl _).map _) _
        · cases hknown
          simp only [type, htag', htag]
          exact .under ((required_pruneMembers rfl hpruned fun _ => .refl _).map _) _
        · cases hknown
      · exact .refl _
    · exact .refl _
  | _ => exact .refl _
termination_by sizeOf v
decreasing_by exact hlt

/-! ## Models -/

theorem nullable_pruneType (v : Json) :
    Alike (nullable type v) (nullable type (pruneType v)) := by
  refine nullable_alike rfl (fun hnot => ?_) (type_pruneType v)
  cases v with
  | null => exact absurd rfl hnot
  | object members =>
    rw [pruneType]
    split
    · split <;> exact nofun
    · exact nofun
  | _ => exact nofun

theorem list_pruneType (v : Json) :
    Alike (list type v) (list type (pruneItems pruneType v)) :=
  list_pruneItems fun _ _ u _ => type_pruneType u

theorem decorator_prune (v : Json) :
    Alike (decorator v) (decorator (pruneObject decoratorFields v)) := by
  cases v with
  | object members =>
    have hpruned := Pruned.decorator (.object members)
    exact (((required_pruneMembers rfl hpruned fun _ => .refl _).map _).seq
      (optional_pruneMembers rfl (fun v _ => nullable_pruneType v) _)).seq
      (optional_pruneMembers rfl (fun _ _ => .refl _) _)
  | _ => exact .refl _

theorem declaration_prune (v : Json) :
    Alike (declaration v) (declaration (pruneObject declarationFields v)) := by
  cases v with
  | object members =>
    have hpruned := Pruned.declaration (.object members)
    have hdecorators : ∀ v, Alike (list decorator v)
        (list decorator (pruneItems (pruneObject decoratorFields) v)) :=
      fun _ => list_pruneItems fun _ _ u _ => decorator_prune u
    refine .seq (.seq (.seq (.seq (.seq (.seq (.seq (.seq (.seq (.seq (.map ?_ _) ?_) ?_) ?_) ?_)
      ?_) ?_) ?_) ?_) ?_) ?_
    · exact required_pruneMembers rfl hpruned fun _ => .refl _
    · exact required_pruneMembers rfl hpruned fun _ => .refl _
    · exact required_pruneMembers rfl hpruned fun _ => .refl _
    · exact optional_pruneMembers rfl (fun _ _ => .refl _) _
    · exact optional_pruneMembers rfl (fun _ _ => .refl _) _
    · exact optional_pruneMembers rfl (fun v _ => nullable_pruneType v) _
    · exact optional_pruneMembers rfl (fun v _ => nullable_pruneType v) _
    · exact optional_pruneMembers rfl (fun v _ => nullable_pruneType v) _
    · exact optional_pruneMembers rfl (fun v _ => list_pruneType v) _
    · exact optional_pruneMembers rfl (fun v _ => list_pruneType v) _
    · exact optional_pruneMembers rfl (fun v _ => hdecorators v) _
  | _ => exact .refl _

theorem project_prune (members : List (String × Json)) :
    Alike (project members) (project (pruneMembers projectFields members)) :=
  have hdeclarations : ∀ v, Alike (list declaration v)
      (list declaration (pruneItems (pruneObject declarationFields) v)) :=
    fun _ => list_pruneItems fun _ _ u _ => declaration_prune u
  ((optional_pruneMembers rfl (fun _ _ => .refl _) _).map _).seq
    (optional_pruneMembers rfl (fun v _ => hdeclarations v) _)

end Lineage.Schema

namespace Lineage.Graph

/-- The same outcome of loading before and after pruning. -/
inductive LoadsAlike (source : String) : Except Fault Graph → Except Fault Graph → Prop
  | same (outcome : Except Fault Graph) : LoadsAlike source outcome outcome
  | violations {vs ws : List Violation} : List.Forall₂ Violation.Alike vs ws →
    LoadsAlike source (.error (.load source (.violations vs)))
      (.error (.load source (.violations ws)))

/--
A document without the members that no model knows is loaded with the same outcome: the same
project, or the same fault. If this is about violations, they are the same at the same places, and
show the same values save for the objects that lack a field.
-/
theorem load_prune (g : Graph) (source : String) (v : Json) :
    LoadsAlike source (g.loadJson source v) (g.loadJson source (Schema.prune v)) ∧
      ∀ text pruned, Json.read text = .ok v → Json.read pruned = .ok (Schema.prune v) →
        LoadsAlike source (g.loadText source text) (g.loadText source pruned) := by
  have hjson : LoadsAlike source (g.loadJson source v) (g.loadJson source (Schema.prune v)) := by
    cases v with
    | object members =>
      simp only [Schema.prune, Schema.pruneObject, loadJson]
      have halike := Schema.project_prune members
      generalize Schema.project members = old at halike
      generalize Schema.project (Schema.pruneMembers Schema.projectFields members) = new at halike
      cases halike with
      | valid spec => exact .same _
      | invalid h => exact .violations h
    | _ => exact .same _
  refine ⟨hjson, fun text pruned htext hpruned => ?_⟩
  rw [loadText, loadText, htext, hpruned]
  exact hjson

/-- A declaration that has nothing but a member that no model knows. -/
def loneMember : Json :=
  .object [("declarations", .array [.object [("x", .int 1)]])]

/-- What is missing from that declaration is missing from an empty one too, but reported of it. -/
theorem load_loneMember : ∃ fault fault',
    Graph.empty.loadJson "<memory>" loneMember = .error fault ∧
      Graph.empty.loadJson "<memory>" (Schema.prune loneMember) = .error fault' ∧
      fault.message none ≠ fault'.message none := by
  refine ⟨_, _, rfl, rfl, ?_⟩
  decide +kernel

/-- What is a member of one type is noise in another one, and no argument is. -/
example : Schema.prune (.object [("note", .null), ("declarations", .array [.object
    [("type", .object [("type", .string "tuple"), ("name", .string "noise"), ("elements", .array
      [.object [("elements", .null), ("type", .string "intrinsic"), ("name", .string "void")]])]),
      ("decorators", .array [.object [("line", .int 1), ("arguments", .object [("a", .null)])]]),
      ("types", .array [])]])]) =
    .object [("declarations", .array [.object
      [("type", .object [("type", .string "tuple"), ("elements", .array
        [.object [("type", .string "intrinsic"), ("name", .string "void")]])]),
        ("decorators", .array [.object [("arguments", .object [("a", .null)])]])]])] := by
  rfl

end Lineage.Graph
