import Lineage.Description.Schema
import Mathlib.Data.List.Forall2

/-!
# Valid values

What is made of checked values is valid exactly if they are. So a valid description tells what
stands in its document: each member that has to be there, each item of a list.
-/

namespace Lineage

namespace Checked

variable {α β : Type}

theorem map_eq_valid {f : α → β} {c : Checked α} {b : β} :
    f <$> c = .valid b ↔ ∃ a, c = .valid a ∧ f a = b := by
  cases c with
  | valid a =>
    constructor
    · rintro ⟨⟩
      exact ⟨a, rfl, rfl⟩
    · rintro ⟨_, ⟨⟩, rfl⟩
      rfl
  | invalid vs => exact ⟨nofun, nofun⟩

theorem seq_eq_valid {f : Checked (α → β)} {c : Checked α} {b : β} :
    f <*> c = .valid b ↔ ∃ g a, f = .valid g ∧ c = .valid a ∧ g a = b := by
  cases f with
  | valid g =>
    cases c with
    | valid a =>
      constructor
      · rintro ⟨⟩
        exact ⟨g, a, rfl, rfl, rfl⟩
      · rintro ⟨_, _, ⟨⟩, ⟨⟩, rfl⟩
        rfl
    | invalid vs => exact ⟨nofun, nofun⟩
  | invalid vs =>
    cases c with
    | valid a => exact ⟨nofun, nofun⟩
    | invalid ws => exact ⟨nofun, nofun⟩

@[simp] theorem under_eq_valid {step : Step} {c : Checked α} {a : α} :
    c.under step = .valid a ↔ c = .valid a := by
  cases c with
  | valid b => exact Iff.rfl
  | invalid vs => exact ⟨nofun, nofun⟩

end Checked

namespace Schema

variable {α : Type} {decode : Json → Checked α} {name : String}
  {members : List (String × Json)}

theorem required_eq_valid {a : α} : required members name decode = .valid a ↔
    ∃ v, Json.member? name members = some v ∧ decode v = .valid a := by
  rw [required]
  cases Json.member? name members with
  | none => exact ⟨nofun, nofun⟩
  | some v => simp

theorem optional_eq_valid {a default : α} : optional members name default decode = .valid a ↔
    (Json.member? name members = none ∧ a = default) ∨
      ∃ v, Json.member? name members = some v ∧ decode v = .valid a := by
  rw [optional]
  cases Json.member? name members with
  | none => simp [eq_comm]
  | some v => simp

theorem nullable_eq_some {v : Json} {a : α} (h : nullable decode v = .valid (some a)) :
    decode v = .valid a := by
  rw [nullable.eq_def] at h
  split at h
  · cases h
  · obtain ⟨b, hb, he⟩ := Checked.map_eq_valid.mp h
    cases he
    exact hb

/-- The items of a list are valid if each of them is. -/
theorem itemsFrom_eq_valid {position : Nat} {items : List Json} {values : List α} :
    itemsFrom decode position items = .valid values ↔
      List.Forall₂ (fun v a => decode v = .valid a) items values := by
  induction items generalizing position values with
  | nil =>
    rw [itemsFrom, List.forall₂_nil_left_iff]
    exact ⟨fun h => by cases h; rfl, fun h => h ▸ rfl⟩
  | cons v vs ih =>
    simp only [itemsFrom, Checked.seq_eq_valid, Checked.map_eq_valid, Checked.under_eq_valid,
      List.forall₂_cons_left_iff, ih]
    constructor
    · rintro ⟨_, as, ⟨a, ha, rfl⟩, has, rfl⟩
      exact ⟨a, as, ha, has, rfl⟩
    · rintro ⟨a, as, ha, has, rfl⟩
      exact ⟨_, as, ⟨a, ha, rfl⟩, has, rfl⟩

theorem list_eq_valid {v : Json} {values : List α} : list decode v = .valid values ↔
    ∃ items, v = .array items ∧ List.Forall₂ (fun v a => decode v = .valid a) items values := by
  cases v with
  | array items => simp [list, itemsFrom_eq_valid]
  | _ => exact ⟨nofun, nofun⟩

end Schema

end Lineage
