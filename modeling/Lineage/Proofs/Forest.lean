import Lineage.Proofs.Adoption
import Mathlib.Data.List.Nodup
import Mathlib.Logic.Relation

/-!
# Forests

Which lists of described declarations pass the check, and which defect counts for the others. The
walk along the parents of a declaration never meets more declarations than there are, unless it runs
into a cycle, so that the bound on its steps tells the two apart.
-/

namespace Lineage.Forest

open Relation

/-! ## Well-formed descriptions -/

def ParentOf (all : List DeclarationEntry) (id parent : Int) : Prop :=
  ∃ s ∈ all, s.id = id ∧ s.parent = some parent

/-- Going from an id to its parent and on leads into a cycle. -/
def Loops (all : List DeclarationEntry) (id : Int) : Prop :=
  ∃ member, ReflTransGen (ParentOf all) id member ∧ TransGen (ParentOf all) member member

/-- Declarations have distinct ids that are not negative, and known kinds. -/
structure EntriesFit (entries : List DeclarationEntry) : Prop where
  nonneg : ∀ s ∈ entries, 0 ≤ s.id
  distinct : (entries.map (·.id)).Nodup
  kinds : ∀ s ∈ entries, (Kind.ofName? s.kind).isSome

/-- Each parent is the id of another declaration. -/
def ParentsFit (all entries : List DeclarationEntry) : Prop :=
  ∀ s ∈ entries, ∀ parent, s.parent = some parent → parent ≠ s.id ∧ parent ∈ all.map (·.id)

/-- A description of a forest. -/
structure IsForest (all : List DeclarationEntry) : Prop where
  entries : EntriesFit all
  parents : ParentsFit all all
  acyclic : ∀ id, ¬ TransGen (ParentOf all) id id

/-! ## Defects -/

/-- What is wrong with the id or the kind of a declaration that is described behind others. -/
inductive EntryDefect (before : List DeclarationEntry) (s : DeclarationEntry) : Defect → Prop
  | negativeId : s.id < 0 → EntryDefect before s (.negativeId s.name)
  | duplicateId : 0 ≤ s.id → s.id ∈ before.map (·.id) → EntryDefect before s (.duplicateId s.id)
  | unknownKind : 0 ≤ s.id → s.id ∉ before.map (·.id) → Kind.ofName? s.kind = none →
    EntryDefect before s (.unknownKind s.kind s.name)

/-- What is wrong with the parent of a declaration. -/
inductive ParentDefect (all : List DeclarationEntry) (s : DeclarationEntry) : Defect → Prop
  | ownParent : s.parent = some s.id → ParentDefect all s (.ownParent s.name)
  | unknownParent {parent : Int} : s.parent = some parent → parent ≠ s.id →
    parent ∉ all.map (·.id) → ParentDefect all s (.unknownParent parent s.name)

/--
The defect that counts: that of the first declaration with a wrong id or kind, else of the first one
with a wrong parent, else of the first one whose parents lead into a cycle.
-/
inductive FirstDefect (all : List DeclarationEntry) : Defect → Prop
  | entry {before after : List DeclarationEntry} {s : DeclarationEntry} {defect : Defect} :
    all = before ++ s :: after → EntriesFit before → EntryDefect before s defect →
    FirstDefect all defect
  | parent {before after : List DeclarationEntry} {s : DeclarationEntry} {defect : Defect} :
    EntriesFit all → all = before ++ s :: after → ParentsFit all before →
    ParentDefect all s defect → FirstDefect all defect
  | cycle {before after : List DeclarationEntry} {s : DeclarationEntry} :
    EntriesFit all → ParentsFit all all → all = before ++ s :: after →
    (∀ e ∈ before, ¬ Loops all e.id) → Loops all s.id →
    FirstDefect all (.parentCycle s.name s.id)

/-! ## Ids and kinds -/

theorem entriesFit_nil : EntriesFit [] :=
  ⟨by simp, by simp, by simp⟩

theorem entriesFit_concat {before : List DeclarationEntry} {s : DeclarationEntry} :
    EntriesFit (before ++ [s]) ↔ EntriesFit before ∧ 0 ≤ s.id ∧ s.id ∉ before.map (·.id) ∧
      (Kind.ofName? s.kind).isSome := by
  constructor
  · rintro ⟨hpos, hdistinct, hkinds⟩
    rw [List.map_append, List.nodup_append] at hdistinct
    refine ⟨⟨fun e he => hpos e (by simp [he]), hdistinct.1, fun e he => hkinds e (by simp [he])⟩,
      hpos s (by simp), fun hs => ?_, hkinds s (by simp)⟩
    exact hdistinct.2.2 s.id hs s.id (by simp) rfl
  · rintro ⟨⟨hpos, hdistinct, hkinds⟩, hs, hnew, hkind⟩
    refine ⟨?_, ?_, ?_⟩
    · simpa [or_imp, forall_and] using ⟨hpos, hs⟩
    · rw [List.map_append, List.nodup_append]
      refine ⟨hdistinct, by simp, fun id hid other hother => ?_⟩
      obtain rfl : other = s.id := by simpa using hother
      exact fun he => hnew (he ▸ hid)
    · simpa [or_imp, forall_and] using ⟨hkinds, hkind⟩

theorem EntriesFit.of_append {before after : List DeclarationEntry}
    (h : EntriesFit (before ++ after)) : EntriesFit before where
  nonneg s hs := h.nonneg s (List.mem_append_left _ hs)
  distinct := by
    have hdistinct := h.distinct
    rw [List.map_append] at hdistinct
    exact (List.nodup_append.mp hdistinct).1
  kinds s hs := h.kinds s (List.mem_append_left _ hs)

namespace EntryDefect

variable {before : List DeclarationEntry} {s : DeclarationEntry} {defect other : Defect}

theorem not_entriesFit (h : EntryDefect before s defect) : ¬ EntriesFit (before ++ [s]) := by
  rw [entriesFit_concat]
  rintro ⟨-, hpos, hnew, hkind⟩
  cases h with
  | negativeId h => exact Int.not_lt.mpr hpos h
  | duplicateId _ h => exact hnew h
  | unknownKind _ _ h => simp [h] at hkind

theorem unique (h : EntryDefect before s defect) (h' : EntryDefect before s other) :
    defect = other := by
  cases h with
  | negativeId h =>
    cases h' with
    | negativeId _ => rfl
    | duplicateId h' _ => exact absurd h (Int.not_lt.mpr h')
    | unknownKind h' _ _ => exact absurd h (Int.not_lt.mpr h')
  | duplicateId hpos h =>
    cases h' with
    | negativeId h' => exact absurd h' (Int.not_lt.mpr hpos)
    | duplicateId _ _ => rfl
    | unknownKind _ h' _ => exact absurd h h'
  | unknownKind hpos hnew _ =>
    cases h' with
    | negativeId h' => exact absurd h' (Int.not_lt.mpr hpos)
    | duplicateId _ h' => exact absurd h' hnew
    | unknownKind _ _ _ => rfl

theorem kindsOf_eq (h : EntryDefect before s defect) {seen : List Int}
    (hseen : ∀ id, id ∈ seen ↔ id ∈ before.map (·.id)) (rest : List DeclarationEntry) :
    kindsOf seen (s :: rest) = .error defect := by
  cases h with
  | negativeId h => rw [kindsOf, if_pos h]
  | duplicateId hpos h => rw [kindsOf, if_neg (Int.not_lt.mpr hpos), if_pos ((hseen _).mpr h)]
  | unknownKind hpos hnew h =>
    rw [kindsOf, if_neg (Int.not_lt.mpr hpos), if_neg fun hs => hnew ((hseen _).mp hs), h]

end EntryDefect

/-- A declaration fits behind others or has a defect there. -/
theorem entriesFit_or_entryDefect {before : List DeclarationEntry} (h : EntriesFit before)
    (s : DeclarationEntry) :
    EntriesFit (before ++ [s]) ∨ ∃ defect, EntryDefect before s defect := by
  rw [entriesFit_concat]
  by_cases hneg : s.id < 0
  · exact Or.inr ⟨_, .negativeId hneg⟩
  · have hpos := Int.not_lt.mp hneg
    by_cases hold : s.id ∈ before.map (·.id)
    · exact Or.inr ⟨_, .duplicateId hpos hold⟩
    · cases hkind : Kind.ofName? s.kind with
      | none => exact Or.inr ⟨_, .unknownKind hpos hold hkind⟩
      | some kind => exact Or.inl ⟨h, hpos, hold, rfl⟩

/-- Behind declarations that fit, the first one that does not is reported. -/
theorem kindsOf_eq_error_iff {seen : List Int} {done rest : List DeclarationEntry} {defect : Defect}
    (hseen : ∀ id, id ∈ seen ↔ id ∈ done.map (·.id)) (h : EntriesFit done) :
    kindsOf seen rest = .error defect ↔ ∃ before s after, rest = before ++ s :: after ∧
      EntriesFit (done ++ before) ∧ EntryDefect (done ++ before) s defect := by
  induction rest generalizing seen done with
  | nil => simp [kindsOf]
  | cons s rest ih =>
    rcases entriesFit_or_entryDefect h s with hfit | ⟨found, hfound⟩
    · obtain ⟨-, hpos, hnew, hkind⟩ := entriesFit_concat.mp hfit
      obtain ⟨kind, hkind⟩ := Option.isSome_iff_exists.mp hkind
      have hstep : kindsOf seen (s :: rest) = .error defect ↔
          kindsOf (s.id :: seen) rest = .error defect := by
        rw [kindsOf, if_neg (Int.not_lt.mpr hpos), if_neg fun hs => hnew ((hseen _).mp hs), hkind]
        cases kindsOf (s.id :: seen) rest <;> simp [Except.map]
      have hmore : ∀ id, id ∈ s.id :: seen ↔ id ∈ (done ++ [s]).map (·.id) := by
        simp [hseen, or_comm]
      rw [hstep, ih hmore hfit]
      constructor
      · rintro ⟨before, t, after, rfl, hbefore, ht⟩
        rw [List.append_assoc] at hbefore ht
        exact ⟨s :: before, t, after, rfl, hbefore, ht⟩
      · rintro ⟨before, t, after, hrest, hbefore, ht⟩
        cases before with
        | nil =>
          obtain ⟨rfl, rfl⟩ := List.cons.inj hrest
          rw [List.append_nil] at ht
          exact absurd hfit ht.not_entriesFit
        | cons u before =>
          obtain ⟨rfl, rfl⟩ := List.cons.inj hrest
          refine ⟨before, t, after, rfl, ?_, ?_⟩
          · rwa [List.append_assoc]
          · rwa [List.append_assoc]
    · rw [hfound.kindsOf_eq hseen]
      constructor
      · intro he
        obtain rfl := Except.error.inj he
        exact ⟨[], s, rest, rfl, by simpa using h, by simpa using hfound⟩
      · rintro ⟨before, t, after, hrest, hbefore, ht⟩
        cases before with
        | nil =>
          obtain ⟨rfl, rfl⟩ := List.cons.inj hrest
          rw [List.append_nil] at ht
          rw [hfound.unique ht]
        | cons u before =>
          obtain ⟨rfl, rfl⟩ := List.cons.inj hrest
          rw [← List.singleton_append, ← List.append_assoc] at hbefore
          exact absurd hbefore.of_append hfound.not_entriesFit

theorem kindsOf_nil_eq_error_iff {all : List DeclarationEntry} {defect : Defect} :
    kindsOf [] all = .error defect ↔ ∃ before s after, all = before ++ s :: after ∧
      EntriesFit before ∧ EntryDefect before s defect := by
  have hseen : ∀ id : Int, id ∈ [] ↔ id ∈ ([] : List DeclarationEntry).map (·.id) := by simp
  exact kindsOf_eq_error_iff hseen entriesFit_nil

theorem exists_kindsOf_iff {all : List DeclarationEntry} :
    (∃ kinds, kindsOf [] all = .ok kinds) ↔ EntriesFit all := by
  constructor
  · rintro ⟨kinds, h⟩
    obtain ⟨hkinds, hids, hdistinct⟩ := kindsOf_eq_ok h
    refine ⟨fun s hs => (hids s hs).1, hdistinct, fun s hs => ?_⟩
    have hmem := List.mem_map_of_mem (f := fun s => Kind.ofName? s.kind) hs
    rw [hkinds] at hmem
    obtain ⟨kind, -, hkind⟩ := List.mem_map.mp hmem
    exact Option.isSome_iff_exists.mpr ⟨kind, hkind.symm⟩
  · intro h
    cases hk : kindsOf [] all with
    | ok kinds => exact ⟨kinds, rfl⟩
    | error defect =>
      obtain ⟨before, s, after, rfl, -, hs⟩ := kindsOf_nil_eq_error_iff.mp hk
      rw [← List.singleton_append, ← List.append_assoc] at h
      exact absurd h.of_append hs.not_entriesFit

/-! ## Parents -/

theorem firstDefect_eq_error_iff {test : DeclarationEntry → Option Defect}
    {all : List DeclarationEntry} {defect : Defect} :
    firstDefect test all = .error defect ↔ ∃ before s after, all = before ++ s :: after ∧
      test s = some defect ∧ ∀ e ∈ before, test e = none := by
  rw [← List.findSome?_eq_some_iff, firstDefect]
  cases all.findSome? test <;> simp

theorem firstDefect_eq_ok_iff {test : DeclarationEntry → Option Defect}
    {all : List DeclarationEntry} :
    firstDefect test all = .ok () ↔ ∀ s ∈ all, test s = none := by
  rw [← List.findSome?_eq_none_iff, firstDefect]
  cases all.findSome? test <;> simp

theorem parentDefect?_eq_some_iff {all : List DeclarationEntry} {s : DeclarationEntry}
    {defect : Defect} : parentDefect? all s = some defect ↔ ParentDefect all s defect := by
  constructor
  · intro h
    unfold parentDefect? at h
    split at h
    · cases h
    · next parent hparent =>
      split at h
      · next hown =>
        obtain rfl := Option.some.inj h
        exact .ownParent (hown ▸ hparent)
      · next hother =>
        split at h
        · cases h
        · next hunknown =>
          obtain rfl := Option.some.inj h
          exact .unknownParent hparent hother (by simpa using hunknown)
  · intro h
    cases h with
    | ownParent h => simp [parentDefect?, h]
    | unknownParent h hother hunknown =>
      simpa [parentDefect?, h, hother] using hunknown

theorem parentDefect?_eq_none_iff {all : List DeclarationEntry} {s : DeclarationEntry} :
    parentDefect? all s = none ↔
      ∀ parent, s.parent = some parent → parent ≠ s.id ∧ parent ∈ all.map (·.id) := by
  unfold parentDefect?
  cases hparent : s.parent with
  | none => simp
  | some parent =>
    by_cases hown : parent = s.id
    · simp [hown]
    · simp [hown]

/-! ## Cycles -/

section Cycles

variable {all : List DeclarationEntry}

theorem parentOf_iff (h : EntriesFit all) {id parent : Int} :
    ParentOf all id parent ↔ parentId? all id = some parent := by
  constructor
  · rintro ⟨s, hs, rfl, hparent⟩
    cases hfind : all.find? (·.id == s.id) with
    | none => simpa using List.find?_eq_none.mp hfind s hs
    | some t =>
      -- The declaration that is found has the same id and so is the same.
      have hid : t.id = s.id := by simpa using List.find?_some hfind
      obtain rfl := List.inj_on_of_nodup_map h.distinct (List.mem_of_find?_eq_some hfind) hs hid
      rw [parentId?, hfind, Option.bind_some, hparent]
  · intro hp
    obtain ⟨s, hfind, hparent⟩ := Option.bind_eq_some_iff.mp hp
    exact ⟨s, List.mem_of_find?_eq_some hfind, by simpa using List.find?_some hfind, hparent⟩

theorem ParentOf.mem {id parent : Int} (h : ParentOf all id parent) : id ∈ all.map (·.id) := by
  obtain ⟨s, hs, rfl, -⟩ := h
  exact List.mem_map_of_mem hs

/-- Who lies below a member of a cycle or in it does so with its parent. -/
theorem loops_iff_of_parentOf (h : EntriesFit all) {id parent : Int} (hp : ParentOf all id parent) :
    Loops all id ↔ Loops all parent := by
  have honly : ∀ {next}, ParentOf all id next → next = parent := fun hnext =>
    Option.some.inj (((parentOf_iff h).mp hnext).symm.trans ((parentOf_iff h).mp hp))
  constructor
  · rintro ⟨member, hreach, hcycle⟩
    rcases hreach.cases_head with rfl | ⟨next, hnext, hreach⟩
    · -- The declaration is a member itself, and so is its parent.
      obtain ⟨next, hnext, hback⟩ := TransGen.head'_iff.mp hcycle
      obtain rfl := honly hnext
      exact ⟨next, .refl, TransGen.tail' hback hp⟩
    · obtain rfl := honly hnext
      exact ⟨member, hreach, hcycle⟩
  · rintro ⟨member, hreach, hcycle⟩
    exact ⟨member, hreach.head hp, hcycle⟩

theorem not_loops_of_parentId?_eq_none (h : EntriesFit all) {id : Int}
    (hnone : parentId? all id = none) : ¬ Loops all id := by
  have hlast : ∀ next, ¬ ParentOf all id next := by
    intro next hnext
    rw [parentOf_iff h, hnone] at hnext
    cases hnext
  rintro ⟨member, hreach, hcycle⟩
  rcases hreach.cases_head with rfl | ⟨next, hnext, -⟩
  · obtain ⟨next, hnext, -⟩ := TransGen.head'_iff.mp hcycle
    exact hlast next hnext
  · exact hlast next hnext

theorem endsWithin_zero {id parent : Int} (hp : parentId? all id = some parent) :
    endsWithin all 0 id = false := by
  rw [endsWithin, hp]

theorem endsWithin_succ {id parent : Int} (hp : parentId? all id = some parent) (steps : Nat) :
    endsWithin all (steps + 1) id = endsWithin all steps parent := by
  rw [endsWithin, hp]

/-- Parents that come to an end do not lead into a cycle. -/
theorem not_loops_of_endsWithin (h : EntriesFit all) {steps : Nat} {id : Int}
    (hends : endsWithin all steps id = true) : ¬ Loops all id := by
  induction steps generalizing id with
  | zero =>
    cases hp : parentId? all id with
    | none => exact not_loops_of_parentId?_eq_none h hp
    | some parent =>
      rw [endsWithin_zero hp] at hends
      cases hends
  | succ steps ih =>
    cases hp : parentId? all id with
    | none => exact not_loops_of_parentId?_eq_none h hp
    | some parent =>
      rw [endsWithin_succ hp] at hends
      rw [loops_iff_of_parentOf h ((parentOf_iff h).mpr hp)]
      exact ih hends

/--
A walk that does not end, though it may still go to every declaration that it has not met, leads
into a cycle.
-/
theorem loops_of_not_endsWithin (h : EntriesFit all) {steps : Nat} {id : Int}
    (hends : endsWithin all steps id = false) {met : List Int} (hnodup : met.Nodup)
    (hdescribed : met ⊆ all.map (·.id)) (hmet : ∀ other ∈ met, TransGen (ParentOf all) other id)
    (hlength : all.length ≤ steps + met.length) : Loops all id := by
  induction steps generalizing met id with
  | zero =>
    cases hp : parentId? all id with
    | none => rw [endsWithin, hp] at hends; cases hends
    | some parent =>
      have hparent := (parentOf_iff h).mpr hp
      by_cases hagain : id ∈ met
      · exact ⟨id, .refl, hmet id hagain⟩
      · -- No place is left for another declaration.
        have hle := (List.nodup_cons.mpr ⟨hagain, hnodup⟩).length_le_of_subset
          (List.cons_subset.mpr ⟨hparent.mem, hdescribed⟩)
        rw [List.length_cons, List.length_map] at hle
        omega
  | succ steps ih =>
    cases hp : parentId? all id with
    | none => rw [endsWithin, hp] at hends; cases hends
    | some parent =>
      have hparent := (parentOf_iff h).mpr hp
      rw [endsWithin_succ hp] at hends
      by_cases hagain : id ∈ met
      · exact ⟨id, .refl, hmet id hagain⟩
      · rw [loops_iff_of_parentOf h hparent]
        have hmet' : ∀ other ∈ id :: met, TransGen (ParentOf all) other parent := by
          intro other hother
          rcases List.mem_cons.mp hother with rfl | hother
          · exact .single hparent
          · exact (hmet other hother).tail hparent
        exact ih hends (List.nodup_cons.mpr ⟨hagain, hnodup⟩)
          (List.cons_subset.mpr ⟨hparent.mem, hdescribed⟩) hmet' (by rw [List.length_cons]; omega)

/-- As many steps as there are declarations tell whether parents lead into a cycle. -/
theorem endsWithin_length_iff (h : EntriesFit all) (id : Int) :
    endsWithin all all.length id = true ↔ ¬ Loops all id := by
  refine ⟨not_loops_of_endsWithin h, fun hloops => ?_⟩
  by_contra hends
  exact hloops (loops_of_not_endsWithin h (Bool.not_eq_true _ ▸ hends) List.nodup_nil
    (List.nil_subset _) (by simp) (by simp))

theorem cycleDefect?_eq_none_iff (h : EntriesFit all) {s : DeclarationEntry} :
    cycleDefect? all s = none ↔ ¬ Loops all s.id := by
  rw [← endsWithin_length_iff h, cycleDefect?]
  split <;> simp_all

theorem cycleDefect?_eq_some_iff (h : EntriesFit all) {s : DeclarationEntry} {defect : Defect} :
    cycleDefect? all s = some defect ↔ Loops all s.id ∧ defect = .parentCycle s.name s.id := by
  rw [cycleDefect?]
  split
  · next hends => simp [(endsWithin_length_iff h s.id).mp hends]
  · next hends =>
    have hloops : Loops all s.id := by
      by_contra hnot
      exact hends ((endsWithin_length_iff h s.id).mpr hnot)
    simp [hloops, eq_comm]

theorem acyclic_iff : (∀ id, ¬ TransGen (ParentOf all) id id) ↔ ∀ s ∈ all, ¬ Loops all s.id := by
  constructor
  · rintro hacyclic s - ⟨member, -, hcycle⟩
    exact hacyclic member hcycle
  · intro hnone id hcycle
    obtain ⟨parent, hparent, -⟩ := TransGen.head'_iff.mp hcycle
    obtain ⟨s, hs, rfl, -⟩ := hparent
    exact hnone s hs ⟨s.id, .refl, hcycle⟩

end Cycles

/-! ## The check -/

section Check

variable {all : List DeclarationEntry}

theorem exists_check_iff : (∃ kinds, check all = .ok kinds) ↔ IsForest all := by
  constructor
  · rintro ⟨kinds, h⟩
    obtain ⟨hkinds, hparents, hcycles⟩ := check_eq_ok h
    have hentries := exists_kindsOf_iff.mp ⟨kinds, hkinds⟩
    rw [firstDefect_eq_ok_iff] at hparents hcycles
    refine ⟨hentries, fun s hs => parentDefect?_eq_none_iff.mp (hparents s hs), ?_⟩
    exact acyclic_iff.mpr fun s hs => (cycleDefect?_eq_none_iff hentries).mp (hcycles s hs)
  · rintro ⟨hentries, hparents, hacyclic⟩
    obtain ⟨kinds, hkinds⟩ := exists_kindsOf_iff.mpr hentries
    have hp : firstDefect (parentDefect? all) all = .ok () :=
      firstDefect_eq_ok_iff.mpr fun s hs => parentDefect?_eq_none_iff.mpr (hparents s hs)
    have hc : firstDefect (cycleDefect? all) all = .ok () := firstDefect_eq_ok_iff.mpr fun s hs =>
      (cycleDefect?_eq_none_iff hentries).mpr (acyclic_iff.mp hacyclic s hs)
    exact ⟨kinds, by simp [check, hkinds, hp, hc]; rfl⟩

/-- The check reports the defect of the first phase that fails. -/
theorem check_eq_error_iff {defect : Defect} : check all = .error defect ↔
    kindsOf [] all = .error defect ∨ ((∃ kinds, kindsOf [] all = .ok kinds) ∧
      (firstDefect (parentDefect? all) all = .error defect ∨
        firstDefect (parentDefect? all) all = .ok () ∧
          firstDefect (cycleDefect? all) all = .error defect)) := by
  rw [check]
  cases kindsOf [] all with
  | error found => simp [bind, Except.bind]
  | ok kinds =>
    cases firstDefect (parentDefect? all) all with
    | error found => simp [bind, Except.bind]
    | ok =>
      cases firstDefect (cycleDefect? all) all with
      | error found => simp [bind, Except.bind]
      | ok => simp [bind, Except.bind, pure, Except.pure]

theorem check_eq_error_iff_firstDefect {defect : Defect} :
    check all = .error defect ↔ FirstDefect all defect := by
  rw [check_eq_error_iff, kindsOf_nil_eq_error_iff, exists_kindsOf_iff, firstDefect_eq_error_iff,
    firstDefect_eq_error_iff, firstDefect_eq_ok_iff]
  simp only [parentDefect?_eq_some_iff, parentDefect?_eq_none_iff]
  constructor
  · rintro (⟨before, s, after, hall, hbefore, hs⟩ | ⟨hentries, hlater⟩)
    · exact .entry hall hbefore hs
    · rcases hlater with ⟨before, s, after, hall, hs, hbefore⟩ | ⟨hparents, hcycle⟩
      · exact .parent hentries hall hbefore hs
      · obtain ⟨before, s, after, hall, hs, hbefore⟩ := hcycle
        obtain ⟨hloops, rfl⟩ := (cycleDefect?_eq_some_iff hentries).mp hs
        exact .cycle hentries hparents hall
          (fun e he => (cycleDefect?_eq_none_iff hentries).mp (hbefore e he)) hloops
  · intro h
    cases h with
    | entry hall hbefore hs => exact Or.inl ⟨_, _, _, hall, hbefore, hs⟩
    | parent hentries hall hbefore hs =>
      exact Or.inr ⟨hentries, Or.inl ⟨_, _, _, hall, hs, hbefore⟩⟩
    | cycle hentries hparents hall hbefore hloops =>
      refine Or.inr ⟨hentries, Or.inr ⟨hparents, _, _, _, hall, ?_, fun e he => ?_⟩⟩
      · exact (cycleDefect?_eq_some_iff hentries).mpr ⟨hloops, rfl⟩
      · exact (cycleDefect?_eq_none_iff hentries).mpr (hbefore e he)

end Check

end Lineage.Forest
