import Lineage.Proofs.Forest
import Lineage.Proofs.ShortNumerals

/-!
# Acceptance

Which descriptions become a project of the graph, and how the others are refused. What has an id or
a parent too long to be written may fail in a way of its own. A text has none: it is refused for
what it describes, save for one fault of the reader, an integer of too many digits.
-/

namespace Lineage

/-! ## Descriptions -/

namespace Forest

variable {all : List DeclarationEntry} {defect other : Defect}

theorem IsForest.not_firstDefect (h : IsForest all) : ¬ FirstDefect all defect := by
  obtain ⟨kinds, hc⟩ := exists_check_iff.mpr h
  intro hdefect
  cases hc.symm.trans (check_eq_error_iff_firstDefect.mpr hdefect)

theorem FirstDefect.unique (h : FirstDefect all defect) (h' : FirstDefect all other) :
    defect = other := by
  rw [← check_eq_error_iff_firstDefect] at h h'
  exact Except.error.inj (h.symm.trans h')

end Forest

namespace Graph

theorem adopt_of_check_eq_error {spec : Description} {defect : Defect}
    (hc : Forest.check spec.declarations = .error defect) (g₀ : Graph) (source : String) :
    g₀.adopt source spec = .error (defect.fault source) := by
  rw [adopt, hc]

/-- A forest is adopted, unless an id of it cannot be written; anything else has a first defect. -/
theorem adopt_cases (g₀ : Graph) (source : String) (spec : Description) :
    (Forest.IsForest spec.declarations ∧ (∀ s ∈ spec.declarations, Text.Writable s.id) ∧
      ∃ g, g₀.adopt source spec = .ok g) ∨
    (Forest.IsForest spec.declarations ∧ (∃ s ∈ spec.declarations, ¬ Text.Writable s.id) ∧
      g₀.adopt source spec = .error .unwritable) ∨
    ∃ defect, Forest.FirstDefect spec.declarations defect ∧
      g₀.adopt source spec = .error (defect.fault source) := by
  cases hc : Forest.check spec.declarations with
  | ok kinds =>
    have hforest := Forest.exists_check_iff.mp ⟨kinds, hc⟩
    rcases adopt_of_check_eq_ok hc g₀ source with ⟨hall, hok⟩ | ⟨hlong, herror⟩
    · exact .inl ⟨hforest, hall, hok⟩
    · exact .inr (.inl ⟨hforest, hlong, herror⟩)
  | error defect =>
    exact .inr (.inr ⟨defect, Forest.check_eq_error_iff_firstDefect.mp hc,
      adopt_of_check_eq_error hc g₀ source⟩)

/--
A description is adopted exactly if it describes a forest and all its ids can be written. Any other
one is refused for the first defect of the first phase that fails, unless the number in the wording
of the defect cannot be written; that, or an id of a forest that cannot be written, is a fault of
its own.
-/
theorem adopt_forests (g₀ : Graph) (source : String) (spec : Description) :
    ((∃ g, g₀.adopt source spec = .ok g) ↔
      Forest.IsForest spec.declarations ∧ ∀ s ∈ spec.declarations, Text.Writable s.id) ∧
    ∀ fault, g₀.adopt source spec = .error fault ↔
      (∃ defect, Forest.FirstDefect spec.declarations defect ∧
        fault = if defect.Writable then .load source (.defect defect) else .unwritable) ∨
      (Forest.IsForest spec.declarations ∧ (∃ s ∈ spec.declarations, ¬ Text.Writable s.id) ∧
        fault = .unwritable) := by
  rcases adopt_cases g₀ source spec with
    ⟨hforest, hall, g, hg⟩ | ⟨hforest, ⟨s, hs, hlong⟩, herror⟩ | ⟨defect, hdefect, herror⟩
  · refine ⟨⟨fun _ => ⟨hforest, hall⟩, fun _ => ⟨g, hg⟩⟩, fun fault => ?_⟩
    rw [hg]
    constructor
    · exact nofun
    · rintro (⟨defect, h, -⟩ | ⟨-, ⟨s, hs, hlong⟩, -⟩)
      · exact absurd h hforest.not_firstDefect
      · exact absurd (hall s hs) hlong
  · rw [herror]
    refine ⟨⟨nofun, fun h => absurd (h.2 s hs) hlong⟩, fun fault => ?_⟩
    constructor
    · rintro ⟨⟩
      exact .inr ⟨hforest, ⟨s, hs, hlong⟩, rfl⟩
    · rintro (⟨defect, h, -⟩ | ⟨-, -, rfl⟩)
      · exact absurd h hforest.not_firstDefect
      · rfl
  · rw [herror]
    refine ⟨⟨nofun, fun h => absurd hdefect h.1.not_firstDefect⟩, fun fault => ?_⟩
    constructor
    · rintro ⟨⟩
      exact .inl ⟨defect, hdefect, rfl⟩
    · rintro (⟨other, h, rfl⟩ | ⟨h, -⟩)
      · obtain rfl := hdefect.unique h
        rfl
      · exact absurd hdefect h.not_firstDefect

/-- A description is refused for a defect if this counts and its number can be written. -/
theorem adopt_eq_defect_iff {g₀ : Graph} {source : String} {spec : Description} {defect : Defect} :
    g₀.adopt source spec = .error (.load source (.defect defect)) ↔
      defect.Writable ∧ Forest.FirstDefect spec.declarations defect := by
  rcases adopt_cases g₀ source spec with
    ⟨hforest, -, g, hg⟩ | ⟨hforest, -, herror⟩ | ⟨other, hother, herror⟩
  · rw [hg]
    exact ⟨nofun, fun h => absurd h.2 hforest.not_firstDefect⟩
  · rw [herror]
    exact ⟨nofun, fun h => absurd h.2 hforest.not_firstDefect⟩
  · rw [herror, Defect.fault]
    by_cases hwritable : other.Writable
    · rw [if_pos hwritable]
      constructor
      · rintro ⟨⟩
        exact ⟨hwritable, hother⟩
      · rintro ⟨-, h⟩
        rw [hother.unique h]
    · rw [if_neg hwritable]
      exact ⟨nofun, fun ⟨h, hdefect⟩ => absurd (hother.unique hdefect ▸ h) hwritable⟩

def classesWithIds (ids : List Int) : Description where
  name := "classes"
  declarations := ids.map fun id =>
    { id := id, name := "A", kind := "class", symbol := none, parent := none,
      type := none, inheritedFrom := none, overwrites := none,
      extendedTypes := [], implementedTypes := [], decorators := [] }

/--
A class whose id cannot be written is a forest, but is not adopted; a second one of the same id is a
defect that cannot be told.
-/
theorem adopt_longIds :
    let id : Int := (10 ^ Text.maxDigits : Nat)
    (Forest.IsForest (classesWithIds [id]).declarations ∧
      Graph.empty.adopt "<memory>" (classesWithIds [id]) = .error .unwritable) ∧
    (Forest.FirstDefect (classesWithIds [id, id]).declarations (.duplicateId id) ∧
      Graph.empty.adopt "<memory>" (classesWithIds [id, id]) = .error .unwritable) := by
  intro id
  have hlong : ¬ Text.Writable id := by decide +kernel
  have hc : Forest.check (classesWithIds [id]).declarations = .ok _ :=
    eq_ok_getD (by decide +kernel) []
  have hd : Forest.check (classesWithIds [id, id]).declarations = .error (.duplicateId id) := by
    decide +kernel
  refine ⟨⟨Forest.exists_check_iff.mp ⟨_, hc⟩, ?_⟩,
    Forest.check_eq_error_iff_firstDefect.mp hd, ?_⟩
  · rcases adopt_of_check_eq_ok hc Graph.empty "<memory>" with ⟨hall, -⟩ | ⟨-, herror⟩
    · exact absurd (hall _ List.mem_cons_self) hlong
    · exact herror
  · rw [adopt_of_check_eq_error hd]
    exact congrArg Except.error (if_neg fun h => hlong (h id rfl))

/-! ## Documents -/

/-- The number in the wording of a defect is one that declarations are described with. -/
theorem writable_of_firstDefect {all : List DeclarationEntry} {defect : Defect}
    (h : Forest.FirstDefect all defect) (hall : ∀ s ∈ all, s.Numbered) : defect.Writable := by
  have hmem : ∀ {before after : List DeclarationEntry} {s : DeclarationEntry},
      all = before ++ s :: after → s.Numbered := by
    rintro before after s rfl
    exact hall s (List.mem_append_right _ List.mem_cons_self)
  cases h with
  | entry hsplit _ hs =>
    cases hs with
    | negativeId => exact nofun
    | duplicateId => exact fun n hn => Option.some.inj hn ▸ (hmem hsplit).id
    | unknownKind => exact nofun
  | parent _ hsplit _ hs =>
    cases hs with
    | ownParent => exact nofun
    | unknownParent hparent => exact fun n hn => Option.some.inj hn ▸ (hmem hsplit).parent _ hparent
  | cycle _ _ hsplit => exact fun n hn => Option.some.inj hn ▸ (hmem hsplit).id

/-- A description of numbers that can be written is only refused as a description. -/
theorem adopt_eq_error {g₀ : Graph} {source : String} {spec : Description} {fault : Fault}
    (hall : ∀ s ∈ spec.declarations, s.Numbered) (h : g₀.adopt source spec = .error fault) :
    ∃ cause, fault = .load source cause := by
  rcases adopt_cases g₀ source spec with
    ⟨-, -, g, hg⟩ | ⟨-, ⟨s, hs, hlong⟩, -⟩ | ⟨defect, hdefect, herror⟩
  · cases hg.symm.trans h
  · exact absurd (hall s hs).id hlong
  · cases herror.symm.trans h
    exact ⟨_, if_pos (writable_of_firstDefect hdefect hall)⟩

theorem loadJson_eq_error {g₀ : Graph} {source : String} {v : Json} {fault : Fault}
    (hv : v.isWritable) (h : g₀.loadJson source v = .error fault) :
    ∃ cause, fault = .load source cause := by
  rw [loadJson.eq_def] at h
  split at h
  · split at h
    · next hspec => exact adopt_eq_error (Schema.numbered_of_project hv hspec) h
    · cases h
      exact ⟨_, rfl⟩
  · cases h
    exact ⟨_, rfl⟩

/--
A text describes a project, or is refused as a description, unless the reader gives up on an integer
of too many digits; such an integer then stands in the text.
-/
theorem loadText_outcome (g₀ : Graph) (source text : String) :
    (∃ g, g₀.loadText source text = .ok g) ∨
      (∃ cause, g₀.loadText source text = .error (.load source cause)) ∨
      ∃ digits, g₀.loadText source text = .error (.numeralTooLong digits) ∧
        Json.LongRun digits text.toList := by
  cases hr : Json.read text with
  | ok v =>
    have ht : g₀.loadText source text = g₀.loadJson source v := by rw [loadText, hr]
    rw [ht]
    cases hv : g₀.loadJson source v with
    | ok g => exact .inl ⟨g, rfl⟩
    | error fault =>
      obtain ⟨cause, rfl⟩ := loadJson_eq_error (Json.isWritable_of_read hr) hv
      exact .inr (.inl ⟨cause, rfl⟩)
  | error fault =>
    cases fault with
    | malformed complaint position => exact .inr (.inl ⟨_, by rw [loadText, hr]⟩)
    | numeralTooLong digits =>
      exact .inr (.inr ⟨digits, by rw [loadText, hr], Json.longRun_of_read hr⟩)

/-- The fault of the reader passes through: a text of 4301 ones is not refused as a description. -/
theorem loadText_ones :
    Graph.empty.loadText "<memory>" (String.ofList (List.replicate 4301 '1')) =
      .error (.numeralTooLong 4301) := by
  have hr : Json.read (String.ofList (List.replicate 4301 '1')) =
      .error (.numeralTooLong (List.replicate 4301 '1').length) := by
    apply Json.read_digits
    · intro c hc
      rw [List.eq_of_mem_replicate hc]
      decide
    · simp
    · rw [List.length_replicate]
      decide +kernel
  rw [List.length_replicate] at hr
  rw [loadText, hr]

end Graph

end Lineage
