import Lineage.Proofs.Adoption
import Mathlib.Data.List.Nodup

/-!
# Loaded projects

A project is loaded when it stands as it was described and no run has touched it. Each of its
references has a link of its own, and no name leads out of it.
-/

namespace Lineage

/-- A scope is the project or one of the given declarations. -/
def Scope.Within (project : ProjectKey) (keys : List DeclKey) (scope : Scope) : Prop :=
  scope = .project project ∨ ∃ key ∈ keys, scope = .declaration key

namespace Graph

/-! ## Names of children -/

theorem firstNamed_eq_find? (g : Graph) (name : String) (keys : List DeclKey) :
    g.firstNamed name keys =
      keys.find? fun key => decide (g.scopeName? (.declaration key) = some name) := by
  rw [firstNamed]
  congr 1
  funext key
  cases hd : g.declaration? key <;> simp [scopeName?, hd, beq_eq_decide]

/-! ## Closed sets of declarations -/

/-- Declarations that are closed under what encloses them and what they enclose. -/
structure Encloses (g : Graph) (project : ProjectKey) (keys : List DeclKey) : Prop where
  children : ∀ scope, scope.Within project keys → ∀ key ∈ g.childrenOf scope, key ∈ keys
  parent : ∀ key ∈ keys, ∀ scope, g.parentOf? (.declaration key) = some scope →
    scope.Within project keys

namespace Encloses

variable {g : Graph} {project : ProjectKey} {keys : List DeclKey}

theorem mem_of_below? (h : Encloses g project keys) {scope : Scope}
    (hs : scope.Within project keys) {parts : List String} {key : DeclKey}
    (hk : g.below? scope parts = some key) : key ∈ keys := by
  induction parts generalizing scope with
  | nil => simp [below?] at hk
  | cons name rest ih =>
    cases rest with
    | nil => exact h.children scope hs key (List.mem_of_find?_eq_some hk)
    | cons next rest =>
      obtain ⟨child, hchild, hk⟩ := Option.bind_eq_some_iff.mp hk
      have hmem := h.children scope hs child (List.mem_of_find?_eq_some hchild)
      exact ih (Or.inr ⟨child, hmem, rfl⟩) hk

theorem within_of_mem_scopesWithin (h : Encloses g project keys) {steps : Nat} {scope other : Scope}
    (hs : scope.Within project keys) (ho : other ∈ g.scopesWithin steps scope) :
    other.Within project keys := by
  induction steps generalizing scope with
  | zero =>
    obtain rfl := List.mem_singleton.mp ho
    exact hs
  | succ steps ih =>
    rcases List.mem_cons.mp ho with rfl | ho
    · exact hs
    · cases hp : g.parentOf? scope with
      | none => simp [hp] at ho
      | some parent =>
        rw [hp] at ho
        refine ih ?_ ho
        rcases hs with rfl | ⟨key, hkey, rfl⟩
        · simp [parentOf?] at hp
        · exact h.parent key hkey parent hp

/-- A name that is looked up from within leads nowhere else. -/
theorem mem_of_find? (h : Encloses g project keys) {scope : Scope}
    (hs : scope.Within project keys) {parts : List String} {key : DeclKey}
    (hk : g.find? scope parts = some key) : key ∈ keys := by
  obtain ⟨other, ho, hk⟩ := List.exists_of_findSome?_eq_some hk
  exact h.mem_of_below? (h.within_of_mem_scopesWithin hs ho) hk

end Encloses

/-! ## Loaded projects -/

/-- The references of some declarations, each with the declaration that mentions it. -/
def mentions (g : Graph) (keys : List DeclKey) : List (DeclKey × Reference) :=
  keys.flatMap fun key => (g.referencesAt key).map fun r => (key, r)

theorem mem_mentions {g : Graph} {keys : List DeclKey} {key : DeclKey} {r : Reference} :
    (key, r) ∈ g.mentions keys ↔ key ∈ keys ∧ r ∈ g.referencesAt key := by
  simp only [mentions, List.mem_flatMap, List.mem_map, Prod.mk.injEq]
  constructor
  · rintro ⟨k, hk, q, hq, rfl, rfl⟩
    exact ⟨hk, hq⟩
  · rintro ⟨hk, hr⟩
    exact ⟨key, hk, r, hr, rfl, rfl⟩

theorem mentions_singleton (g : Graph) (key : DeclKey) :
    g.mentions [key] = (g.referencesAt key).map fun r => (key, r) :=
  List.flatMap_singleton _ _

theorem mentions_append (g : Graph) (keys more : List DeclKey) :
    g.mentions (keys ++ more) = g.mentions keys ++ g.mentions more :=
  List.flatMap_append

theorem mentions_subset {g : Graph} {keys more : List DeclKey} (h : ∀ key ∈ keys, key ∈ more) :
    g.mentions keys ⊆ g.mentions more := by
  intro m hm
  obtain ⟨hkey, hr⟩ := mem_mentions.mp hm
  exact mem_mentions.mpr ⟨h m.1 hkey, hr⟩

/-- Links agree if those of mentioned references do and those of no reference do. -/
theorem links_eq_of_mentions {g₁ g₂ : Graph} (g : Graph) (keys : List DeclKey)
    (hheld : ∀ key ∈ keys, ∀ r ∈ g.referencesAt key, ∀ link, r.link? = some link →
      g₁.links[link]? = g₂.links[link]?)
    (hrest : ∀ link, (∀ m ∈ g.mentions keys, m.2.link? ≠ some link) →
      g₁.links[link]? = g₂.links[link]?) : g₁.links = g₂.links := by
  apply Array.ext_getElem?
  intro link
  by_cases hmem : ∃ m ∈ g.mentions keys, m.2.link? = some link
  · obtain ⟨m, hm, hlink⟩ := hmem
    obtain ⟨hkey, hr⟩ := mem_mentions.mp hm
    exact hheld m.1 hkey m.2 hr link hlink
  · exact hrest link fun m hm he => hmem ⟨m, hm, he⟩

/-- A project that stands as it was loaded. -/
structure Loaded (g : Graph) (project : ProjectKey) : Prop where
  nodup : (g.declarationsOf project).Nodup
  declaration : ∀ key ∈ g.declarationsOf project, ∃ d, g.declaration? key = some d ∧ d.bare = d
  /-- Every reference has an empty link. -/
  unlinked : ∀ key ∈ g.declarationsOf project, ∀ r ∈ g.referencesAt key,
    ∃ link, r.link? = some link ∧ g.links[link]? = some none
  /-- No two references share a link. -/
  apart : ((g.mentions (g.declarationsOf project)).map fun m => m.2.link?).Nodup
  /-- What is named is a declaration of the project. -/
  closed : ∀ key ∈ g.declarationsOf project, ∀ r ∈ g.referencesAt key, ∀ target,
    g.named? project (.declaration key) r = some target → target ∈ g.declarationsOf project

/-- A declaration has a smaller id than another one. -/
def IdBelow (g : Graph) (key other : DeclKey) : Prop :=
  ∃ d e, g.declaration? key = some d ∧ g.declaration? other = some e ∧ d.id < e.id

theorem IdBelow.alike {g g' : Graph} (h : Alike g g') {key other : DeclKey}
    (hlt : g.IdBelow key other) : g'.IdBelow key other := by
  obtain ⟨d, e, hd, he, hlt⟩ := hlt
  obtain ⟨d', hd', hdbare⟩ := h.exists_declaration hd
  obtain ⟨e', he', hebare⟩ := h.exists_declaration he
  refine ⟨d', e', hd', he', ?_⟩
  rwa [Declaration.eq_of_bare_eq Declaration.id (fun _ => rfl) hdbare,
    Declaration.eq_of_bare_eq Declaration.id (fun _ => rfl) hebare]

theorem IdBelow.asymm {g : Graph} {key other : DeclKey} (h : g.IdBelow key other) :
    ¬ g.IdBelow other key := by
  rintro ⟨e, d, he, hd, hlt⟩
  obtain ⟨d', e', hd', he', hlt'⟩ := h
  obtain rfl := Option.some.inj (hd.symm.trans hd')
  obtain rfl := Option.some.inj (he.symm.trans he')
  omega

/-! ## Adopted projects are loaded -/

namespace Adopted

variable {g₀ g : Graph} {spec : Description}

theorem declarationsOf_perm (h : Adopted g₀ spec g) :
    (g.declarationsOf g₀.projects.size).Perm
      (List.range' g₀.declarations.size spec.declarations.length) := by
  obtain ⟨p, hp, -, hperm, -⟩ := h.project
  have hvalues := hperm.map (·.2)
  rw [List.map_map] at hvalues
  simp only [declarationsOf, hp, Option.map_some, Option.getD_some, Index.values]
  exact hvalues.trans (List.Perm.of_eq (List.zipIdx_map_snd _ _))

theorem mem_declarationsOf (h : Adopted g₀ spec g) {key : Nat} :
    key ∈ g.declarationsOf g₀.projects.size ↔
      ∃ i s, spec.declarations[i]? = some s ∧ key = g₀.declarations.size + i := by
  rw [h.declarationsOf_perm.mem_iff, List.mem_range'_1]
  constructor
  · rintro ⟨hle, hlt⟩
    have hi : key - g₀.declarations.size < spec.declarations.length := by omega
    exact ⟨_, _, List.getElem?_eq_getElem hi, by omega⟩
  · rintro ⟨i, s, hs, rfl⟩
    have hi := (List.getElem?_eq_some_iff.mp hs).1
    omega

theorem byId?_eq (h : Adopted g₀ spec g) {i : Nat} {s : DeclarationEntry}
    (hs : spec.declarations[i]? = some s) :
    g.byId? g₀.projects.size s.id = some (g₀.declarations.size + i) := by
  obtain ⟨p, hp, hascending, hperm, -⟩ := h.project
  have hmem : (s.id, g₀.declarations.size + i) ∈ p.index := by
    refine hperm.mem_iff.mpr (List.mem_map.mpr ⟨(s, g₀.declarations.size + i), ?_, rfl⟩)
    exact List.mk_add_mem_zipIdx_iff_getElem?.mpr hs
  simp [byId?, hp, Index.get?_eq_some_of_mem hascending hmem]

/-- A project holds its declarations in ascending order of their ids. -/
theorem pairwise_idBelow (h : Adopted g₀ spec g) :
    (g.declarationsOf g₀.projects.size).Pairwise g.IdBelow := by
  obtain ⟨p, hp, hascending, hperm, -⟩ := h.project
  have hheld : ∀ e ∈ p.index, ∃ d, g.declaration? e.2 = some d ∧ d.id = e.1 := by
    intro e he
    obtain ⟨⟨s, key⟩, hmem, rfl⟩ := List.mem_map.mp (hperm.mem_iff.mp he)
    obtain ⟨hle, hs⟩ := List.mk_mem_zipIdx_iff_le_and_getElem?_sub.mp hmem
    obtain ⟨d, hd, hid, -⟩ := h.declaration _ s hs
    rw [Nat.add_sub_cancel' hle] at hd
    exact ⟨d, hd, hid⟩
  simp only [declarationsOf, hp, Option.map_some, Option.getD_some, Index.values]
  rw [List.pairwise_map]
  refine hascending.imp_of_mem fun {a b} ha hb hlt => ?_
  obtain ⟨d, hd, hdid⟩ := hheld a ha
  obtain ⟨e, he, heid⟩ := hheld b hb
  exact ⟨d, e, hd, he, by rw [hdid, heid]; exact hlt⟩

/-- A symbol number stands for the last declaration that carries it. -/
theorem bySymbol?_eq (h : Adopted g₀ spec g) (symbol : Int) :
    g.bySymbol? g₀.projects.size symbol =
      (spec.lastCarrying? symbol).bind fun s => g.byId? g₀.projects.size s.id := by
  obtain ⟨p, hp, -, -, hsymbols⟩ := h.project
  simp only [bySymbol?, byId?, hp, Option.bind_eq_bind, Option.bind_some, hsymbols]
  cases spec.lastCarrying? symbol <;> rfl

/-- The children of a scope of the project are those declarations that lie in it. -/
theorem childrenOf_eq (h : Adopted g₀ spec g) {scope : Scope}
    (hscope : scope.Within g₀.projects.size (g.declarationsOf g₀.projects.size)) :
    g.childrenOf scope = (List.range' g₀.declarations.size spec.declarations.length).filter
      fun k => decide (g.parentOf? (.declaration k) = some scope) := by
  refine h.children scope ?_
  rcases hscope with rfl | ⟨k, hk, rfl⟩
  · exact Or.inl rfl
  · obtain ⟨i, s, hs, rfl⟩ := h.mem_declarationsOf.mp hk
    exact Or.inr ⟨i, (List.getElem?_eq_some_iff.mp hs).1, rfl⟩

theorem parentOf?_of_mem_childrenOf (h : Adopted g₀ spec g) {scope : Scope}
    (hscope : scope.Within g₀.projects.size (g.declarationsOf g₀.projects.size)) {key : DeclKey}
    (hkey : key ∈ g.childrenOf scope) : g.parentOf? (.declaration key) = some scope := by
  rw [h.childrenOf_eq hscope] at hkey
  exact of_decide_eq_true (List.mem_filter.mp hkey).2

theorem encloses (h : Adopted g₀ spec g) :
    Encloses g g₀.projects.size (g.declarationsOf g₀.projects.size) where
  children scope hscope key hkey := by
    rw [h.childrenOf_eq hscope] at hkey
    exact h.declarationsOf_perm.mem_iff.mpr (List.mem_of_mem_filter hkey)
  parent key hkey scope hscope := by
    obtain ⟨i, s, hs, rfl⟩ := h.mem_declarationsOf.mp hkey
    rw [h.parent i s hs] at hscope
    obtain rfl := Option.some.inj hscope
    cases hin : s.scopeIn g₀.declarations.size spec.declarations with
    | none => exact Or.inl rfl
    | some scope =>
      obtain ⟨j, hj, rfl⟩ := DeclarationEntry.scopeIn_eq_some hin
      exact Or.inr ⟨_, h.mem_declarationsOf.mpr ⟨j, _, List.getElem?_eq_getElem hj, rfl⟩, rfl⟩

/-- What a reference of the project names belongs to the project. -/
theorem named?_mem (h : Adopted g₀ spec g) {key target : DeclKey}
    (hkey : key ∈ g.declarationsOf g₀.projects.size) {r : Reference}
    (hr : g.named? g₀.projects.size (.declaration key) r = some target) :
    target ∈ g.declarationsOf g₀.projects.size := by
  unfold named? at hr
  split at hr
  · exact h.encloses.mem_of_find? (Or.inr ⟨key, hkey, rfl⟩) hr
  · split at hr
    · cases hr
    · rw [h.bySymbol?_eq] at hr
      obtain ⟨s, hs, hid⟩ := Option.bind_eq_some_iff.mp hr
      have hmem : s ∈ spec.declarations := List.mem_reverse.mp (List.mem_of_find?_eq_some hs)
      obtain ⟨i, hi⟩ := List.getElem?_of_mem hmem
      rw [h.byId?_eq hi] at hid
      obtain rfl := Option.some.inj hid
      exact h.mem_declarationsOf.mpr ⟨i, s, hi, rfl⟩

private theorem map_link?_mentions (g : Graph) (keys : List DeclKey) :
    (g.mentions keys).map (fun m => m.2.link?) =
      (keys.flatMap g.referencesAt).map Reference.link? := by
  simp only [mentions, List.map_flatMap, List.map_map, Function.comp_def]

/-- A reference of the project uses one of the new links. -/
theorem exists_link (h : Adopted g₀ spec g) {key : DeclKey}
    (hkey : key ∈ g.declarationsOf g₀.projects.size) {r : Reference} (hr : r ∈ g.referencesAt key) :
    ∃ n < spec.referenceCount, r.link? = some (g₀.links.size + n) := by
  have hmem : r.link? ∈ (List.range' g₀.links.size spec.referenceCount).map some := by
    rw [← h.references]
    refine List.mem_map_of_mem (List.mem_flatMap.mpr ⟨key, ?_, hr⟩)
    exact h.declarationsOf_perm.mem_iff.mp hkey
  obtain ⟨link, hlink, he⟩ := List.mem_map.mp hmem
  obtain ⟨hle, hlt⟩ := List.mem_range'_1.mp hlink
  obtain ⟨n, rfl⟩ := Nat.exists_eq_add_of_le hle
  exact ⟨n, Nat.lt_of_add_lt_add_left hlt, he.symm⟩

theorem loaded (h : Adopted g₀ spec g) : Loaded g g₀.projects.size where
  nodup := h.declarationsOf_perm.nodup_iff.mpr List.nodup_range'
  declaration key hkey := by
    obtain ⟨i, s, hs, rfl⟩ := h.mem_declarationsOf.mp hkey
    obtain ⟨d, hd, -, -, -, hbare⟩ := h.declaration i s hs
    exact ⟨d, hd, hbare⟩
  unlinked key hkey r hr := by
    obtain ⟨n, hn, hlink⟩ := h.exists_link hkey hr
    refine ⟨_, hlink, ?_⟩
    rw [h.links, Array.getElem?_append_right (Nat.le_add_right _ _), Array.getElem?_replicate,
      Nat.add_sub_cancel_left, if_pos hn]
  apart := by
    rw [map_link?_mentions]
    have hperm := (h.declarationsOf_perm.flatMap_right g.referencesAt).map Reference.link?
    rw [hperm.nodup_iff, h.references]
    exact List.Nodup.map (fun a b he => Option.some.inj he) List.nodup_range'
  closed key hkey r _ target htarget := h.named?_mem hkey htarget

end Adopted

end Graph

end Lineage
