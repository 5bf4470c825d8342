import Lineage.Proofs.Loaded

/-!
# Neighbouring projects

A graph holds any number of projects. Loading one more leaves those that are there as they are, and
no two of them have a declaration or a link in common.
-/

namespace Lineage

/-- What can be seen of a project: its declarations in order, and where their references lead. -/
abbrev View := List (DeclKey × Option (Declaration × List (Option Target)))

namespace Graph

/-- What can be seen of a project in a graph. -/
def view (g : Graph) (project : ProjectKey) : View :=
  (g.declarationsOf project).map fun key =>
    (key, (g.declaration? key).map fun d => (d, d.references.map g.target?))

/-- Adopts described projects one after the other, each with the source it comes from. -/
def adoptAll (g : Graph) : List (String × Description) → Except Fault Graph
  | [] => .ok g
  | s :: rest =>
    match g.adopt s.1 s.2 with
    | .ok g => g.adoptAll rest
    | .error fault => .error fault

/-! ## What stays -/

namespace Extends

variable {g g' : Graph} {project : ProjectKey} (h : g.Extends g') (hp : project < g.projects.size)
include h hp

theorem declarationsOf_eq : g'.declarationsOf project = g.declarationsOf project := by
  rw [declarationsOf, declarationsOf, h.project project hp]

theorem bySymbol?_eq (symbol : Int) : g'.bySymbol? project symbol = g.bySymbol? project symbol := by
  rw [bySymbol?, bySymbol?, h.project project hp]

theorem encloses (hencloses : g.Encloses project (g.declarationsOf project))
    (hheld : ∀ key ∈ g.declarationsOf project, key < g.declarations.size) :
    g'.Encloses project (g'.declarationsOf project) where
  children scope hscope := by
    rw [h.declarationsOf_eq hp] at hscope ⊢
    have hsame : g'.childrenOf scope = g.childrenOf scope := by
      rcases hscope with rfl | ⟨key, hkey, rfl⟩
      · rw [childrenOf, childrenOf, h.project project hp]
      · rw [childrenOf, childrenOf, h.declaration key (hheld key hkey)]
    rw [hsame]
    exact hencloses.children scope hscope
  parent key hkey := by
    rw [h.declarationsOf_eq hp] at hkey ⊢
    rw [parentOf?, h.declaration key (hheld key hkey)]
    exact hencloses.parent key hkey

end Extends

namespace Loaded

variable {g g' : Graph} {project : ProjectKey} (h : g.Loaded project)
include h

theorem lt_of_mem {key : DeclKey} (hkey : key ∈ g.declarationsOf project) :
    key < g.declarations.size := by
  obtain ⟨d, hd, -⟩ := h.declaration key hkey
  exact (Array.getElem?_eq_some_iff.mp hd).1

theorem referencesAt_eq (he : g.Extends g') {key : DeclKey}
    (hkey : key ∈ g.declarationsOf project) : g'.referencesAt key = g.referencesAt key := by
  rw [referencesAt, referencesAt, he.declaration key (h.lt_of_mem hkey)]

theorem mentions_eq (he : g.Extends g') (hp : project < g.projects.size) :
    g'.mentions (g'.declarationsOf project) = g.mentions (g.declarationsOf project) := by
  rw [he.declarationsOf_eq hp]
  exact List.flatMap_congr fun key hkey => by rw [h.referencesAt_eq he hkey]

theorem stays (he : g.Extends g') (hp : project < g.projects.size)
    (hencloses : g.Encloses project (g.declarationsOf project)) : g'.Loaded project where
  nodup := by
    rw [he.declarationsOf_eq hp]
    exact h.nodup
  declaration key hkey := by
    rw [he.declarationsOf_eq hp] at hkey
    rw [he.declaration key (h.lt_of_mem hkey)]
    exact h.declaration key hkey
  unlinked key hkey r hr := by
    rw [he.declarationsOf_eq hp] at hkey
    rw [h.referencesAt_eq he hkey] at hr
    obtain ⟨link, hlink, hempty⟩ := h.unlinked key hkey r hr
    exact ⟨link, hlink, (he.links link (Array.getElem?_eq_some_iff.mp hempty).1).trans hempty⟩
  apart := by
    rw [h.mentions_eq he hp]
    exact h.apart
  closed key hkey r hr target htarget := by
    have hin := he.encloses hp hencloses fun _ hkey => h.lt_of_mem hkey
    rw [named?] at htarget
    split at htarget
    · exact hin.mem_of_find? (Or.inr ⟨key, hkey, rfl⟩) htarget
    · next hname =>
      rw [he.declarationsOf_eq hp] at hkey ⊢
      rw [h.referencesAt_eq he hkey] at hr
      refine h.closed key hkey r hr target ?_
      rw [named?, if_neg hname, ← he.bySymbol?_eq hp]
      exact htarget

end Loaded

/-! ## Projects side by side -/

/-- Two projects have no declaration and no link in common. -/
structure Apart (g : Graph) (project other : ProjectKey) : Prop where
  keys : (g.declarationsOf project).Disjoint (g.declarationsOf other)
  links : ∀ m ∈ g.mentions (g.declarationsOf project),
    ∀ n ∈ g.mentions (g.declarationsOf other), m.2.link? ≠ n.2.link?

theorem Apart.symm {g : Graph} {project other : ProjectKey} (h : g.Apart project other) :
    g.Apart other project :=
  ⟨fun _ ho hk => h.keys hk ho, fun m hm n hn he => h.links n hn m hm he.symm⟩

/-- All projects from `first` on stand as they were loaded, and apart from one another. -/
structure Lined (g : Graph) (first : Nat) : Prop where
  loaded : ∀ p, first ≤ p → p < g.projects.size → g.Loaded p
  encloses : ∀ p, first ≤ p → p < g.projects.size → g.Encloses p (g.declarationsOf p)
  apart : ∀ p q, first ≤ p → p < q → q < g.projects.size → g.Apart p q

theorem Lined.apart_of_ne {g : Graph} {first : Nat} (h : g.Lined first) {p q : Nat}
    (hp : first ≤ p ∧ p < g.projects.size) (hq : first ≤ q ∧ q < g.projects.size) (hne : p ≠ q) :
    g.Apart p q := by
  rcases Nat.lt_or_gt_of_ne hne with hlt | hlt
  · exact h.apart p q hp.1 hlt hq.2
  · exact (h.apart q p hq.1 hlt hp.2).symm

theorem Lined.adopt {g g' : Graph} {first : Nat} (h : g.Lined first) {source : String}
    {spec : Description} (ha : g.adopt source spec = .ok g') : g'.Lined first := by
  have hadopted := adopt_spec ha
  have he := adopt_extends ha
  have hsize := size_projects_adopt ha
  refine ⟨fun p hfirst hp => ?_, fun p hfirst hp => ?_, fun p q hfirst hlt hq => ?_⟩
  · rcases Nat.lt_succ_iff_lt_or_eq.mp (hsize ▸ hp) with hold | rfl
    · exact (h.loaded p hfirst hold).stays he hold (h.encloses p hfirst hold)
    · exact hadopted.loaded
  · rcases Nat.lt_succ_iff_lt_or_eq.mp (hsize ▸ hp) with hold | rfl
    · exact he.encloses hold (h.encloses p hfirst hold) fun _ => (h.loaded p hfirst hold).lt_of_mem
    · exact hadopted.encloses
  · have hp : p < g.projects.size := by omega
    have hloaded := h.loaded p hfirst hp
    rcases Nat.lt_succ_iff_lt_or_eq.mp (hsize ▸ hq) with hold | rfl
    · have hapart := h.apart p q hfirst hlt hold
      have hother := h.loaded q (by omega) hold
      constructor
      · rw [he.declarationsOf_eq hp, he.declarationsOf_eq hold]
        exact hapart.keys
      · rw [hloaded.mentions_eq he hp, hother.mentions_eq he hold]
        exact hapart.links
    · -- What was there has smaller keys than what was adopted.
      constructor
      · rw [he.declarationsOf_eq hp]
        intro key hkey hnew
        obtain ⟨i, s, -, rfl⟩ := hadopted.mem_declarationsOf.mp hnew
        exact absurd (hloaded.lt_of_mem hkey) (Nat.not_lt.mpr (Nat.le_add_right _ _))
      · rw [hloaded.mentions_eq he hp]
        intro m hm n hn hsame
        obtain ⟨hkey, hr⟩ := mem_mentions.mp hm
        obtain ⟨hnew, hq⟩ := mem_mentions.mp hn
        obtain ⟨link, hlink, hempty⟩ := hloaded.unlinked m.1 hkey m.2 hr
        obtain ⟨i, -, hlink'⟩ := hadopted.exists_link hnew hq
        obtain rfl := Option.some.inj (hlink.symm.trans (hsame.trans hlink'))
        exact absurd (Array.getElem?_eq_some_iff.mp hempty).1
          (Nat.not_lt.mpr (Nat.le_add_right _ _))

/-- Described projects that are adopted one after the other stand side by side. -/
theorem lined_of_adoptAll {g₀ g : Graph} {specs : List (String × Description)}
    (h : g₀.adoptAll specs = .ok g) : g.Lined g₀.projects.size := by
  have hall : ∀ {g₁ : Graph} {specs : List (String × Description)}, g₁.Lined g₀.projects.size →
      g₁.adoptAll specs = .ok g → g.Lined g₀.projects.size := by
    intro g₁ specs hl h
    induction specs generalizing g₁ with
    | nil =>
      obtain rfl := Except.ok.inj h
      exact hl
    | cons s specs ih =>
      rw [adoptAll] at h
      split at h
      · next ha => exact ih (hl.adopt ha) h
      · cases h
  exact hall ⟨fun p hfirst hp => by omega, fun p hfirst hp => by omega,
    fun p q hfirst hlt hq => by omega⟩ h

end Graph

end Lineage
