import Lineage.Proofs.Hierarchies

/-!
# The order of deliveries

Delivering the declarations of a project in another order changes the order of extenders, and of
implementers of the same name, but nothing else.
-/

namespace Lineage

/-! ## Lists that may be absent -/

theorem rel_nonempty?_of_perm {α : Type} {R : List α → List α → Prop} {xs ys : List α}
    (h : xs.Perm ys) (hR : R xs ys) : Option.Rel R (nonempty? xs) (nonempty? ys) := by
  cases xs with
  | nil =>
    obtain rfl := h.symm.eq_nil
    exact Option.Rel.none
  | cons x xs =>
    cases ys with
    | nil => exact absurd h.eq_nil (List.cons_ne_nil x xs)
    | cons y ys => exact Option.Rel.some hR

/-! ## Declarations that agree up to order -/

/-- Chains that agree down to the target and hold the same types below it, in some order. -/
def Hierarchy.SameAbove (levels levels' : List Level) : Prop :=
  ∃ upper self lower lower', levels = chainOf upper self lower ∧
    levels' = chainOf upper self lower' ∧ Option.Rel List.Perm lower lower'

/-- Implementers of the same names in the same order, and of each name the same implementers. -/
def SameImplementers (ts us : List TypeExpr) : Prop :=
  ts.map (·.name?) = us.map (·.name?) ∧ ts.Perm us

namespace Declaration

/-- Declarations that differ at most in the order of extenders and of implementers of one name. -/
structure SameUpToOrder (d e : Declaration) : Prop where
  hierarchy : d.hierarchy.isSome = e.hierarchy.isSome
  extendedBy : Option.Rel List.Perm d.extendedBy e.extendedBy
  implementedBy : Option.Rel SameImplementers d.implementedBy e.implementedBy
  /-- Without different implementers of one name there is no difference. -/
  distinct : (∀ t ∈ d.implementedBy.getD [], ∀ u ∈ d.implementedBy.getD [],
    t.name? = u.name? → t = u) → d.implementedBy = e.implementedBy
  levels : Option.Rel Hierarchy.SameAbove d.levels? e.levels?

theorem sameUpToOrder_resolved {d : Declaration} (hd : d.hierarchy = none) (key : DeclKey)
    {implementers implementers' extenders extenders' : List Reference}
    (himplementers : implementers.Perm implementers') (hextenders : extenders.Perm extenders')
    (awaited : Bool) :
    (d.resolved key implementers extenders awaited).SameUpToOrder
      (d.resolved key implementers' extenders' awaited) := by
  have hsorted := (List.mergeSort_perm implementers (ascending (·.name))).trans
    (himplementers.trans (List.mergeSort_perm implementers' (ascending (·.name))).symm)
  have hbelow : Option.Rel List.Perm (nonempty? (extenders.map TypeExpr.reference))
      (nonempty? (extenders'.map TypeExpr.reference)) :=
    rel_nonempty?_of_perm (hextenders.map _) (hextenders.map _)
  refine ⟨?_, ?_, ?_, ?_, ?_⟩
  · rw [isSome_hierarchy_resolved hd, isSome_hierarchy_resolved hd]
  · rw [extendedBy_resolved, extendedBy_resolved]
    exact hbelow
  · rw [implementedBy_resolved, implementedBy_resolved]
    refine rel_nonempty?_of_perm (hsorted.map _) ⟨?_, hsorted.map _⟩
    have hnames := map_mergeSort_ascending_of_perm Reference.name himplementers
    have hsome := congrArg (List.map some) hnames
    rw [List.map_map, List.map_map] at hsome
    rw [List.map_map, List.map_map]
    exact hsome
  · intro hdistinct
    rw [implementedBy_resolved, getD_nonempty?] at hdistinct
    rw [implementedBy_resolved, implementedBy_resolved,
      mergeSort_ascending_eq_of_perm Reference.name himplementers fun a ha b hb hname => ?_]
    have hmem : ∀ r ∈ implementers, TypeExpr.reference r ∈
        (implementers.mergeSort (ascending (·.name))).map TypeExpr.reference :=
      fun r hr => List.mem_map_of_mem (List.mem_mergeSort.mpr hr)
    exact TypeExpr.reference.inj (hdistinct _ (hmem a ha) _ (hmem b hb) (congrArg some hname))
  · rw [levels?_resolved hd, levels?_resolved hd]
    cases awaited with
    | false => exact Option.Rel.none
    | true => exact Option.Rel.some ⟨_, _, _, _, rfl, rfl, hbelow⟩

end Declaration

/-! ## Runs that agree up to order -/

/-- Two runs over a project that came to the same but for the order of back edges. -/
structure AgreeUpToOrder (g : Graph) (project : ProjectKey) (g₁ g₂ : Graph) (t₁ t₂ : Tally) :
    Prop where
  links : g₁.links = g₂.links
  seen : t₁.referencesSeen = t₂.referencesSeen
  linked : t₁.referencesLinked = t₂.referencesLinked
  dangling : t₁.referencesDangling = t₂.referencesDangling
  edges : t₁.backEdgesAdded = t₂.backEdgesAdded
  built : t₁.hierarchiesBuilt = t₂.hierarchiesBuilt
  declaration : ∀ key ∈ g.declarationsOf project, ∃ d e, g₁.declaration? key = some d ∧
    g₂.declaration? key = some e ∧ d.SameUpToOrder e

namespace Resolved

variable {g g₁ g₂ : Graph} {project : ProjectKey} {keys keys' : List DeclKey} {t₁ t₂ : Tally}

theorem links_eq (h₁ : Resolved g project keys g₁ t₁) (h₂ : Resolved g project keys' g₂ t₂) :
    g₁.links = g₂.links := by
  refine Graph.links_eq_of_mentions g (g.declarationsOf project) ?_ ?_
  · intro key hkey r hr link hlink
    rw [h₁.held key hkey r hr link hlink, h₂.held key hkey r hr link hlink]
  · intro link hnone
    rw [h₁.untouched link hnone, h₂.untouched link hnone]

theorem sameUpToOrder (h₁ : Resolved g project keys g₁ t₁) (h₂ : Resolved g project keys' g₂ t₂)
    (hloaded : g.Loaded project) (hkeys : keys.Perm keys') :
    AgreeUpToOrder g project g₁ g₂ t₁ t₂ := by
  have hmentions : (g.mentions keys).Perm (g.mentions keys') := hkeys.flatMap_right _
  have hawaited : g.awaited project keys = g.awaited project keys' := by
    funext key
    exact decide_eq_decide.mpr (hkeys.flatMap_right (g.awaiting project)).mem_iff
  have hlinked : t₁.referencesLinked = t₂.referencesLinked := by
    rw [h₁.linked, h₂.linked]
    exact hmentions.countP_eq _
  have hdangling : t₁.referencesDangling = t₂.referencesDangling := by
    rw [h₁.dangling, h₂.dangling]
    exact hmentions.countP_eq _
  refine ⟨h₁.links_eq h₂, ?_, hlinked, hdangling, ?_, ?_, ?_⟩
  · rw [h₁.seen, h₂.seen, hlinked, hdangling]
  · rw [h₁.edges, h₂.edges]
    exact (hkeys.map _).sum_eq
  · rw [h₁.built, h₂.built, hawaited]
    exact hkeys.countP_eq _
  · intro key hkey
    obtain ⟨d, hd, hnone, hd₁⟩ := h₁.exists_resolved hloaded hkey
    obtain ⟨d', hd', -, hd₂⟩ := h₂.exists_resolved hloaded hkey
    obtain rfl := Option.some.inj (hd.symm.trans hd')
    refine ⟨_, _, hd₁, hd₂, ?_⟩
    rw [hawaited]
    exact Declaration.sameUpToOrder_resolved hnone key (hkeys.flatMap_right _)
      (hkeys.flatMap_right _) _

end Resolved

namespace Pipeline

/--
Signalling the declarations of a described project in two orders, each followed by the end, comes to
the same but for the order of back edges.
-/
theorem plainSignals_order {g₀ g : Graph} {source : String} {spec : Description}
    (h : g₀.adopt source spec = .ok g) {keys keys' : List DeclKey}
    (hkeys : keys.Perm (g.declarationsOf g₀.projects.size))
    (hkeys' : keys'.Perm (g.declarationsOf g₀.projects.size)) :
    ∃ t₁ g₁ t₂ g₂, plainSignals g g₀.projects.size (Signal.sweep keys) = (.ok t₁, g₁) ∧
      plainSignals g g₀.projects.size (Signal.sweep keys') = (.ok t₂, g₂) ∧
      AgreeUpToOrder g g₀.projects.size g₁ g₂ t₁ t₂ := by
  have hloaded := (Graph.adopt_spec h).loaded
  obtain ⟨t₁, g₁, hrun₁, h₁⟩ := plainSignals_spec hloaded hkeys
  obtain ⟨t₂, g₂, hrun₂, h₂⟩ := plainSignals_spec hloaded hkeys'
  exact ⟨t₁, g₁, t₂, g₂, hrun₁, hrun₂, h₁.sameUpToOrder h₂ hloaded (hkeys.trans hkeys'.symm)⟩

theorem plainSignals_order_sample :
    ∃ g, Graph.empty.adopt "sample" Description.sample = .ok g ∧
      ∃ t₁ g₁ t₂ g₂, plainSignals g 0 (Signal.sweep [0, 1, 2]) = (.ok t₁, g₁) ∧
        plainSignals g 0 (Signal.sweep [2, 0, 1]) = (.ok t₂, g₂) ∧
        AgreeUpToOrder g 0 g₁ g₂ t₁ t₂ := by
  obtain ⟨g, h⟩ := Graph.exists_adopt_sample
  have hperm : (g.declarationsOf 0).Perm [0, 1, 2] := (Graph.adopt_spec h).declarationsOf_perm
  have hkeys : [2, 0, 1].Perm (g.declarationsOf 0) := List.Perm.trans (by decide) hperm.symm
  have horder := plainSignals_order h hperm.symm hkeys
  exact ⟨g, h, horder⟩

end Pipeline

end Lineage
