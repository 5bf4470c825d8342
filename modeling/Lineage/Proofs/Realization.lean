import Lineage.Proofs.Ancestry
import Lineage.Proofs.References
import Lineage.Proofs.Shapes

/-!
# Realized descriptions

A project that is adopted mirrors its description: the same declarations under the same ids, the
same forest read from its parents as from its children, and types of the same shape that are not
linked yet.
-/

namespace Lineage

/-- A project mirrors a description in every respect, and no reference of it is linked. -/
structure Description.Realized (spec : Description) (g : Graph) (project : ProjectKey) : Prop where
  name : (g.project? project).map (·.name) = some spec.name
  /-- The ids of the project are those that are described. -/
  ids : ∀ id, (g.byId? project id).isSome ↔ id ∈ spec.declarations.map (·.id)
  /-- Each id leads to a declaration of the described shape. -/
  declaration : ∀ s ∈ spec.declarations, ∃ key d, g.byId? project s.id = some key ∧
    g.declaration? key = some d ∧ s.Describes (fun r => g.target? r = none) d
  /-- Each declaration lies in the described scope, and is a child of that scope alone, once. -/
  parent : ∀ s ∈ spec.declarations, ∀ key, g.byId? project s.id = some key →
    ∃ scope, g.scopeOf? project s.parent = some scope ∧
      g.parentOf? (.declaration key) = some scope ∧
      ∀ other, other.Within project (g.declarationsOf project) →
        (g.childrenOf other).count key = if other = scope then 1 else 0
  /-- The children of a scope are what is described to lie in it, in the order of description. -/
  children : ∀ parent scope, g.scopeOf? project parent = some scope →
    (g.childrenOf scope).map some =
      (spec.declarations.filter (·.parent == parent)).map fun s => g.byId? project s.id
  /-- The parents of a declaration lead to the project, and the full name joins their names. -/
  path : ∀ s ∈ spec.declarations, ∃ key path names, g.byId? project s.id = some key ∧
    g.Path project path key ∧ path.length ≤ spec.declarations.length ∧
    path.map (fun k => g.scopeName? (.declaration k)) = names.map some ∧
    g.fullName key = ".".intercalate names
  /-- A symbol number leads to the last declaration that carries it. -/
  symbol : ∀ before s after symbol, spec.declarations = before ++ s :: after →
    s.symbol = some symbol → (∀ e ∈ after, e.symbol ≠ some symbol) →
    g.bySymbol? project symbol = g.byId? project s.id
  noSymbol : ∀ symbol, (∀ s ∈ spec.declarations, s.symbol ≠ some symbol) →
    g.bySymbol? project symbol = none

/-! ## Symbol numbers -/

namespace Description

variable {spec : Description} {symbol : Int}

theorem lastCarrying?_eq_some {before after : List DeclarationEntry} {s : DeclarationEntry}
    (hsplit : spec.declarations = before ++ s :: after) (hs : s.symbol = some symbol)
    (hafter : ∀ e ∈ after, e.symbol ≠ some symbol) : spec.lastCarrying? symbol = some s := by
  rw [lastCarrying?, hsplit, List.find?_eq_some_iff_append]
  refine ⟨by simp [hs], after.reverse, before.reverse, by simp, fun e he => ?_⟩
  simpa using hafter e (List.mem_reverse.mp he)

theorem lastCarrying?_eq_none (hnone : ∀ s ∈ spec.declarations, s.symbol ≠ some symbol) :
    spec.lastCarrying? symbol = none := by
  simpa [lastCarrying?] using hnone

end Description

/-! ## Children -/

namespace Graph

namespace Adopted

variable {g₀ g : Graph} {spec : Description}

/-- The children of a described scope are those that are described to lie in it. -/
theorem map_childrenOf (h : Adopted g₀ spec g)
    (hf : Forest.ParentsFit spec.declarations spec.declarations) {parent : Option Int}
    {scope : Scope} (hscope : g.scopeOf? g₀.projects.size parent = some scope) :
    (g.childrenOf scope).map some = (spec.declarations.filter (·.parent == parent)).map
      fun s => g.byId? g₀.projects.size s.id := by
  have hplaced : ∀ e ∈ spec.declarations.zipIdx g₀.declarations.size, ∃ i,
      spec.declarations[i]? = some e.1 ∧ e.2 = g₀.declarations.size + i := fun e he => by
    obtain ⟨hle, hs⟩ := List.mk_mem_zipIdx_iff_le_and_getElem?_sub.mp he
    exact ⟨_, hs, (Nat.add_sub_cancel' hle).symm⟩
  have hlies : ∀ e ∈ spec.declarations.zipIdx g₀.declarations.size,
      (g.parentOf? (.declaration e.2) = some scope) = (e.1.parent = parent) := fun e he => by
    obtain ⟨i, hs, hkey⟩ := hplaced e he
    rw [hkey, h.parentOf?_eq hf hs, eq_iff_iff]
    exact ⟨fun he => h.scopeOf?_inj he hscope, fun he => he ▸ hscope⟩
  rw [h.childrenOf_eq (h.within_of_scopeOf? hscope), ← List.zipIdx_map_snd, List.filter_map,
    List.map_map]
  have hfilter : (spec.declarations.zipIdx g₀.declarations.size).filter
        ((fun key => decide (g.parentOf? (.declaration key) = some scope)) ∘ Prod.snd) =
      (spec.declarations.zipIdx g₀.declarations.size).filter ((·.parent == parent) ∘ Prod.fst) := by
    refine List.filter_congr fun e he => ?_
    simp only [Function.comp_apply, hlies e he, beq_eq_decide]
  rw [hfilter]
  have hfst : spec.declarations.filter (·.parent == parent) =
      ((spec.declarations.zipIdx g₀.declarations.size).filter
        ((·.parent == parent) ∘ Prod.fst)).map Prod.fst := by
    rw [← List.filter_map, List.zipIdx_map_fst]
  rw [hfst, List.map_map]
  refine List.map_congr_left fun e he => ?_
  obtain ⟨i, hs, hkey⟩ := hplaced e (List.mem_of_mem_filter he)
  simp only [Function.comp_apply, hkey, h.byId?_eq hs]

/-- A declaration stands once among the children of its scope, and nowhere else. -/
theorem count_childrenOf (h : Adopted g₀ spec g) {i : Nat} {s : DeclarationEntry}
    (hs : spec.declarations[i]? = some s) {scope other : Scope}
    (hscope : g.parentOf? (.declaration (g₀.declarations.size + i)) = some scope)
    (hother : other.Within g₀.projects.size (g.declarationsOf g₀.projects.size)) :
    (g.childrenOf other).count (g₀.declarations.size + i) = if other = scope then 1 else 0 := by
  have hmem : g₀.declarations.size + i ∈
      List.range' g₀.declarations.size spec.declarations.length := by
    rw [List.mem_range'_1]
    have hi := (List.getElem?_eq_some_iff.mp hs).1
    omega
  rw [h.childrenOf_eq hother]
  split
  · next he =>
    rw [List.count_filter (by simp [hscope, he])]
    exact List.count_eq_one_of_mem List.nodup_range' hmem
  · next hne =>
    refine List.count_eq_zero.mpr fun hk => hne ?_
    have hlies := of_decide_eq_true (List.mem_filter.mp hk).2
    exact Option.some.inj (hlies.symm.trans hscope)

end Adopted

/-! ## Adopted descriptions -/

/-- What stands at the position of a described declaration has its shape and is not linked. -/
theorem adopt_describes {g₀ g : Graph} {source : String} {spec : Description}
    (h : g₀.adopt source spec = .ok g) {i : Nat} {s : DeclarationEntry}
    (hs : spec.declarations[i]? = some s) :
    ∃ d, g.declaration? (g₀.declarations.size + i) = some d ∧
      s.Describes (fun r => g.target? r = none) d := by
  have ha := adopt_spec h
  obtain ⟨kind, hkind, hbody⟩ := adopt_body h hs
  obtain ⟨d, hd, hbody⟩ := Option.map_eq_some_iff.mp hbody
  have hkey := ha.mem_declarationsOf.mpr ⟨i, s, hs, rfl⟩
  refine ⟨d, hd, DeclarationEntry.describes_body.mp ?_⟩
  rw [hbody]
  refine DeclarationEntry.describes_toDeclaration hkind none _ fun r hr => ?_
  have hr : r ∈ d.body.references := hbody ▸ hr
  have hr : r ∈ g.referencesAt (g₀.declarations.size + i) := by
    rw [referencesAt, hd]
    exact hr
  obtain ⟨link, hlink, hempty⟩ := ha.loaded.unlinked _ hkey r hr
  rw [target?_of_link hlink, hempty]
  rfl

/-- A description that is adopted is realized by the project that comes of it. -/
theorem adopt_realizes {g₀ g : Graph} {source : String} {spec : Description}
    (h : g₀.adopt source spec = .ok g) : spec.Realized g g₀.projects.size := by
  have ha := adopt_spec h
  have hf := isForest_of_adopt h
  refine ⟨adopt_name h, fun id => ?_, fun s hs => ?_, fun s hs key hkey => ?_,
    fun parent scope hscope => ha.map_childrenOf hf.parents hscope, fun s hs => ?_,
    fun before s after symbol hsplit hs hafter => ?_, fun symbol hnone => ?_⟩
  · constructor
    · intro hid
      obtain ⟨key, hkey⟩ := Option.isSome_iff_exists.mp hid
      obtain ⟨i, s, hs, rfl, -⟩ := ha.byId?_eq_some hkey
      exact List.mem_map_of_mem (List.mem_of_getElem? hs)
    · intro hid
      obtain ⟨s, hs, rfl⟩ := List.mem_map.mp hid
      obtain ⟨i, hi⟩ := List.getElem?_of_mem hs
      exact Option.isSome_iff_exists.mpr ⟨_, ha.byId?_eq hi⟩
  · obtain ⟨i, hi⟩ := List.getElem?_of_mem hs
    obtain ⟨d, hd, hshape⟩ := adopt_describes h hi
    exact ⟨_, d, ha.byId?_eq hi, hd, hshape⟩
  · obtain ⟨i, hi⟩ := List.getElem?_of_mem hs
    obtain rfl := Option.some.inj ((ha.byId?_eq hi).symm.trans hkey)
    have hparent := ha.parentOf?_eq hf.parents hi
    have hscope := ha.parent i s hi
    exact ⟨_, hparent.symm.trans hscope, hscope, fun other => ha.count_childrenOf hi hscope⟩
  · obtain ⟨i, hi⟩ := List.getElem?_of_mem hs
    obtain ⟨path, names, hpath⟩ := ha.exists_names hf hi
    exact ⟨_, path, names, ha.byId?_eq hi, hpath⟩
  · rw [ha.bySymbol?_eq, Description.lastCarrying?_eq_some hsplit hs hafter, Option.bind_some]
  · rw [ha.bySymbol?_eq, Description.lastCarrying?_eq_none hnone, Option.bind_none]

end Graph

/--
A project in which members are described before what encloses them, ids have gaps, two declarations
carry one symbol number, and types are nested.
-/
def Description.nested : Description where
  name := "nested"
  declarations :=
    [ { id := 40, name := "method", kind := "method", symbol := some 3, parent := some 12,
        type := some (.union [.intrinsic "void",
          .reference "Map" none (some [.reference "Outer.Inner" (some 3) none, .literal "key"])]),
        inheritedFrom := none, overwrites := some (.reference "Outer" none (some [])),
        extendedTypes := [], implementedTypes := [],
        decorators := [⟨"memo", some (.tuple [.reference "Inner" none none]), []⟩] },
      { id := 12, name := "Inner", kind := "class", symbol := some 3, parent := some 7,
        type := none, inheritedFrom := none, overwrites := none,
        extendedTypes := [.reference "Outer" none none], implementedTypes := [],
        decorators := [] },
      { id := 7, name := "Outer", kind := "class", symbol := none, parent := none,
        type := none, inheritedFrom := none, overwrites := none,
        extendedTypes := [], implementedTypes := [.unknown "?"], decorators := [] },
      { id := 9, name := "field", kind := "property", symbol := none, parent := some 7,
        type := some (.reference "Inner" none none), inheritedFrom := none, overwrites := none,
        extendedTypes := [], implementedTypes := [], decorators := [] } ]

theorem Graph.exists_adopt_nested :
    ∃ g, Graph.empty.adopt "nested" Description.nested = .ok g :=
  ⟨_, eq_ok_getD (by decide +kernel) .empty⟩

theorem Graph.adopt_realizes_nested :
    ∃ g, Graph.empty.adopt "nested" Description.nested = .ok g ∧
      Description.nested.Realized g 0 := by
  obtain ⟨g, h⟩ := Graph.exists_adopt_nested
  have hrealized := Graph.adopt_realizes h
  exact ⟨g, h, hrealized⟩

end Lineage
