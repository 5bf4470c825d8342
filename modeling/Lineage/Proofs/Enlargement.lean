import Lineage.Proofs.Ancestry
import Mathlib.Data.List.Find

/-!
# Enlarged descriptions

Behind the declarations of a description there may come others, at the top of the project or within
one another. What was described before stands as before. A lookup from there finds what it found
before; only where it found nothing may it find one of the newcomers.
-/

namespace Lineage

/--
A description has newcomers behind the declarations of another one: each lies at the top or in
another newcomer, and none carries a symbol number that was carried before.
-/
structure Description.Enlarges (spec : Description) (newcomers : List DeclarationEntry)
    (spec' : Description) : Prop where
  declarations : spec'.declarations = spec.declarations ++ newcomers
  parents : ∀ e ∈ newcomers, ∀ parent, e.parent = some parent → parent ∈ newcomers.map (·.id)
  symbols : ∀ e ∈ newcomers, ∀ symbol, e.symbol = some symbol →
    ∀ s ∈ spec.declarations, s.symbol ≠ some symbol

namespace Graph

/-- A project holds its declarations as they stand in another graph among newcomers. -/
structure Enlarged (project : ProjectKey) (g g' : Graph) : Prop where
  declaration : ∀ key ∈ g.declarationsOf project, g'.declaration? key = g.declaration? key
  declarationsOf : (g'.declarationsOf project).filter (· ∈ g.declarationsOf project) =
    g.declarationsOf project
  /-- At the top the newcomers stand behind the others. -/
  top : ∃ more, g'.childrenOf (.project project) = g.childrenOf (.project project) ++ more ∧
    ∀ key ∈ more, key ∈ g'.declarationsOf project ∧ key ∉ g.declarationsOf project
  /-- Newcomers have none but newcomers below them. -/
  newcomers : ∀ key ∈ g'.declarationsOf project, key ∉ g.declarationsOf project →
    ∀ child ∈ g'.childrenOf (.declaration key),
      child ∈ g'.declarationsOf project ∧ child ∉ g.declarationsOf project
  bySymbol? : ∀ symbol, g.bySymbol? project symbol =
    (g'.bySymbol? project symbol).filter (· ∈ g.declarationsOf project)
  outward : ∀ key ∈ g.declarationsOf project, ∃ inner : List DeclKey,
    (∀ k ∈ inner, k ∈ g.declarationsOf project) ∧
    g.scopes (.declaration key) = inner.map .declaration ++ [.project project] ∧
    g'.scopes (.declaration key) = inner.map .declaration ++ [.project project]

/-! ## Lookup -/

theorem filter_mem_eq_self {keys : List DeclKey} {found : Option DeclKey}
    (h : ∀ key, found = some key → key ∈ keys) : found.filter (· ∈ keys) = found := by
  cases found with
  | none => rfl
  | some key => rw [Option.filter_some, if_pos (decide_eq_true (h key rfl))]

theorem filter_mem_eq_none {keys : List DeclKey} {found : Option DeclKey}
    (h : ∀ key, found = some key → key ∉ keys) : found.filter (· ∈ keys) = none :=
  Option.filter_eq_none_iff.mpr fun key hkey => by simpa using h key hkey

namespace Enlarged

variable {project : ProjectKey} {g g' : Graph} (h : Enlarged project g g')
include h

theorem subset {key : DeclKey} (hkey : key ∈ g.declarationsOf project) :
    key ∈ g'.declarationsOf project := by
  rw [← h.declarationsOf] at hkey
  exact (List.mem_filter.mp hkey).1

theorem childrenOf_eq {key : DeclKey} (hkey : key ∈ g.declarationsOf project) :
    g'.childrenOf (.declaration key) = g.childrenOf (.declaration key) := by
  simp only [childrenOf, h.declaration key hkey]

theorem firstNamed_eq {keys : List DeclKey} (hkeys : ∀ key ∈ keys, key ∈ g.declarationsOf project)
    (name : String) : g'.firstNamed name keys = g.firstNamed name keys :=
  List.find?_congr fun key hkey => by rw [h.declaration key (hkeys key hkey)]

theorem below?_newcomer {key target : DeclKey} (hmem : key ∈ g'.declarationsOf project)
    (hnew : key ∉ g.declarationsOf project) {parts : List String}
    (hfound : g'.below? (.declaration key) parts = some target) :
    target ∉ g.declarationsOf project := by
  induction parts generalizing key with
  | nil => cases hfound
  | cons name rest ih =>
    cases rest with
    | nil => exact (h.newcomers key hmem hnew target (List.mem_of_find?_eq_some hfound)).2
    | cons next rest =>
      obtain ⟨child, hchild, hfound⟩ := Option.bind_eq_some_iff.mp hfound
      obtain ⟨hmem, hnew⟩ :=
        h.newcomers key hmem hnew child (List.mem_of_find?_eq_some hchild)
      exact ih hmem hnew hfound

section Within

variable (hencloses : g.Encloses project (g.declarationsOf project))
include hencloses

theorem below?_eq {key : DeclKey} (hkey : key ∈ g.declarationsOf project) (parts : List String) :
    g'.below? (.declaration key) parts = g.below? (.declaration key) parts := by
  induction parts generalizing key with
  | nil => rfl
  | cons name rest ih =>
    have hchildren := hencloses.children (.declaration key) (Or.inr ⟨key, hkey, rfl⟩)
    have hfirst : g'.firstNamed name (g'.childrenOf (.declaration key)) =
        g.firstNamed name (g.childrenOf (.declaration key)) := by
      rw [h.childrenOf_eq hkey, h.firstNamed_eq hchildren]
    cases rest with
    | nil => exact hfirst
    | cons next rest =>
      simp only [below?, hfirst, Option.bind_eq_bind]
      exact Option.bind_congr fun child hchild =>
        ih (hchildren child (List.mem_of_find?_eq_some hchild))

/-- The first name of a lookup at the top is taken by a newcomer only if no one had it before. -/
theorem below?_top (parts : List String) :
    g.below? (.project project) parts =
      (g'.below? (.project project) parts).filter (· ∈ g.declarationsOf project) := by
  have hwithin : Scope.Within project (g.declarationsOf project) (.project project) := Or.inl rfl
  have hchildren := hencloses.children _ hwithin
  obtain ⟨more, htop, hmore⟩ := h.top
  have hfirst : ∀ name, g'.firstNamed name (g'.childrenOf (.project project)) =
      (g.firstNamed name (g.childrenOf (.project project))).or (g'.firstNamed name more) := by
    intro name
    rw [htop, firstNamed, List.find?_append, ← firstNamed, ← firstNamed,
      h.firstNamed_eq hchildren]
  cases parts with
  | nil => rfl
  | cons name rest =>
    have hfirst := hfirst name
    cases hold : g.firstNamed name (g.childrenOf (.project project)) with
    | some child =>
      have hchild := hchildren child (List.mem_of_find?_eq_some hold)
      have hsame : g'.below? (.project project) (name :: rest) =
          g.below? (.project project) (name :: rest) := by
        rw [hold, Option.some_or] at hfirst
        cases rest with
        | nil => exact hfirst.trans hold.symm
        | cons next rest =>
          simp only [below?, hfirst, hold, Option.bind_eq_bind, Option.bind_some,
            h.below?_eq hencloses hchild]
      rw [hsame, filter_mem_eq_self fun key hkey => hencloses.mem_of_below? hwithin hkey]
    | none =>
      have hnone : g.below? (.project project) (name :: rest) = none := by
        cases rest with
        | nil => exact hold
        | cons next rest => simp only [below?, hold, Option.bind_eq_bind, Option.bind_none]
      rw [hold, Option.none_or] at hfirst
      rw [hnone, filter_mem_eq_none]
      intro key hkey
      cases rest with
      | nil => exact (hmore key (List.mem_of_find?_eq_some (hfirst.symm.trans hkey))).2
      | cons next rest =>
        simp only [below?, hfirst, Option.bind_eq_bind] at hkey
        obtain ⟨child, hchild, hkey⟩ := Option.bind_eq_some_iff.mp hkey
        obtain ⟨hmem, hnew⟩ := hmore child (List.mem_of_find?_eq_some hchild)
        exact h.below?_newcomer hmem hnew hkey

theorem find?_eq {key : DeclKey} (hkey : key ∈ g.declarationsOf project) (parts : List String) :
    g.find? (.declaration key) parts =
      (g'.find? (.declaration key) parts).filter (· ∈ g.declarationsOf project) := by
  obtain ⟨inner, hinner, hscopes, hscopes'⟩ := h.outward key hkey
  have hsame : (inner.map Scope.declaration).findSome? (fun s => g'.below? s parts) =
      (inner.map Scope.declaration).findSome? fun s => g.below? s parts := by
    rw [← List.head?_filterMap, ← List.head?_filterMap, List.filterMap_map, List.filterMap_map]
    exact congrArg List.head? (List.filterMap_congr fun k hk =>
      h.below?_eq hencloses (hinner k hk) parts)
  rw [find?, find?, hscopes, hscopes', List.findSome?_append, List.findSome?_append, hsame,
    List.findSome?_singleton, List.findSome?_singleton]
  cases hfound : (inner.map Scope.declaration).findSome? fun s => g.below? s parts with
  | none => rw [Option.none_or, Option.none_or, h.below?_top hencloses]
  | some target =>
    rw [Option.some_or, Option.some_or, filter_mem_eq_self]
    rintro _ ⟨⟩
    obtain ⟨scope, hscope, hfound⟩ := List.exists_of_findSome?_eq_some hfound
    obtain ⟨k, hk, rfl⟩ := List.mem_map.mp hscope
    exact hencloses.mem_of_below? (Or.inr ⟨k, hinner k hk, rfl⟩) hfound

/-- What a reference names among the newcomers, if it is one of those before, it named before. -/
theorem named?_eq {key : DeclKey} (hkey : key ∈ g.declarationsOf project) (r : Reference) :
    g.named? project (.declaration key) r =
      (g'.named? project (.declaration key) r).filter (· ∈ g.declarationsOf project) := by
  unfold named?
  split
  · exact h.find?_eq hencloses hkey _
  · split
    · rfl
    · exact h.bySymbol? r.symbol

end Within

end Enlarged

end Graph

/-! ## Positions -/

namespace Description.Enlarges

variable {spec spec' : Description} {newcomers : List DeclarationEntry}
  (h : spec.Enlarges newcomers spec')
include h

theorem length : spec'.declarations.length = spec.declarations.length + newcomers.length := by
  rw [h.declarations, List.length_append]

theorem getElem? {i : Nat} {s : DeclarationEntry} (hs : spec.declarations[i]? = some s) :
    spec'.declarations[i]? = some s := by
  rw [h.declarations, List.getElem?_append_left (List.getElem?_eq_some_iff.mp hs).1, hs]

theorem getElem?_cases {i : Nat} {s : DeclarationEntry} (hs : spec'.declarations[i]? = some s) :
    spec.declarations[i]? = some s ∨ spec.declarations.length ≤ i ∧ s ∈ newcomers := by
  rw [h.declarations] at hs
  rcases Nat.lt_or_ge i spec.declarations.length with hlt | hge
  · rw [List.getElem?_append_left hlt] at hs
    exact Or.inl hs
  · rw [List.getElem?_append_right hge] at hs
    exact Or.inr ⟨hge, List.mem_of_getElem? hs⟩

theorem exists_getElem? {e : DeclarationEntry} (he : e ∈ newcomers) :
    ∃ j, spec'.declarations[spec.declarations.length + j]? = some e := by
  obtain ⟨j, hj⟩ := List.getElem?_of_mem he
  refine ⟨j, ?_⟩
  rw [h.declarations, List.getElem?_append_right (Nat.le_add_right _ _), Nat.add_sub_cancel_left,
    hj]

theorem referencesBefore_eq {i : Nat} (hi : i ≤ spec.declarations.length) :
    spec'.referencesBefore i = spec.referencesBefore i := by
  rw [referencesBefore, referencesBefore, h.declarations, List.take_append_of_le_length hi]

/-- The last to carry a symbol number is a newcomer, or was the last before. -/
theorem lastCarrying?_eq (symbol : Int) :
    (∃ e ∈ newcomers, spec'.lastCarrying? symbol = some e ∧ spec.lastCarrying? symbol = none) ∨
      spec'.lastCarrying? symbol = spec.lastCarrying? symbol := by
  have hsplit : spec'.lastCarrying? symbol =
      (newcomers.reverse.find? (·.symbol == some symbol)).or (spec.lastCarrying? symbol) := by
    rw [lastCarrying?, lastCarrying?, h.declarations, List.reverse_append, List.find?_append]
  cases hnew : newcomers.reverse.find? (·.symbol == some symbol) with
  | none =>
    rw [hsplit, hnew, Option.none_or]
    exact Or.inr rfl
  | some e =>
    have hmem : e ∈ newcomers := List.mem_reverse.mp (List.mem_of_find?_eq_some hnew)
    have hcarries : e.symbol = some symbol := by simpa using List.find?_some hnew
    refine Or.inl ⟨e, hmem, by rw [hsplit, hnew, Option.some_or], ?_⟩
    simpa [lastCarrying?] using h.symbols e hmem symbol hcarries

end Description.Enlarges

/-! ## Adopted projects -/

namespace Graph

namespace Adopted

theorem notMem_of_le {g₀ g : Graph} {spec : Description} (h : Adopted g₀ spec g) {i : Nat}
    (hi : spec.declarations.length ≤ i) :
    g₀.declarations.size + i ∉ g.declarationsOf g₀.projects.size := by
  intro hkey
  obtain ⟨j, s, hs, he⟩ := h.mem_declarationsOf.mp hkey
  have hj := (List.getElem?_eq_some_iff.mp hs).1
  have hij : i = j := Nat.add_left_cancel he
  omega

variable {g₀ g g' : Graph} {spec spec' : Description} {newcomers : List DeclarationEntry}
  (h : Adopted g₀ spec g) (h' : Adopted g₀ spec' g') (henlarges : spec.Enlarges newcomers spec')
include h h' henlarges

theorem mem_of_mem {key : DeclKey} (hkey : key ∈ g.declarationsOf g₀.projects.size) :
    key ∈ g'.declarationsOf g₀.projects.size := by
  obtain ⟨i, s, hs, rfl⟩ := h.mem_declarationsOf.mp hkey
  exact h'.mem_declarationsOf.mpr ⟨i, s, henlarges.getElem? hs, rfl⟩

theorem exists_newcomer {key : DeclKey} (hkey : key ∈ g'.declarationsOf g₀.projects.size)
    (hnew : key ∉ g.declarationsOf g₀.projects.size) :
    ∃ i e, spec'.declarations[i]? = some e ∧ spec.declarations.length ≤ i ∧ e ∈ newcomers ∧
      key = g₀.declarations.size + i := by
  obtain ⟨i, e, he, rfl⟩ := h'.mem_declarationsOf.mp hkey
  rcases henlarges.getElem?_cases he with hbefore | ⟨hle, hmem⟩
  · exact absurd (h.mem_declarationsOf.mpr ⟨i, e, hbefore, rfl⟩) hnew
  · exact ⟨i, e, he, hle, hmem, rfl⟩

theorem byId?_enlarged {s : DeclarationEntry} (hs : s ∈ spec.declarations) :
    g'.byId? g₀.projects.size s.id = g.byId? g₀.projects.size s.id := by
  obtain ⟨i, hi⟩ := List.getElem?_of_mem hs
  rw [h.byId?_eq hi, h'.byId?_eq (henlarges.getElem? hi)]

theorem bySymbol?_enlarged (symbol : Int) :
    g.bySymbol? g₀.projects.size symbol = (g'.bySymbol? g₀.projects.size symbol).filter
      (· ∈ g.declarationsOf g₀.projects.size) := by
  rw [h.bySymbol?_eq, h'.bySymbol?_eq]
  rcases henlarges.lastCarrying?_eq symbol with ⟨e, he, hnew, hnone⟩ | hsame
  · obtain ⟨j, hj⟩ := henlarges.exists_getElem? he
    rw [hnew, hnone, Option.bind_none, Option.bind_some, h'.byId?_eq hj, filter_mem_eq_none]
    rintro _ ⟨⟩
    exact h.notMem_of_le (Nat.le_add_right _ _)
  · rw [hsame]
    cases hlast : spec.lastCarrying? symbol with
    | none => rfl
    | some s =>
      have hs : s ∈ spec.declarations := List.mem_reverse.mp (List.mem_of_find?_eq_some hlast)
      rw [Option.bind_some, Option.bind_some, h.byId?_enlarged h' henlarges hs,
        filter_mem_eq_self]
      intro key hkey
      obtain ⟨i, t, ht, -, rfl⟩ := h.byId?_eq_some hkey
      exact h.mem_declarationsOf.mpr ⟨i, t, ht, rfl⟩

section Parents

variable (hf : Forest.IsForest spec.declarations) (hf' : Forest.IsForest spec'.declarations)
include hf hf'

theorem parentOf?_enlarged {key : DeclKey} (hkey : key ∈ g.declarationsOf g₀.projects.size) :
    g'.parentOf? (.declaration key) = g.parentOf? (.declaration key) := by
  obtain ⟨i, s, hs, rfl⟩ := h.mem_declarationsOf.mp hkey
  rw [h.parentOf?_eq hf.parents hs, h'.parentOf?_eq hf'.parents (henlarges.getElem? hs)]
  cases hparent : s.parent with
  | none => rfl
  | some parent =>
    obtain ⟨-, hdescribed⟩ := hf.parents s (List.mem_of_getElem? hs) parent hparent
    obtain ⟨e, he, rfl⟩ := List.mem_map.mp hdescribed
    rw [scopeOf?, scopeOf?, h.byId?_enlarged h' henlarges he]

omit h hf in
theorem parentOf?_newcomer {i : Nat} {e : DeclarationEntry} (he : spec'.declarations[i]? = some e)
    (hmem : e ∈ newcomers) : g'.parentOf? (.declaration (g₀.declarations.size + i)) =
        some (.project g₀.projects.size) ∨
      ∃ j, spec.declarations.length ≤ j ∧
        g'.parentOf? (.declaration (g₀.declarations.size + i)) =
          some (.declaration (g₀.declarations.size + j)) := by
  rw [h'.parentOf?_eq hf'.parents he]
  cases hparent : e.parent with
  | none => exact Or.inl rfl
  | some parent =>
    obtain ⟨f, hfmem, rfl⟩ := List.mem_map.mp (henlarges.parents e hmem parent hparent)
    obtain ⟨j, hj⟩ := henlarges.exists_getElem? hfmem
    refine Or.inr ⟨_, Nat.le_add_right _ j, ?_⟩
    rw [scopeOf?, h'.byId?_eq hj, Option.map_some]

/-- The children of a scope are those it had, and behind them the newcomers that lie in it. -/
theorem childrenOf_enlarged {scope : Scope}
    (hscope : scope.Within g₀.projects.size (g.declarationsOf g₀.projects.size)) :
    g'.childrenOf scope = g.childrenOf scope ++
      (List.range' (g₀.declarations.size + spec.declarations.length) newcomers.length).filter
        fun k => decide (g'.parentOf? (.declaration k) = some scope) := by
  have hscope' : scope.Within g₀.projects.size (g'.declarationsOf g₀.projects.size) :=
    hscope.imp_right fun ⟨k, hk, he⟩ => ⟨k, h.mem_of_mem h' henlarges hk, he⟩
  rw [h'.childrenOf_eq hscope', h.childrenOf_eq hscope, henlarges.length, ← List.range'_append_1,
    List.filter_append]
  congr 1
  refine List.filter_congr fun k hk => ?_
  rw [h.parentOf?_enlarged h' henlarges hf hf' (h.declarationsOf_perm.mem_iff.mpr hk)]

omit hf in
/-- What is counted behind those before are newcomers, none of which lies in one of those. -/
theorem newcomer_of_mem {k : Nat} (hk : k ∈ List.range'
      (g₀.declarations.size + spec.declarations.length) newcomers.length) :
    k ∈ g'.declarationsOf g₀.projects.size ∧ k ∉ g.declarationsOf g₀.projects.size ∧
      ∀ key ∈ g.declarationsOf g₀.projects.size,
        g'.parentOf? (.declaration k) ≠ some (.declaration key) := by
  have hmem : k ∈ g'.declarationsOf g₀.projects.size := by
    rw [h'.declarationsOf_perm.mem_iff, List.mem_range'_1, henlarges.length]
    have hrange := List.mem_range'_1.mp hk
    omega
  obtain ⟨i, rfl⟩ := Nat.exists_eq_add_of_le
    ((Nat.le_add_right _ _).trans (List.mem_range'_1.mp hk).1)
  have hle : spec.declarations.length ≤ i := by
    have hrange := (List.mem_range'_1.mp hk).1
    omega
  have hnew := h.notMem_of_le hle
  refine ⟨hmem, hnew, fun key hkey he => ?_⟩
  obtain ⟨i, e, hi, -, hmemnew, heq⟩ := h.exists_newcomer h' henlarges hmem hnew
  rw [heq] at he
  rcases h'.parentOf?_newcomer henlarges hf' hi hmemnew with hp | ⟨j, hj, hp⟩
  · cases hp.symm.trans he
  · obtain rfl := Scope.declaration.inj (Option.some.inj (hp.symm.trans he))
    exact h.notMem_of_le hj hkey

end Parents

end Adopted

/-- A description that is enlarged by newcomers is adopted as before, and the newcomers with it. -/
theorem adopt_enlarged {g₀ g g' : Graph} {source source' : String} {spec spec' : Description}
    {newcomers : List DeclarationEntry} (h : g₀.adopt source spec = .ok g)
    (h' : g₀.adopt source' spec' = .ok g') (henlarges : spec.Enlarges newcomers spec') :
    g.Enlarged g₀.projects.size g' := by
  have ha := adopt_spec h
  have ha' := adopt_spec h'
  have hf := isForest_of_adopt h
  have hf' := isForest_of_adopt h'
  have hparent : ∀ key ∈ g.declarationsOf g₀.projects.size,
      g'.parentOf? (.declaration key) = g.parentOf? (.declaration key) := fun key hkey =>
    ha.parentOf?_enlarged ha' henlarges hf hf' hkey
  have hdeclaration : ∀ key ∈ g.declarationsOf g₀.projects.size,
      g'.declaration? key = g.declaration? key := by
    intro key hkey
    refine declaration?_eq_of_body ?_ (hparent key hkey) ?_
    · obtain ⟨i, s, hs, rfl⟩ := ha.mem_declarationsOf.mp hkey
      obtain ⟨kind, hkind, hbody⟩ := adopt_body h hs
      obtain ⟨kind', hkind', hbody'⟩ := adopt_body h' (henlarges.getElem? hs)
      obtain rfl := Option.some.inj (hkind.symm.trans hkind')
      have hi := (List.getElem?_eq_some_iff.mp hs).1
      rw [hbody, hbody', henlarges.referencesBefore_eq hi.le]
    · rw [ha.childrenOf_enlarged ha' henlarges hf hf' (Or.inr ⟨key, hkey, rfl⟩),
        List.filter_eq_nil_iff.mpr, List.append_nil]
      intro k hk
      obtain ⟨-, -, hapart⟩ := ha.newcomer_of_mem ha' henlarges hf' hk
      simpa using hapart key hkey
  refine ⟨hdeclaration, ?_, ?_, ?_, ha.bySymbol?_enlarged ha' henlarges, ?_⟩
  · have hperm : ((g'.declarationsOf g₀.projects.size).filter
        (· ∈ g.declarationsOf g₀.projects.size)).Perm (g.declarationsOf g₀.projects.size) := by
      refine (List.perm_ext_iff_of_nodup (ha'.loaded.nodup.filter _) ha.loaded.nodup).mpr ?_
      intro key
      rw [List.mem_filter, decide_eq_true_iff]
      exact and_iff_right_of_imp (ha.mem_of_mem ha' henlarges)
    refine hperm.eq_of_pairwise (fun a b _ _ hlt hlt' => absurd hlt' hlt.asymm)
      (ha'.pairwise_idBelow.filter _) ?_
    refine ha.pairwise_idBelow.imp_of_mem fun {a b} hka hkb hlt => ?_
    obtain ⟨d, e, hd, he, hlt⟩ := hlt
    exact ⟨d, e, (hdeclaration a hka).trans hd, (hdeclaration b hkb).trans he, hlt⟩
  · refine ⟨_, ha.childrenOf_enlarged ha' henlarges hf hf' (Or.inl rfl), fun key hkey => ?_⟩
    obtain ⟨hmem, hnew, -⟩ :=
      ha.newcomer_of_mem ha' henlarges hf' (List.mem_of_mem_filter hkey)
    exact ⟨hmem, hnew⟩
  · intro key hmem hnew child hchild
    have hscope : (Scope.declaration key).Within g₀.projects.size
        (g'.declarationsOf g₀.projects.size) := Or.inr ⟨key, hmem, rfl⟩
    refine ⟨ha'.encloses.children _ hscope child hchild, fun hold => hnew ?_⟩
    have hp := ha'.parentOf?_of_mem_childrenOf hscope hchild
    rw [hparent child hold] at hp
    obtain ⟨k, hk, he⟩ := (ha.encloses.parent child hold _ hp).resolve_left Scope.noConfusion
    exact Scope.declaration.inj he ▸ hk
  · intro key hkey
    obtain ⟨i, s, hs, rfl⟩ := ha.mem_declarationsOf.mp hkey
    obtain ⟨path, hpath, -, hwithin⟩ := ha.exists_path hf hs
    have hpath' := hpath.of_parentOf?_eq fun k hk => hparent k (hwithin k hk)
    refine ⟨path.reverse, fun k hk => hwithin k (List.mem_reverse.mp hk), ?_, ?_⟩
    · exact hpath.scopesWithin_eq (ha.length_path_le hpath hkey)
    · exact hpath'.scopesWithin_eq (ha'.length_path_le hpath' (ha.mem_of_mem ha' henlarges hkey))

end Graph

end Lineage
