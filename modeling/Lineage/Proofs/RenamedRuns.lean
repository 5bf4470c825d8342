import Lineage.Proofs.Accounting
import Lineage.Proofs.Hierarchies
import Lineage.Proofs.Renaming
import Lineage.Proofs.Repetition
import Mathlib.Data.List.Count

/-!
# Runs over renamed projects

A run reads names, scopes and symbol numbers alone and goes by the order of ids, so that it does the
same to a project and to a renamed one: the same links, the same back edges in the same order, the
same hierarchies, and the same counts.
-/

namespace Lineage

/-- A back edge under another name; references that use links stay. -/
def Reference.rename (π : DeclKey → DeclKey) (r : Reference) : Reference :=
  match r.anchor with
  | .bound (.declaration key) => { r with anchor := .bound (.declaration (π key)) }
  | _ => r

/-- Types of one shape lead to the same declarations if their references do. -/
theorem TypeExpr.filterMap_head? {R : Reference → Reference → Prop}
    {f f' : Reference → Option DeclKey} {π : DeclKey → DeclKey}
    (hR : ∀ r q, R r q → f' q = (f r).map π) {ts us : List TypeExpr}
    (h : List.Forall₂ (Same R) ts us) :
    us.filterMap (fun u => u.head?.bind f') = (ts.filterMap fun t => t.head?.bind f).map π := by
  induction h with
  | nil => rfl
  | @cons t u ts us htu _ ih =>
    have hhead := htu.head?
    rw [List.filterMap_cons, List.filterMap_cons, ih]
    generalize t.head? = r? at hhead
    generalize u.head? = q? at hhead
    cases hhead with
    | none => rfl
    | some hrq =>
      rw [Option.bind_some, Option.bind_some, hR _ _ hrq]
      cases f _ <;> rfl

namespace Graph.Renamed

variable {π : DeclKey → DeclKey} {project : ProjectKey} {g g' : Graph}
  (h : Renamed π project g g') (hencloses : g.Encloses project (g.declarationsOf project))
  (hapart : g.SiblingsApart project)

/-! ## Deliveries -/

section Deliveries

include h hencloses hapart

/-- The tops of types of one shape name the same declarations. -/
theorem namedBy_eq {key : DeclKey} (hkey : key ∈ g.declarationsOf project)
    {ts us : Option (List TypeExpr)}
    (hsame : TypeExpr.SameList (Reference.Follows π (g.declarationsOf project) g g') ts us) :
    g'.namedBy project (π key) us = (g.namedBy project key ts).map π :=
  TypeExpr.filterMap_head?
    (fun _ _ hrq => h.named?_eq hencloses hapart hkey hrq.name hrq.symbol) (forall₂_getD hsame)

theorem edges_eq {types : Declaration → Option (List TypeExpr)}
    (htypes : types = Declaration.implementedTypes ∨ types = Declaration.extendedTypes)
    {key : DeclKey} (hkey : key ∈ g.declarationsOf project) (target : DeclKey) :
    g'.edges project types (π key) (π target) =
      (g.edges project types key target).map (.rename π) := by
  obtain ⟨d, e, hd, he, hsame⟩ := h.declaration key hkey
  have hlist : TypeExpr.SameList (Reference.Follows π (g.declarationsOf project) g g') (types d)
      (types e) := by
    rcases htypes with rfl | rfl
    · exact hsame.implementedTypes
    · exact hsame.extendedTypes
  rw [edges_of_declaration? hd, edges_of_declaration? he, Declaration.edges, Declaration.edges,
    h.namedBy_eq hencloses hapart hkey hlist, List.count_map_of_injective _ _ h.injective,
    Declaration.isClassLike, hsame.kind, hsame.name, ← Declaration.isClassLike]
  split
  · rw [List.map_replicate]
    rfl
  · rfl

theorem awaiting_eq {key : DeclKey} (hkey : key ∈ g.declarationsOf project) :
    g'.awaiting project (π key) = (g.awaiting project key).map π := by
  obtain ⟨d, e, hd, he, hsame⟩ := h.declaration key hkey
  rw [awaiting, awaiting, hd, he, Option.map_some, Option.map_some, Option.getD_some,
    Option.getD_some, h.namedBy_eq hencloses hapart hkey hsame.implementedTypes,
    h.namedBy_eq hencloses hapart hkey hsame.extendedTypes, Declaration.awaiting,
    Declaration.awaiting, Declaration.isClassLike, hsame.kind, ← Declaration.isClassLike]
  split <;> simp

theorem edgeCount_eq {key : DeclKey} (hkey : key ∈ g.declarationsOf project) :
    g'.edgeCount project (π key) = g.edgeCount project key := by
  obtain ⟨d, e, hd, he, hsame⟩ := h.declaration key hkey
  rw [edgeCount, edgeCount, hd, he, Option.map_some, Option.map_some, Option.getD_some,
    Option.getD_some, h.namedBy_eq hencloses hapart hkey hsame.implementedTypes,
    h.namedBy_eq hencloses hapart hkey hsame.extendedTypes, Declaration.edgeCount,
    Declaration.edgeCount, Declaration.isClassLike, hsame.kind, ← Declaration.isClassLike,
    List.length_map, List.length_map]

theorem received_eq {types : Declaration → Option (List TypeExpr)}
    (htypes : types = Declaration.implementedTypes ∨ types = Declaration.extendedTypes)
    (target : DeclKey) :
    g'.received project types (g'.declarationsOf project) (π target) =
      (g.received project types (g.declarationsOf project) target).map (.rename π) := by
  rw [received, received, h.declarationsOf, List.flatMap_map, List.map_flatMap]
  exact List.flatMap_congr fun key hkey => h.edges_eq hencloses hapart htypes hkey target

theorem awaited_eq (key : DeclKey) :
    g'.awaited project (g'.declarationsOf project) (π key) =
      g.awaited project (g.declarationsOf project) key := by
  have hall : (g'.declarationsOf project).flatMap (g'.awaiting project) =
      ((g.declarationsOf project).flatMap (g.awaiting project)).map π := by
    rw [h.declarationsOf, List.flatMap_map, List.map_flatMap]
    exact List.flatMap_congr fun key hkey => h.awaiting_eq hencloses hapart hkey
  rw [awaited, awaited, hall]
  exact decide_eq_decide.mpr (List.mem_map_of_injective h.injective)

end Deliveries

/-! ## Counts -/

section Counts

include h

theorem referencesAt_same {key : DeclKey} (hkey : key ∈ g.declarationsOf project) :
    List.Forall₂ (Reference.Follows π (g.declarationsOf project) g g') (g.referencesAt key)
      (g'.referencesAt (π key)) := by
  obtain ⟨d, e, hd, he, hsame⟩ := h.declaration key hkey
  rw [referencesAt, referencesAt, hd, he]
  exact hsame.references

include hencloses hapart

theorem countP_mentions_eq (p : Option DeclKey → Bool) (hp : ∀ o : Option DeclKey,
    p (o.map π) = p o) :
    ((g'.mentions (g'.declarationsOf project)).countP fun m =>
        p (g'.named? project (.declaration m.1) m.2)) =
      (g.mentions (g.declarationsOf project)).countP fun m =>
        p (g.named? project (.declaration m.1) m.2) := by
  rw [Resolved.countP_mentions g' _ fun key r => p (g'.named? project (.declaration key) r),
    Resolved.countP_mentions g _ fun key r => p (g.named? project (.declaration key) r),
    h.declarationsOf, List.map_map]
  congr 1
  refine List.map_congr_left fun key hkey => ?_
  have hall := h.referencesAt_same hkey
  rw [Function.comp_apply]
  generalize g.referencesAt key = rs at hall
  generalize g'.referencesAt (π key) = qs at hall
  induction hall with
  | nil => rfl
  | cons hrq _ ih =>
    rw [List.countP_cons, List.countP_cons, ih,
      h.named?_eq hencloses hapart hkey hrq.name hrq.symbol, hp]

end Counts

end Graph.Renamed

/-! ## Tallies -/

/-- The tallies of runs over a project and over a renamed one agree. -/
theorem Resolved.tally_eq {π : DeclKey → DeclKey} {project : ProjectKey} {g g' r r' : Graph}
    {t t' : Tally} (h : g.Renamed π project g')
    (hencloses : g.Encloses project (g.declarationsOf project))
    (hapart : g.SiblingsApart project)
    (hr : Resolved g project (g.declarationsOf project) r t)
    (hr' : Resolved g' project (g'.declarationsOf project) r' t')
    (hcount : t.declarationsResolved = (g.declarationsOf project).length)
    (hcount' : t'.declarationsResolved = (g'.declarationsOf project).length) : t' = t := by
  have hlinked := h.countP_mentions_eq hencloses hapart Option.isSome (by simp)
  have hdangling := h.countP_mentions_eq hencloses hapart Option.isNone (by simp)
  ext
  · rw [hcount, hcount', h.declarationsOf, List.length_map]
  · rw [hr.seen, hr'.seen, hr.linked, hr'.linked, hr.dangling, hr'.dangling, hlinked, hdangling]
  · rw [hr.linked, hr'.linked, hlinked]
  · rw [hr.dangling, hr'.dangling, hdangling]
  · rw [hr.edges, hr'.edges, h.declarationsOf, List.map_map]
    congr 1
    exact List.map_congr_left fun key hkey => h.edgeCount_eq hencloses hapart hkey
  · have hawaited : g'.awaited project (g'.declarationsOf project) ∘ π =
        g.awaited project (g.declarationsOf project) :=
      funext fun key => h.awaited_eq hencloses hapart key
    rw [hr.built, hr'.built, ← hawaited, ← List.countP_map, ← h.declarationsOf]

/-! ## Resolved declarations -/

theorem Hierarchy.side_same {R : Reference → Reference → Prop} {ts us : Option (List TypeExpr)}
    (h : List.Forall₂ (TypeExpr.Same R) (ts.getD []) (us.getD [])) :
    List.Forall₂ (Level.Same R) (side ts) (side us) := by
  unfold side
  generalize ts.getD [] = ts at h
  generalize us.getD [] = us at h
  cases h with
  | nil => exact .nil
  | cons ht hts => exact .cons ⟨rfl, .cons ht hts⟩ .nil

theorem nonempty?_same {R : Reference → Reference → Prop} {rs qs : List Reference}
    (h : List.Forall₂ R rs qs) : TypeExpr.SameList R (nonempty? (rs.map .reference))
      (nonempty? (qs.map .reference)) := by
  cases h with
  | nil => exact .none
  | cons hr hrs =>
    refine .some (.cons (.reference hr) ?_)
    rw [List.forall₂_map_left_iff, List.forall₂_map_right_iff]
    exact hrs.imp fun _ _ => .reference

theorem mergeSort_rename (π : DeclKey → DeclKey) (rs : List Reference) :
    (rs.map (Reference.rename π)).mergeSort (ascending (·.name)) =
      (rs.mergeSort (ascending (·.name))).map (Reference.rename π) := by
  have hname : ∀ r : Reference, (r.rename π).name = r.name := fun r => by
    rw [Reference.rename]
    split <;> rfl
  refine (List.map_mergeSort fun r _ q _ => ?_).symm
  simp only [ascending, hname]

theorem forall₂_rename {R : Reference → Reference → Prop} {π : DeclKey → DeclKey}
    {rs : List Reference} (h : ∀ r ∈ rs, R r (r.rename π)) :
    List.Forall₂ R rs (rs.map (.rename π)) :=
  List.forall₂_map_right_iff.mpr (List.forall₂_same.mpr h)

/-- Declarations of one shape are resolved to such if their back edges are renamed. -/
theorem Declaration.Same.resolved {R R' : Reference → Reference → Prop} {d e : Declaration}
    {π : DeclKey → DeclKey} (h : d.Same R e) (hd : d.bare = d) (he : e.bare = e)
    (hR : ∀ r ∈ d.references, ∀ q ∈ e.references, R r q → R' r q) {key : DeclKey}
    {implementers extenders : List Reference}
    (hself : R' (.toDeclaration d.name key) (.toDeclaration d.name (π key)))
    (himplementers : ∀ r ∈ implementers, R' r (r.rename π))
    (hextenders : ∀ r ∈ extenders, R' r (r.rename π)) (awaited : Bool) :
    (d.resolved key implementers extenders awaited).Same R'
      (e.resolved (π key) (implementers.map (.rename π)) (extenders.map (.rename π)) awaited) := by
  have hdnone : d.hierarchy = none := hd ▸ rfl
  have henone : e.hierarchy = none := he ▸ rfl
  have hextendedBy := nonempty?_same (forall₂_rename hextenders)
  have hsorted : ∀ r ∈ implementers.mergeSort (ascending (·.name)), R' r (r.rename π) :=
    fun r hr => himplementers r (List.mem_mergeSort.mp hr)
  have himplementedBy := nonempty?_same (forall₂_rename hsorted)
  have hbare : d.Same R' e := h.of_bare hd he hR
    (by rw [← hd, ← he]; exact .none) (by rw [← hd, ← he]; exact .none)
    (by rw [levels?, levels?, hdnone, henone]; exact .none)
  refine h.of_bare (by rw [bare_resolved, hd]) (by rw [bare_resolved, he]) hR ?_ ?_ ?_
  · rwa [extendedBy_resolved, extendedBy_resolved]
  · rwa [implementedBy_resolved, implementedBy_resolved, mergeSort_rename]
  · rw [levels?_resolved hdnone, levels?_resolved henone, h.name]
    split
    · exact .some (List.rel_append (Hierarchy.side_same (forall₂_getD hbare.extendedTypes))
        (.cons ⟨rfl, .cons (.reference hself) .nil⟩
          (Hierarchy.side_same (forall₂_getD hextendedBy))))
    · exact .none

/-! ## Resolved projects -/

namespace Graph.Renamed

variable {π : DeclKey → DeclKey} {project : ProjectKey} {g g' r r' : Graph} {t t' : Tally}

theorem follows_toDeclaration (keys : List DeclKey) {key : DeclKey} (hkey : key ∈ keys)
    (name : String) : Reference.Follows π keys r r' (.toDeclaration name key)
      (.toDeclaration name (π key)) :=
  ⟨rfl, rfl, Or.inr ⟨key, hkey, rfl, rfl⟩⟩

theorem follows_received {types : Declaration → Option (List TypeExpr)} {keys : List DeclKey}
    {target : DeclKey} {q : Reference} (hq : q ∈ g.received project types keys target) :
    Reference.Follows π keys r r' q (q.rename π) := by
  obtain ⟨key, hkey, hq⟩ := List.mem_flatMap.mp hq
  obtain ⟨d, -, -, rfl, -⟩ := mem_edges hq
  exact follows_toDeclaration keys hkey d.name

section Resolved

variable (h : g.Renamed π project g') (hencloses : g.Encloses project (g.declarationsOf project))
  (hapart : g.SiblingsApart project) (hl : g.Loaded project) (hl' : g'.Loaded project)
  (hr : Resolved g project (g.declarationsOf project) r t)
  (hr' : Resolved g' project (g'.declarationsOf project) r' t')
include h hencloses hapart hl hl' hr hr'

/-- A declaration and the one it is renamed to are resolved to such of one shape. -/
theorem resolved_declaration {key : DeclKey} (hkey : key ∈ g.declarationsOf project) :
    ∃ d e, r.declaration? key = some d ∧ r'.declaration? (π key) = some e ∧
      d.Same (Reference.Follows π (g.declarationsOf project) r r') e := by
  have hkey' : π key ∈ g'.declarationsOf project := by
    rw [h.declarationsOf]
    exact List.mem_map_of_mem hkey
  obtain ⟨d, e, hd, he, hsame⟩ := h.declaration key hkey
  obtain ⟨d', hd', -, hdr⟩ := hr.exists_resolved hl hkey
  obtain ⟨e', he', -, her⟩ := hr'.exists_resolved hl' hkey'
  obtain ⟨d'', hd'', hdbare⟩ := hl.declaration key hkey
  obtain ⟨e'', he'', hebare⟩ := hl'.declaration (π key) hkey'
  obtain rfl := Option.some.inj (hd.symm.trans hd')
  obtain rfl := Option.some.inj (he.symm.trans he')
  obtain rfl := Option.some.inj (hd.symm.trans hd'')
  obtain rfl := Option.some.inj (he.symm.trans he'')
  refine ⟨_, _, hdr, her, ?_⟩
  rw [h.received_eq hencloses hapart (.inl rfl), h.received_eq hencloses hapart (.inr rfl),
    h.awaited_eq hencloses hapart]
  refine hsame.resolved hdbare hebare ?_ (follows_toDeclaration _ hkey _)
    (fun q hq => follows_received hq) (fun q hq => follows_received hq) _
  intro x hx y hy hxy
  have hx : x ∈ g.referencesAt key := by rwa [referencesAt, hd]
  have hy : y ∈ g'.referencesAt (π key) := by rwa [referencesAt, he]
  refine ⟨hxy.name, hxy.symbol, ?_⟩
  rw [hr.settled hl hkey x hx, hr'.settled hl' hkey' y hy,
    h.named?_eq hencloses hapart hkey hxy.name hxy.symbol]
  cases hnamed : g.named? project (.declaration key) x with
  | none => exact Or.inl ⟨rfl, rfl⟩
  | some target => exact Or.inr ⟨target, hl.closed key hkey x hx target hnamed, rfl, rfl⟩

/-- Runs over a project and over a renamed one leave a project and a renamed one. -/
theorem resolved : r.Renamed π project r' := by
  have hkeys : r.declarationsOf project = g.declarationsOf project :=
    hr.alike.declarationsOf_eq project
  refine ⟨h.injective, ?_, ?_, ?_, ?_, ?_, ?_, ?_⟩
  · rw [hr.alike.size, hr'.alike.size, h.size]
  · rw [hr.alike.project?_eq, hr'.alike.project?_eq, h.name]
  · rw [hr.alike.declarationsOf_eq, hr'.alike.declarationsOf_eq, h.declarationsOf]
  · intro symbol
    rw [hr.alike.bySymbol?_eq, hr'.alike.bySymbol?_eq, h.bySymbol?]
  · rw [hkeys]
    exact fun key hkey => h.resolved_declaration hencloses hapart hl hl' hr hr' hkey
  · intro key hkey
    rw [hkeys] at hkey
    rw [hr.alike.parentOf?_eq, hr'.alike.parentOf?_eq, h.parentOf? key hkey]
  · intro scope hscope
    rw [hkeys] at hscope
    rw [hr.alike.childrenOf_eq, hr'.alike.childrenOf_eq]
    exact h.childrenOf scope hscope

end Resolved

end Graph.Renamed

end Lineage
