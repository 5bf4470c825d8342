import Lineage.Proofs.Renaming
import Lineage.Proofs.Accounting
import Lineage.Report

/-!
# Reports on renamed projects

What is shown of a project names declarations by their names and ids and lists them by id, so that a
renamed project has the same JSON form, the same figures, trees and dangling references.
-/

namespace Lineage

/-! ## Texts -/

namespace TypeExpr

/-- The text of a list depends on the texts of its members alone. -/
theorem textOf_congr {ts us : List TypeExpr}
    (h : List.Forall₂ (fun t u => u.text = t.text) ts us) (separator : String) :
    textOf separator us = textOf separator ts := by
  have hstep : ∀ t u ts, textOf separator (t :: u :: ts) =
      t.text ++ separator ++ textOf separator (u :: ts) := fun t u ts => by
    rw [textOf]
    simp
  induction h with
  | nil => rfl
  | cons htu hrest ih =>
    cases hrest with
    | nil => rw [textOf, textOf, htu]
    | cons _ _ => rw [hstep, hstep, htu, ih]

variable {R : Reference → Reference → Prop} (hR : ∀ r q, R r q → q.name = r.name)
include hR

/-- Types of one shape have one text if their references have the same names. -/
theorem Same.text_eq {t u : TypeExpr} (h : Same R t u) : u.text = t.text := by
  refine h.induction_parts ?reference ?applied ?tuple ?union ?_ ?_ ?_ ?_
  case reference => exact fun r q hr => hR r q hr
  case applied =>
    intro r q ts us hr ih
    cases ih with
    | nil => exact hR r q hr
    | cons ht hts => rw [text, text, textOf_congr (.cons ht hts), hR r q hr] <;> simp
  case tuple => exact fun ts us ih => by rw [text, text, textOf_congr ih]
  case union => exact fun ts us ih => by rw [text, text, textOf_congr ih]
  all_goals intros; rfl

theorem Same.textOf_eq {ts us : List TypeExpr} (h : List.Forall₂ (Same R) ts us)
    (separator : String) : textOf separator us = textOf separator ts :=
  textOf_congr (h.imp fun _ _ htu => htu.text_eq hR) separator

end TypeExpr

namespace Hierarchy.Level.Same

variable {R : Reference → Reference → Prop} (hR : ∀ r q, R r q → q.name = r.name)
include hR

theorem encode_eq {l m : Level} (h : Same R l m) : m.encode = l.encode := by
  have htypes : m.types.map (fun t => Json.string t.text) =
      l.types.map (fun t => Json.string t.text) := by
    have htexts := h.types
    generalize l.types = ts at htexts
    generalize m.types = us at htexts
    induction htexts with
    | nil => rfl
    | cons htu _ ih => rw [List.map_cons, List.map_cons, ih, htu.text_eq hR]
  rw [encode, encode, htypes, h.isTarget]

theorem label_eq {l m : Level} (h : Same R l m) : m.label = l.label := by
  rw [label, label, TypeExpr.Same.textOf_eq hR h.types, h.isTarget]

end Hierarchy.Level.Same

theorem Graph.branch_eq {R : Reference → Reference → Prop} (hR : ∀ r q, R r q → q.name = r.name)
    {title : String} {ts us : Option (List TypeExpr)} (h : TypeExpr.SameList R ts us) :
    branch title us = branch title ts := by
  have hall := forall₂_getD h
  unfold branch
  generalize ts.getD [] = ts at hall
  generalize us.getD [] = us at hall
  cases hall with
  | nil => rfl
  | cons ht hts =>
    exact congrArg (fun text => [Tree.node (title ++ Markup.escape text) []])
      (TypeExpr.Same.textOf_eq hR (.cons ht hts) ", ")

/-! ## JSON forms -/

namespace Graph.Renamed

variable {π : DeclKey → DeclKey} {project : ProjectKey} {g g' : Graph}
  (h : Renamed π project g g')
include h

theorem shownId?_eq {r q : Reference}
    (hrq : Reference.Follows π (g.declarationsOf project) g g' r q) :
    g'.shownId? q = g.shownId? r := by
  rcases hrq.target with ⟨hr, hq⟩ | ⟨key, hkey, hr, hq⟩
  · rw [shownId?, shownId?, hr, hq]
  · obtain ⟨d, e, hd, he, hsame⟩ := h.declaration key hkey
    rw [shownId?, shownId?, hr, hq]
    simp only [hd, he, Option.map_some, hsame.id]

omit h in
/-- The JSON forms of a list are those of its members. -/
theorem encodeTypes?_congr {ts us : List TypeExpr}
    (hts : List.Forall₂ (fun t u => g'.encodeType? u = g.encodeType? t) ts us) :
    g'.encodeTypes? us = g.encodeTypes? ts := by
  induction hts with
  | nil => rfl
  | cons ht _ ih => rw [encodeTypes?, encodeTypes?, ht, ih]

theorem encodeType?_eq {t u : TypeExpr}
    (htu : t.Same (Reference.Follows π (g.declarationsOf project) g g') u) :
    g'.encodeType? u = g.encodeType? t := by
  refine htu.induction_parts ?reference ?applied ?tuple ?union ?_ ?_ ?_ ?_
  case reference => exact fun r q hr => by rw [encodeType?, encodeType?, h.shownId?_eq hr, hr.name]
  case applied =>
    intro r q ts us hr ih
    cases ih with
    | nil => rw [encodeType?, encodeType?, h.shownId?_eq hr, hr.name]
    | cons ht hts =>
      rw [encodeType?, encodeType?, h.shownId?_eq hr, hr.name, encodeTypes?_congr (.cons ht hts)]
        <;> simp
  case tuple => exact fun ts us ih => by rw [encodeType?, encodeType?, encodeTypes?_congr ih]
  case union => exact fun ts us ih => by rw [encodeType?, encodeType?, encodeTypes?_congr ih]
  all_goals intros; rfl

theorem encodeTypes?_eq {ts us : List TypeExpr} (htu : List.Forall₂
    (TypeExpr.Same (Reference.Follows π (g.declarationsOf project) g g')) ts us) :
    g'.encodeTypes? us = g.encodeTypes? ts :=
  encodeTypes?_congr (htu.imp fun _ _ ht => h.encodeType?_eq ht)

theorem encodeList?_eq (name : String) {ts us : Option (List TypeExpr)}
    (htu : TypeExpr.SameList (Reference.Follows π (g.declarationsOf project) g g') ts us) :
    g'.encodeList? name us = g.encodeList? name ts := by
  have hall := forall₂_getD htu
  unfold encodeList?
  generalize ts.getD [] = ts at hall
  generalize us.getD [] = us at hall
  cases hall with
  | nil => rfl
  | cons ht hts =>
    exact congrArg (Option.map fun items => [(name, Json.array items)])
      (h.encodeTypes?_eq (.cons ht hts))

theorem encode?_eq {key : DeclKey} (hkey : key ∈ g.declarationsOf project) :
    g'.encode? (π key) = g.encode? key := by
  obtain ⟨d, e, hd, he, hsame⟩ := h.declaration key hkey
  have hlevels : ∀ {ls ms : Option (List Hierarchy.Level)}, Option.Rel (List.Forall₂
      (Hierarchy.Level.Same (Reference.Follows π (g.declarationsOf project) g g'))) ls ms →
      (ms.elim [] fun ms => [("type_hierarchy", Json.array (ms.map (·.encode)))]) =
        ls.elim [] fun ls => [("type_hierarchy", Json.array (ls.map (·.encode)))] :=
    fun hlm => by
      cases hlm with
      | none => rfl
      | @some ls ms hlm =>
        have hmap : ms.map (·.encode) = ls.map (·.encode) := by
          induction hlm with
          | nil => rfl
          | cons hl _ ih =>
            rw [List.map_cons, List.map_cons, ih, hl.encode_eq fun _ _ hrq => hrq.name]
        exact congrArg (fun items => [("type_hierarchy", Json.array items)]) hmap
  rw [encode?, encode?, hd, he, Option.bind_some, Option.bind_some, encodeDeclaration?,
    encodeDeclaration?, h.encodeList?_eq _ hsame.extendedTypes,
    h.encodeList?_eq _ hsame.extendedBy, h.encodeList?_eq _ hsame.implementedTypes,
    h.encodeList?_eq _ hsame.implementedBy, hlevels hsame.levels, hsame.id, hsame.name,
    hsame.kind]

/-! ## Figures -/

omit h in
/-- A reference that follows the renaming is linked like the other one. -/
theorem isLinked_eq {r q : Reference}
    (hrq : Reference.Follows π (g.declarationsOf project) g g' r q) :
    g'.isLinked q = g.isLinked r := by
  rcases hrq.target with ⟨hr, hq⟩ | ⟨key, -, hr, hq⟩
  · rw [isLinked, isLinked, hr, hq]
  · rw [isLinked, isLinked, hr, hq]
    rfl

theorem countP_referencesIn_eq (p : Bool → Bool) :
    ((g'.referencesIn project).countP fun e => p (g'.isLinked e.2)) =
      (g.referencesIn project).countP fun e => p (g.isLinked e.2) := by
  rw [Resolved.countP_referencesIn g' project fun r => p (g'.isLinked r),
    Resolved.countP_referencesIn g project fun r => p (g.isLinked r), h.declarationsOf,
    List.map_map]
  congr 1
  refine List.map_congr_left fun key hkey => ?_
  obtain ⟨d, e, hd, he, hsame⟩ := h.declaration key hkey
  rw [Function.comp_apply, hd, he, Option.map_some, Option.map_some, Option.getD_some,
    Option.getD_some]
  have hall := hsame.references
  generalize d.references = rs at hall
  generalize e.references = qs at hall
  induction hall with
  | nil => rfl
  | cons hrq _ ih => rw [List.countP_cons, List.countP_cons, ih, isLinked_eq hrq]

theorem coverage_eq : g'.coverage project = g.coverage project := by
  have hlinked := h.countP_referencesIn_eq id
  have hdangling := h.countP_referencesIn_eq (!·)
  have hstored : ∀ key ∈ g.declarationsOf project,
      (g'.declaration? (π key)).any (·.hierarchy.isSome) =
        (g.declaration? key).any (·.hierarchy.isSome) := fun key hkey => by
    obtain ⟨d, e, hd, he, hsame⟩ := h.declaration key hkey
    have hlevels : ∀ d : Declaration, d.hierarchy.isSome = d.levels?.isSome := fun d => by
      rw [Declaration.levels?, Option.isSome_map]
    rw [hd, he, Option.any_some, Option.any_some, hlevels, hlevels]
    have hrel := hsame.levels
    generalize d.levels? = ls at hrel
    generalize e.levels? = ms at hrel
    cases hrel <;> rfl
  simp only [coverage, Coverage.mk.injEq]
  refine ⟨?_, ?_, hlinked, hdangling, ?_⟩
  · rw [h.declarationsOf, List.length_map]
  · rw [h.classesOf_eq, List.length_map]
  · rw [h.classesOf_eq, List.countP_map]
    exact List.countP_congr fun key hkey => by
      rw [Function.comp_apply, hstored key (List.mem_of_mem_filter hkey)]

/-! ## Names -/

variable (hencloses : g.Encloses project (g.declarationsOf project))
include hencloses

/-- Dangling references are listed under the same full names in the same order. -/
theorem danglingRows_eq : g'.danglingRows project = g.danglingRows project := by
  have hrows : ∀ (g : Graph) (keys : List DeclKey),
      (((keys.flatMap fun key => (((g.declaration? key).map (·.references)).getD []).map
        fun r => (key, r)).filter fun e => !g.isLinked e.2).map fun e =>
          (g.fullName e.1, e.2.name)) =
      keys.flatMap fun key => ((((g.declaration? key).map (·.references)).getD []).filter
        fun r => !g.isLinked r).map fun r => (g.fullName key, r.name) := fun g keys => by
    simp only [List.filter_flatMap, List.map_flatMap, List.filter_map, List.map_map]
    rfl
  rw [danglingRows, danglingRows, danglingIn, danglingIn, referencesIn, referencesIn, hrows,
    hrows, h.declarationsOf, List.flatMap_map]
  refine List.flatMap_congr fun key hkey => ?_
  obtain ⟨d, e, hd, he, hsame⟩ := h.declaration key hkey
  have hall := hsame.references
  simp only [hd, he, Option.map_some, Option.getD_some, h.fullName_eq hencloses hkey]
  generalize d.references = rs at hall
  generalize e.references = qs at hall
  induction hall with
  | nil => rfl
  | @cons r q rs qs hrq _ ih =>
    rw [List.filter_cons, List.filter_cons, isLinked_eq hrq]
    split
    · rw [List.map_cons, List.map_cons, ih, hrq.name]
    · exact ih

theorem tree?_eq {key : DeclKey} (hkey : key ∈ g.declarationsOf project) :
    g'.tree? (π key) = g.tree? key := by
  obtain ⟨d, e, hd, he, hsame⟩ := h.declaration key hkey
  have hname : ∀ r q, Reference.Follows π (g.declarationsOf project) g g' r q →
      q.name = r.name := fun _ _ hrq => hrq.name
  have hlabels : (e.levels?.getD []).map (·.label) = (d.levels?.getD []).map (·.label) := by
    have hlevels := forall₂_getD hsame.levels
    generalize d.levels?.getD [] = ls at hlevels
    generalize e.levels?.getD [] = ms at hlevels
    induction hlevels with
    | nil => rfl
    | cons hl _ ih => rw [List.map_cons, List.map_cons, ih, hl.label_eq hname]
  simp only [tree?, hd, he, Option.bind_eq_bind, Option.bind_some, hsame.kind,
    h.fullName_eq hencloses hkey, hlabels, branch_eq hname hsame.implementedTypes,
    branch_eq hname hsame.implementedBy]

/-! ## Projects -/

omit hencloses in
/-- What is made of each class of a project is the same. -/
theorem mapM_classesOf_eq {α : Type} {f f' : DeclKey → Option α}
    (hf : ∀ key ∈ g.declarationsOf project, f' (π key) = f key) :
    (g'.classesOf project).mapM f' = (g.classesOf project).mapM f := by
  have hall : ∀ keys : List DeclKey, (∀ key ∈ keys, f' (π key) = f key) →
      (keys.map π).mapM f' = keys.mapM f := fun keys hkeys => by
    induction keys with
    | nil => rfl
    | cons key keys ih =>
      rw [List.forall_mem_cons] at hkeys
      rw [List.map_cons, List.mapM_cons, List.mapM_cons, hkeys.1, ih hkeys.2]
  rw [h.classesOf_eq]
  exact hall _ fun key hkey => hf key (List.mem_of_mem_filter hkey)

omit hencloses in
theorem encodeProject?_eq : g'.encodeProject? project = g.encodeProject? project := by
  have hname := h.name
  have hclasses := h.mapM_classesOf_eq fun key hkey => h.encode?_eq hkey
  rw [encodeProject?, encodeProject?, hclasses, h.coverage_eq]
  cases hp : g.project? project <;> cases hp' : g'.project? project <;> simp_all

theorem projectItems?_eq : g'.projectItems? project = g.projectItems? project := by
  have hname := h.name
  have hclasses := h.mapM_classesOf_eq fun key hkey => h.tree?_eq hencloses hkey
  rw [projectItems?, projectItems?, hclasses, h.coverage_eq]
  cases hp : g.project? project <;> cases hp' : g'.project? project <;> simp_all

end Graph.Renamed

end Lineage
