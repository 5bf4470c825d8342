import Lineage.Proofs.Shapes

/-!
# One shape

When two types, annotations or declarations have the same shape, their references in the same places
being related in a way of one's choice. What is built twice from one description has the same shape.
-/

namespace Lineage

/-! ## Related values -/

/-- Related values stay related under any relation that holds between the two of them. -/
theorem rel_imp_mem {α β : Type} {R R' : α → β → Prop} {a? : Option α} {b? : Option β}
    (h : Option.Rel R a? b?) (hR : ∀ a, a? = some a → ∀ b, b? = some b → R a b → R' a b) :
    Option.Rel R' a? b? := by
  cases h with
  | none => exact .none
  | some h => exact .some (hR _ rfl _ rfl h)

theorem forall₂_imp_mem {α β : Type} {R R' : α → β → Prop} {as : List α} {bs : List β}
    (h : List.Forall₂ R as bs) (hR : ∀ a ∈ as, ∀ b ∈ bs, R a b → R' a b) :
    List.Forall₂ R' as bs := by
  induction h with
  | nil => exact .nil
  | cons hab _ ih =>
    exact .cons (hR _ List.mem_cons_self _ List.mem_cons_self hab) (ih fun a ha b hb =>
      hR a (List.mem_cons_of_mem _ ha) b (List.mem_cons_of_mem _ hb))

/-! ## Types of one shape -/

/-- Two types have the same shape, their references in the same places being related. -/
inductive TypeExpr.Same (R : Reference → Reference → Prop) : TypeExpr → TypeExpr → Prop
  | reference {r q : Reference} : R r q → Same R (.reference r) (.reference q)
  | applied {r q : Reference} {ts us : List TypeExpr} : R r q → List.Forall₂ (Same R) ts us →
    Same R (.applied r ts) (.applied q us)
  | tuple {ts us : List TypeExpr} : List.Forall₂ (Same R) ts us → Same R (.tuple ts) (.tuple us)
  | union {ts us : List TypeExpr} : List.Forall₂ (Same R) ts us → Same R (.union ts) (.union us)
  | intrinsic (name : String) : Same R (.intrinsic name) (.intrinsic name)
  | literal (value : String) : Same R (.literal value) (.literal value)
  | unknown (name : String) : Same R (.unknown name) (.unknown name)
  | blank : Same R .blank .blank

namespace TypeExpr.Same

variable {R R' : Reference → Reference → Prop}

theorem head? {t u : TypeExpr} (h : Same R t u) : Option.Rel R t.head? u.head? := by
  cases h with
  | reference hr => exact .some hr
  | applied hr _ => exact .some hr
  | tuple | union | intrinsic | literal | unknown | blank => exact .none

/-- Types of one shape are taken apart together, with what is known of the pairs of their parts. -/
@[elab_as_elim]
theorem induction_parts {motive : TypeExpr → TypeExpr → Prop}
    (reference : ∀ r q, R r q → motive (.reference r) (.reference q))
    (applied : ∀ r q ts us, R r q → List.Forall₂ motive ts us →
      motive (.applied r ts) (.applied q us))
    (tuple : ∀ ts us, List.Forall₂ motive ts us → motive (.tuple ts) (.tuple us))
    (union : ∀ ts us, List.Forall₂ motive ts us → motive (.union ts) (.union us))
    (intrinsic : ∀ name, motive (.intrinsic name) (.intrinsic name))
    (literal : ∀ value, motive (.literal value) (.literal value))
    (unknown : ∀ name, motive (.unknown name) (.unknown name)) (blank : motive .blank .blank)
    {t u : TypeExpr} (h : Same R t u) : motive t u := by
  have hparts : ∀ {ts us : List TypeExpr}, List.Forall₂ (Same R) ts us →
      (∀ t ∈ ts, ∀ {u}, Same R t u → motive t u) → List.Forall₂ motive ts us := fun hts ih =>
    forall₂_imp_mem hts fun t ht _ _ htu => ih t ht htu
  induction t using induction_children generalizing u with
  | reference r =>
    cases h with
    | reference hr => exact reference r _ hr
  | applied r ts ih =>
    cases h with
    | applied hr hts => exact applied r _ ts _ hr (hparts hts ih)
  | tuple ts ih =>
    cases h with
    | tuple hts => exact tuple ts _ (hparts hts ih)
  | union ts ih =>
    cases h with
    | union hts => exact union ts _ (hparts hts ih)
  | intrinsic name =>
    cases h
    exact intrinsic name
  | literal value =>
    cases h
    exact literal value
  | unknown name =>
    cases h
    exact unknown name
  | blank =>
    cases h
    exact blank

theorem referencesOf_of_parts {ts us : List TypeExpr}
    (h : List.Forall₂ (fun t u => List.Forall₂ R t.references u.references) ts us) :
    List.Forall₂ R (TypeExpr.referencesOf ts) (TypeExpr.referencesOf us) := by
  induction h with
  | nil => exact .nil
  | cons ht _ ih => exact List.rel_append ht ih

/-- The references of types of one shape are related in their order. -/
theorem references {t u : TypeExpr} (h : Same R t u) :
    List.Forall₂ R t.references u.references := by
  refine h.induction_parts ?reference ?applied ?tuple ?union ?_ ?_ ?_ ?_
  case reference => exact fun r q hr => .cons hr .nil
  case applied => exact fun r q ts us hr ih => .cons hr (referencesOf_of_parts ih)
  case tuple => exact fun ts us ih => referencesOf_of_parts ih
  case union => exact fun ts us ih => referencesOf_of_parts ih
  all_goals intros; exact .nil

theorem referencesOf {ts us : List TypeExpr} (h : List.Forall₂ (Same R) ts us) :
    List.Forall₂ R (TypeExpr.referencesOf ts) (TypeExpr.referencesOf us) :=
  referencesOf_of_parts (h.imp fun _ _ ht => ht.references)

/-- A type has the same shape under any relation that holds between its references. -/
theorem imp {t u : TypeExpr} (h : Same R t u)
    (hR : ∀ r ∈ t.references, ∀ q ∈ u.references, R r q → R' r q) : Same R' t u := by
  have hlist : ∀ {ts us : List TypeExpr},
      List.Forall₂ (fun t u => (∀ r ∈ t.references, ∀ q ∈ u.references, R r q → R' r q) →
        Same R' t u) ts us →
      (∀ r ∈ TypeExpr.referencesOf ts, ∀ q ∈ TypeExpr.referencesOf us, R r q → R' r q) →
      List.Forall₂ (Same R') ts us := fun hts hR =>
    forall₂_imp_mem hts fun t ht u hu htu => htu fun r hr q hq =>
      hR r (references_subset_referencesOf ht hr) q (references_subset_referencesOf hu hq)
  revert hR
  refine h.induction_parts ?reference ?applied ?tuple ?union ?intrinsic ?literal ?unknown ?blank
  case reference =>
    exact fun r q hr hR => .reference (hR r List.mem_cons_self q List.mem_cons_self hr)
  case applied =>
    intro r q ts us hr ih hR
    refine .applied (hR r List.mem_cons_self q List.mem_cons_self hr) (hlist ih ?_)
    exact fun r hr q hq => hR r (List.mem_cons_of_mem _ hr) q (List.mem_cons_of_mem _ hq)
  case tuple => exact fun ts us ih hR => .tuple (hlist ih hR)
  case union => exact fun ts us ih hR => .union (hlist ih hR)
  case intrinsic => exact fun name _ => .intrinsic name
  case literal => exact fun value _ => .literal value
  case unknown => exact fun name _ => .unknown name
  case blank => exact fun _ => .blank

end TypeExpr.Same

/-! ## Types of one description -/

namespace TypeEntry

variable {P P' : Reference → Prop} {R : Reference → Reference → Prop}

mutual

theorem same_of_describes (hR : ∀ name symbol r q, r.Stands P name symbol →
    q.Stands P' name symbol → R r q) (s : TypeEntry) {t u : TypeExpr} (ht : s.Describes P t)
    (hu : s.Describes P' u) : t.Same R u := by
  match s, ht, hu with
  | .reference _ _ _, .reference _ hr, .reference _ hq => exact .reference (hR _ _ _ _ hr hq)
  | .reference _ _ _, .reference hnil _, .applied hne _ _ => exact absurd hnil hne
  | .reference _ _ _, .applied hne _ _, .reference hnil _ => exact absurd hnil hne
  | .reference _ _ (some arguments), .applied _ hr hts, .applied _ hq hus =>
    exact .applied (hR _ _ _ _ hr hq) (forall₂_same_of_describes hR arguments hts hus)
  | .tuple elements, .tuple hts, .tuple hus =>
    exact .tuple (forall₂_same_of_describes hR elements hts hus)
  | .union members, .union hts, .union hus =>
    exact .union (forall₂_same_of_describes hR members hts hus)
  | .intrinsic _, .intrinsic _, .intrinsic _ => exact .intrinsic _
  | .literal _, .literal _, .literal _ => exact .literal _
  | .unknown _, .unknown _, .unknown _ => exact .unknown _

theorem forall₂_same_of_describes (hR : ∀ name symbol r q, r.Stands P name symbol →
    q.Stands P' name symbol → R r q) (ss : List TypeEntry) {ts us : List TypeExpr}
    (hts : List.Forall₂ (Describes P) ss ts) (hus : List.Forall₂ (Describes P') ss us) :
    List.Forall₂ (TypeExpr.Same R) ts us := by
  match ss, hts, hus with
  | [], .nil, .nil => exact .nil
  | s :: ss, .cons ht hts, .cons hu hus =>
    exact .cons (same_of_describes hR s ht hu) (forall₂_same_of_describes hR ss hts hus)

end

end TypeEntry

/-! ## Declarations of one shape -/

/-- Two annotations differ at most in the references of their types. -/
structure Decorator.Same (R : Reference → Reference → Prop) (a b : Decorator) : Prop where
  name : b.name = a.name
  type : Option.Rel (TypeExpr.Same R) a.type b.type
  arguments : b.arguments = a.arguments

/-- Two levels of chains differ at most in the references of their types. -/
structure Hierarchy.Level.Same (R : Reference → Reference → Prop) (l m : Hierarchy.Level) :
    Prop where
  isTarget : m.isTarget = l.isTarget
  types : List.Forall₂ (TypeExpr.Same R) l.types m.types

/-- Two lists of types have as many members, of the same shapes in the same order. -/
abbrev TypeExpr.SameList (R : Reference → Reference → Prop) : Option (List TypeExpr) →
    Option (List TypeExpr) → Prop :=
  Option.Rel (List.Forall₂ (TypeExpr.Same R))

/-- Two declarations differ at most in their scopes and in the references of their types. -/
structure Declaration.Same (R : Reference → Reference → Prop) (d e : Declaration) : Prop where
  id : e.id = d.id
  name : e.name = d.name
  kind : e.kind = d.kind
  type : Option.Rel (TypeExpr.Same R) d.type e.type
  inheritedFrom : Option.Rel (TypeExpr.Same R) d.inheritedFrom e.inheritedFrom
  overwrites : Option.Rel (TypeExpr.Same R) d.overwrites e.overwrites
  extendedTypes : TypeExpr.SameList R d.extendedTypes e.extendedTypes
  extendedBy : TypeExpr.SameList R d.extendedBy e.extendedBy
  implementedTypes : TypeExpr.SameList R d.implementedTypes e.implementedTypes
  implementedBy : TypeExpr.SameList R d.implementedBy e.implementedBy
  decorators : Option.Rel (List.Forall₂ (Decorator.Same R)) d.decorators e.decorators
  levels : Option.Rel (List.Forall₂ (Hierarchy.Level.Same R)) d.levels? e.levels?

/-! ## Declarations of one description -/

section Common

variable {α β γ : Type} {R : β → γ → Prop} {S : α → β → Prop} {T : α → γ → Prop}

/-- What two values have in common with a third one relates them to each other. -/
theorem rel_of_common {a? : Option α} {b? : Option β} {c? : Option γ}
    (hb : Option.Rel S a? b?) (hc : Option.Rel T a? c?) (h : ∀ a b c, S a b → T a c → R b c) :
    Option.Rel R b? c? := by
  cases hb with
  | none =>
    cases hc
    exact .none
  | some hb =>
    cases hc with
    | some hc => exact .some (h _ _ _ hb hc)

theorem forall₂_of_common {as : List α} {bs : List β} {cs : List γ}
    (hb : List.Forall₂ S as bs) (hc : List.Forall₂ T as cs)
    (h : ∀ a b c, S a b → T a c → R b c) : List.Forall₂ R bs cs := by
  induction hb generalizing cs with
  | nil =>
    cases hc
    exact .nil
  | cons hb _ ih =>
    cases hc with
    | cons hc hcs => exact .cons (h _ _ _ hb hc) (ih hcs)

theorem Lists.of_common {items : List α} {bs : Option (List β)} {cs : Option (List γ)}
    (hb : Lists S items bs) (hc : Lists T items cs) (h : ∀ a b c, S a b → T a c → R b c) :
    Option.Rel (List.Forall₂ R) bs cs :=
  rel_of_common hb hc fun _ _ _ hb hc => forall₂_of_common hb hc h

end Common

section Described

variable {P P' : Reference → Prop} {R : Reference → Reference → Prop}
  (hR : ∀ name symbol r q, r.Stands P name symbol → q.Stands P' name symbol → R r q)
include hR

/-- Two declarations of one description differ at most in their scopes and their references. -/
theorem DeclarationEntry.same_of_describes {s : DeclarationEntry} {d e : Declaration}
    (hd : s.Describes P d) (he : s.Describes P' e) : d.Same R e := by
  have htype : ∀ (s : TypeEntry) (t u : TypeExpr), s.Describes P t → s.Describes P' u →
      t.Same R u := fun s _ _ => TypeEntry.same_of_describes hR s
  have hdecorator : ∀ (s : DecoratorEntry) (a b : Decorator), s.Describes P a →
      s.Describes P' b → a.Same R b := fun s a b ha hb =>
    ⟨hb.name.trans ha.name.symm, rel_of_common ha.type hb.type htype,
      hb.arguments.trans ha.arguments.symm⟩
  exact {
    id := he.id.trans hd.id.symm
    name := he.name.trans hd.name.symm
    kind := Option.some.inj (he.kind.symm.trans hd.kind)
    type := rel_of_common hd.type he.type htype
    inheritedFrom := rel_of_common hd.inheritedFrom he.inheritedFrom htype
    overwrites := rel_of_common hd.overwrites he.overwrites htype
    extendedTypes := hd.extendedTypes.of_common he.extendedTypes htype
    extendedBy := by rw [hd.extendedBy, he.extendedBy]; exact .none
    implementedTypes := hd.implementedTypes.of_common he.implementedTypes htype
    implementedBy := by rw [hd.implementedBy, he.implementedBy]; exact .none
    decorators := hd.decorators.of_common he.decorators hdecorator
    levels := by
      rw [Declaration.levels?, Declaration.levels?, hd.hierarchy, he.hierarchy]
      exact .none }

end Described

/-! ## References of declarations -/

theorem forall₂_getD {α β : Type} {R : α → β → Prop} {as : Option (List α)} {bs : Option (List β)}
    (h : Option.Rel (List.Forall₂ R) as bs) : List.Forall₂ R (as.getD []) (bs.getD []) := by
  cases h with
  | none => exact .nil
  | some h => exact h

theorem Declaration.mem_types {d : Declaration} {t : TypeExpr} : t ∈ d.types ↔
    d.type = some t ∨ d.inheritedFrom = some t ∨ d.overwrites = some t ∨
      t ∈ d.extendedTypes.getD [] ∨ t ∈ d.extendedBy.getD [] ∨ t ∈ d.implementedTypes.getD [] ∨
      ∃ a ∈ d.decorators.getD [], a.type = some t := by
  simp only [types, List.mem_append, Option.mem_toList, List.mem_filterMap, or_assoc]

namespace Declaration.Same

variable {R : Reference → Reference → Prop} {d e : Declaration}

theorem types (h : Same R d e) : List.Forall₂ (TypeExpr.Same R) d.types e.types := by
  have hone : ∀ {t? u? : Option TypeExpr}, Option.Rel (TypeExpr.Same R) t? u? →
      List.Forall₂ (TypeExpr.Same R) t?.toList u?.toList := fun h => by
    cases h with
    | none => exact .nil
    | some h => exact .cons h .nil
  have hdecorators : List.Forall₂ (TypeExpr.Same R) ((d.decorators.getD []).filterMap (·.type))
      ((e.decorators.getD []).filterMap (·.type)) :=
    List.rel_filterMap (fun _ _ h => h.type) (forall₂_getD h.decorators)
  exact List.rel_append (List.rel_append (List.rel_append (List.rel_append (List.rel_append
    (List.rel_append (hone h.type) (hone h.inheritedFrom)) (hone h.overwrites))
    (forall₂_getD h.extendedTypes)) (forall₂_getD h.extendedBy)) (forall₂_getD h.implementedTypes))
    hdecorators

theorem references (h : Same R d e) : List.Forall₂ R d.references e.references :=
  TypeExpr.Same.referencesOf h.types

/-- What is built from declarations of one shape by a run alone is all that has to be compared. -/
theorem of_bare {R' : Reference → Reference → Prop} {d' e' : Declaration} (h : Same R d e)
    (hd : d'.bare = d) (he : e'.bare = e)
    (hR : ∀ r ∈ d.references, ∀ q ∈ e.references, R r q → R' r q)
    (extendedBy : TypeExpr.SameList R' d'.extendedBy e'.extendedBy)
    (implementedBy : TypeExpr.SameList R' d'.implementedBy e'.implementedBy)
    (levels : Option.Rel (List.Forall₂ (Hierarchy.Level.Same R')) d'.levels? e'.levels?) :
    Same R' d' e' := by
  have himp : ∀ t ∈ d.types, ∀ u ∈ e.types, t.Same R u → t.Same R' u := fun t ht u hu htu =>
    htu.imp fun r hr q hq => hR r (TypeExpr.references_subset_referencesOf ht hr) q
      (TypeExpr.references_subset_referencesOf hu hq)
  have hone : ∀ {t? u? : Option TypeExpr}, Option.Rel (TypeExpr.Same R) t? u? →
      (∀ t, t? = some t → t ∈ d.types) → (∀ u, u? = some u → u ∈ e.types) →
      Option.Rel (TypeExpr.Same R') t? u? := fun h hts hus =>
    rel_imp_mem h fun t ht u hu => himp t (hts t ht) u (hus u hu)
  have hlist : ∀ {ts us : Option (List TypeExpr)}, TypeExpr.SameList R ts us →
      (∀ t ∈ ts.getD [], t ∈ d.types) → (∀ u ∈ us.getD [], u ∈ e.types) →
      TypeExpr.SameList R' ts us := fun h hts hus =>
    rel_imp_mem h fun ts hts' us hus' h => forall₂_imp_mem h fun t ht u hu =>
      himp t (hts t (by rwa [hts'])) u (hus u (by rwa [hus']))
  have htype := hone h.type (fun t ht => by simp [mem_types, ht])
    fun u hu => by simp [mem_types, hu]
  have hinherited := hone h.inheritedFrom (fun t ht => by simp [mem_types, ht])
    fun u hu => by simp [mem_types, hu]
  have hoverwrites := hone h.overwrites (fun t ht => by simp [mem_types, ht])
    fun u hu => by simp [mem_types, hu]
  have hextended := hlist h.extendedTypes (fun t ht => by simp [mem_types, ht])
    fun u hu => by simp [mem_types, hu]
  have himplemented := hlist h.implementedTypes (fun t ht => by simp [mem_types, ht])
    fun u hu => by simp [mem_types, hu]
  have hannotated : ∀ {d : Declaration} {as : List Decorator} {a : Decorator} {t : TypeExpr},
      d.decorators = some as → a ∈ as → a.type = some t → t ∈ d.types := fun has ha ht => by
    rw [mem_types, has]
    exact .inr (.inr (.inr (.inr (.inr (.inr ⟨_, ha, ht⟩)))))
  have hdecorators : Option.Rel (List.Forall₂ (Decorator.Same R')) d.decorators e.decorators :=
    rel_imp_mem h.decorators fun as has bs hbs h => forall₂_imp_mem h fun a ha b hb hab =>
      ⟨hab.name, hone hab.type (fun t => hannotated has ha) (fun u => hannotated hbs hb),
        hab.arguments⟩
  subst hd he
  exact ⟨h.id, h.name, h.kind, htype, hinherited, hoverwrites, hextended, extendedBy,
    himplemented, implementedBy, hdecorators, levels⟩

end Declaration.Same

end Lineage
