import Lineage.Description.Load
import Mathlib.Algebra.GroupWithZero.Nat
import Mathlib.Data.List.Basic

/-!
# Placing a description

Placed declarations stand behind those of the graph in the order of their description, and their
references use the new links one after the other. No two references share a link.
-/

namespace Lineage

/-- The link that holds the target of a reference, unless it carries its target itself. -/
def Reference.link? (r : Reference) : Option LinkKey :=
  match r.anchor with
  | .link key => some key
  | .bound _ => none

/-! ## References -/

namespace TypeExpr

/-- What holds of a type if it holds of its children holds of all types. -/
@[elab_as_elim]
theorem induction_children {motive : TypeExpr → Prop}
    (reference : ∀ r, motive (.reference r))
    (applied : ∀ r ts, (∀ t ∈ ts, motive t) → motive (.applied r ts))
    (tuple : ∀ ts, (∀ t ∈ ts, motive t) → motive (.tuple ts))
    (union : ∀ ts, (∀ t ∈ ts, motive t) → motive (.union ts))
    (intrinsic : ∀ name, motive (.intrinsic name)) (literal : ∀ value, motive (.literal value))
    (unknown : ∀ name, motive (.unknown name)) (blank : motive .blank) (t : TypeExpr) :
    motive t :=
  TypeExpr.rec (motive_1 := motive) (motive_2 := fun ts => ∀ t ∈ ts, motive t) reference applied
    tuple union intrinsic literal unknown blank (List.forall_mem_nil _)
    (fun _ _ ht hts => List.forall_mem_cons.mpr ⟨ht, hts⟩) t

theorem referencesOf_append (ts us : List TypeExpr) :
    referencesOf (ts ++ us) = referencesOf ts ++ referencesOf us := by
  induction ts with
  | nil => rfl
  | cons t ts ih => simp only [List.cons_append, referencesOf, ih, List.append_assoc]

theorem referencesOf_eq_flatMap (ts : List TypeExpr) : referencesOf ts = ts.flatMap references := by
  induction ts with
  | nil => rfl
  | cons t ts ih => rw [referencesOf, ih, List.flatMap_cons]

theorem references_subset_referencesOf {t : TypeExpr} {ts : List TypeExpr} (h : t ∈ ts) :
    t.references ⊆ referencesOf ts := by
  induction ts with
  | nil => simp at h
  | cons u us ih =>
    rcases List.mem_cons.mp h with rfl | h
    · exact List.subset_append_left _ _
    · exact List.Subset.trans (ih h) (List.subset_append_right _ _)

/-- The reference at the head of a type is one of its references. -/
theorem mem_references_of_head? {t : TypeExpr} {r : Reference} (h : t.head? = some r) :
    r ∈ t.references := by
  cases t with
  | reference head =>
    obtain rfl := Option.some.inj h
    simp [references]
  | applied head arguments =>
    obtain rfl := Option.some.inj h
    simp [references]
  | tuple | union | intrinsic | literal | unknown | blank => simp [head?] at h

end TypeExpr

/-! ## Described types -/

namespace TypeEntry

theorem referenceCountOf_append (ts us : List TypeEntry) :
    referenceCountOf (ts ++ us) = referenceCountOf ts + referenceCountOf us := by
  induction ts with
  | nil => simp [referenceCountOf]
  | cons t ts ih => simp only [List.cons_append, referenceCountOf, ih, Nat.add_assoc]

theorem toExprs_append (link : LinkKey) (ts us : List TypeEntry) :
    toExprs link (ts ++ us) = toExprs link ts ++ toExprs (link + referenceCountOf ts) us := by
  induction ts generalizing link with
  | nil => simp [toExprs, referenceCountOf]
  | cons t ts ih => simp only [List.cons_append, toExprs, ih, referenceCountOf, Nat.add_assoc]

theorem toExprs_toList (link : LinkKey) (t? : Option TypeEntry) :
    toExprs link t?.toList = (t?.map (·.toExpr link)).toList := by
  cases t? with
  | none => simp [toExprs]
  | some t => simp [toExprs]

mutual

/-- A described type uses one link for each of its references, in their order. -/
theorem links_toExpr (link : LinkKey) (t : TypeEntry) :
    (t.toExpr link).references.map Reference.link? =
      (List.range' link t.referenceCount).map some := by
  match t with
  | reference name symbol none =>
    simp [toExpr, TypeExpr.references, referenceCount, Reference.link?]
  | reference name symbol (some []) =>
    simp [toExpr, TypeExpr.references, referenceCount, referenceCountOf, Reference.link?]
  | reference name symbol (some (t :: ts)) =>
    have h := links_toExprs (link + 1) (t :: ts)
    simp only [toExpr, TypeExpr.references, referenceCount, List.map_cons, h, Nat.add_comm 1,
      List.range'_succ, Reference.link?]
  | tuple elements =>
    simpa only [toExpr, TypeExpr.references, referenceCount] using links_toExprs link elements
  | union members =>
    simpa only [toExpr, TypeExpr.references, referenceCount] using links_toExprs link members
  | intrinsic name => simp [toExpr, TypeExpr.references, referenceCount]
  | literal value => simp [toExpr, TypeExpr.references, referenceCount]
  | unknown name => simp [toExpr, TypeExpr.references, referenceCount]

/-- Described types use one link for each of their references, in their order. -/
theorem links_toExprs (link : LinkKey) (ts : List TypeEntry) :
    (TypeExpr.referencesOf (toExprs link ts)).map Reference.link? =
      (List.range' link (referenceCountOf ts)).map some := by
  match ts with
  | [] => simp [toExprs, TypeExpr.referencesOf, referenceCountOf]
  | t :: ts =>
    rw [toExprs, TypeExpr.referencesOf, List.map_append, links_toExpr link t,
      links_toExprs (link + t.referenceCount) ts, referenceCountOf, ← List.map_append,
      List.range'_append_1]

end

end TypeEntry

/-! ## Described declarations -/

theorem getD_nonempty? {α : Type} (items : List α) : (nonempty? items).getD [] = items := by
  cases items <;> rfl

namespace DecoratorEntry

theorem filterMap_type_toDecorators (link : LinkKey) (entries : List DecoratorEntry) :
    (toDecorators link entries).filterMap (·.type) =
      TypeEntry.toExprs link (entries.filterMap (·.type)) := by
  induction entries generalizing link with
  | nil => simp [toDecorators, TypeEntry.toExprs]
  | cons e entries ih =>
    simp only [toDecorators, List.filterMap_cons, ih, referenceCount]
    cases e.type with
    | none => simp [TypeEntry.referenceCountOf]
    | some t => simp [TypeEntry.toExprs, TypeEntry.referenceCountOf]

end DecoratorEntry

namespace DeclarationEntry

variable (s : DeclarationEntry) (kind : Kind) (parent : Option Scope) (link : LinkKey)

/-- A placed declaration has the described types, in the order of its fields. -/
theorem types_toDeclaration :
    (s.toDeclaration kind parent link).types = TypeEntry.toExprs link s.types := by
  simp only [Declaration.types, toDeclaration, types, getD_nonempty?,
    DecoratorEntry.filterMap_type_toDecorators, TypeEntry.toExprs_append,
    TypeEntry.referenceCountOf_append, TypeEntry.toExprs_toList, Option.getD_none, List.append_nil,
    Nat.add_assoc]

theorem links_toDeclaration :
    (s.toDeclaration kind parent link).references.map Reference.link? =
      (List.range' link s.referenceCount).map some := by
  rw [Declaration.references, types_toDeclaration, TypeEntry.links_toExprs, referenceCount]

end DeclarationEntry

/-! ## Placed declarations -/

namespace Graph

variable (base : DeclKey) (all : List DeclarationEntry)

def mentioned (entries : List (DeclarationEntry × Kind)) : Nat :=
  (entries.map (·.1.referenceCount)).sum

/-- The declarations that a description is placed as, their links being those from `link` on. -/
def placements (link : LinkKey) : List (DeclarationEntry × Kind) → List Declaration
  | [] => []
  | e :: entries =>
    e.1.toDeclaration e.2 (e.1.scopeIn base all) link ::
      placements (link + e.1.referenceCount) entries

/-- Placing adds the declarations and as many empty links as they have references. -/
theorem foldl_place (entries : List (DeclarationEntry × Kind)) (g : Graph) :
    entries.foldl (place base all) g =
      { declarations := g.declarations ++ (placements base all g.links.size entries).toArray
        projects := g.projects
        links := g.links ++ Array.replicate (mentioned entries) none } := by
  induction entries generalizing g with
  | nil => simp [placements, mentioned]
  | cons e entries ih =>
    rw [List.foldl_cons, ih]
    simp [place, add, addLinks, placements, mentioned, Array.append_assoc,
      Array.replicate_append_replicate]

theorem length_placements (link : LinkKey) (entries : List (DeclarationEntry × Kind)) :
    (placements base all link entries).length = entries.length := by
  induction entries generalizing link with
  | nil => rfl
  | cons e entries ih => simp [placements, ih]

theorem getElem?_placements (link : LinkKey) (entries : List (DeclarationEntry × Kind)) (i : Nat) :
    (placements base all link entries)[i]? =
      entries[i]?.map fun e =>
        e.1.toDeclaration e.2 (e.1.scopeIn base all) (link + mentioned (entries.take i)) := by
  induction entries generalizing link i with
  | nil => simp [placements]
  | cons e entries ih =>
    cases i with
    | zero => simp [placements, mentioned]
    | succ i => simp [placements, ih, mentioned, Nat.add_assoc]

/-- All references of the placed declarations together use every new link once. -/
theorem links_placements (link : LinkKey) (entries : List (DeclarationEntry × Kind)) :
    ((placements base all link entries).flatMap (·.references)).map Reference.link? =
      (List.range' link (mentioned entries)).map some := by
  induction entries generalizing link with
  | nil => simp [placements, mentioned]
  | cons e entries ih =>
    rw [placements, List.flatMap_cons, List.map_append, DeclarationEntry.links_toDeclaration, ih,
      ← List.map_append, List.range'_append_1]
    simp [mentioned]

end Graph

end Lineage
