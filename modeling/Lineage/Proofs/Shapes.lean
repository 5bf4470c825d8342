import Lineage.Proofs.Registration
import Lineage.Proofs.Placement
import Mathlib.Data.List.Forall2

/-!
# Shapes

When a type, an annotation or a declaration has the shape that a description gives it. The relation
is stated field by field and node by node, without the numbering of links that a description is
placed with; of a reference it demands its name, its symbol number and a property of one's choice.
-/

namespace Lineage

/-! ## Types -/

/-- A reference stands for a described name and symbol number; without one the name is looked up. -/
structure Reference.Stands (P : Reference → Prop) (name : String) (symbol : Option Int)
    (r : Reference) : Prop where
  name : r.name = name
  symbol : r.symbol = symbol.getD Reference.byName
  property : P r

/-- A type has the described shape; an empty list of arguments counts as none. -/
inductive TypeEntry.Describes (P : Reference → Prop) : TypeEntry → TypeExpr → Prop
  | reference {name : String} {symbol : Option Int} {arguments : Option (List TypeEntry)}
    {r : Reference} : arguments.getD [] = [] → r.Stands P name symbol →
    Describes P (.reference name symbol arguments) (.reference r)
  | applied {name : String} {symbol : Option Int} {arguments : List TypeEntry} {r : Reference}
    {types : List TypeExpr} : arguments ≠ [] → r.Stands P name symbol →
    List.Forall₂ (Describes P) arguments types →
    Describes P (.reference name symbol (some arguments)) (.applied r types)
  | tuple {elements : List TypeEntry} {types : List TypeExpr} :
    List.Forall₂ (Describes P) elements types → Describes P (.tuple elements) (.tuple types)
  | union {members : List TypeEntry} {types : List TypeExpr} :
    List.Forall₂ (Describes P) members types → Describes P (.union members) (.union types)
  | intrinsic (name : String) : Describes P (.intrinsic name) (.intrinsic name)
  | literal (value : String) : Describes P (.literal value) (.literal value)
  | unknown (name : String) : Describes P (.unknown name) (.unknown name)

namespace TypeEntry

variable {P : Reference → Prop}

mutual

theorem describes_toExpr (link : LinkKey) (t : TypeEntry)
    (hP : ∀ r ∈ (t.toExpr link).references, P r) : t.Describes P (t.toExpr link) := by
  match t with
  | reference name symbol none =>
    rw [toExpr] at hP ⊢
    exact .reference rfl ⟨rfl, rfl, hP _ (by simp [TypeExpr.references])⟩
  | reference name symbol (some []) =>
    rw [toExpr] at hP ⊢
    exact .reference rfl ⟨rfl, rfl, hP _ (by simp [TypeExpr.references])⟩
  | reference name symbol (some (t :: ts)) =>
    rw [toExpr] at hP ⊢
    · rw [TypeExpr.references, List.forall_mem_cons] at hP
      exact .applied (List.cons_ne_nil t ts) ⟨rfl, rfl, hP.1⟩
        (describes_toExprs (link + 1) (t :: ts) hP.2)
    · exact List.cons_ne_nil t ts
    · exact List.cons_ne_nil t ts
  | tuple elements =>
    simp only [toExpr, TypeExpr.references] at hP ⊢
    exact .tuple (describes_toExprs link elements hP)
  | union members =>
    simp only [toExpr, TypeExpr.references] at hP ⊢
    exact .union (describes_toExprs link members hP)
  | intrinsic name => exact .intrinsic name
  | literal value => exact .literal value
  | unknown name => exact .unknown name

theorem describes_toExprs (link : LinkKey) (ts : List TypeEntry)
    (hP : ∀ r ∈ TypeExpr.referencesOf (toExprs link ts), P r) :
    List.Forall₂ (Describes P) ts (toExprs link ts) := by
  match ts with
  | [] => exact .nil
  | t :: ts =>
    rw [toExprs, TypeExpr.referencesOf, List.forall_mem_append] at hP
    exact .cons (describes_toExpr link t hP.1)
      (describes_toExprs (link + t.referenceCount) ts hP.2)

end

end TypeEntry

/-! ## Annotations -/

/-- A list has the described members; an empty description counts as no list. -/
def Lists {α β : Type} (R : α → β → Prop) (items : List α) (built : Option (List β)) : Prop :=
  Option.Rel (List.Forall₂ R) (nonempty? items) built

theorem lists_nonempty? {α β : Type} {R : α → β → Prop} {items : List α} {built : List β}
    (h : List.Forall₂ R items built) : Lists R items (nonempty? built) := by
  cases h with
  | nil => exact .none
  | cons hhead htail => exact .some (.cons hhead htail)

/-- An annotation has the described name, type and arguments. -/
structure DecoratorEntry.Describes (P : Reference → Prop) (s : DecoratorEntry) (a : Decorator) :
    Prop where
  name : a.name = s.name
  type : Option.Rel (TypeEntry.Describes P) s.type a.type
  arguments : a.arguments = s.arguments

theorem TypeEntry.describes_map_toExpr {P : Reference → Prop} (link : LinkKey)
    (t? : Option TypeEntry)
    (hP : ∀ r ∈ TypeExpr.referencesOf (t?.map (·.toExpr link)).toList, P r) :
    Option.Rel (TypeEntry.Describes P) t? (t?.map (·.toExpr link)) := by
  cases t? with
  | none => exact .none
  | some t => exact .some (describes_toExpr link t (by simpa [TypeExpr.referencesOf] using hP))

theorem DecoratorEntry.describes_toDecorators {P : Reference → Prop} (link : LinkKey)
    (entries : List DecoratorEntry)
    (hP : ∀ r ∈ TypeExpr.referencesOf ((toDecorators link entries).filterMap (·.type)), P r) :
    List.Forall₂ (Describes P) entries (toDecorators link entries) := by
  induction entries generalizing link with
  | nil => exact .nil
  | cons s rest ih =>
    have hsplit : (toDecorators link (s :: rest)).filterMap (·.type) =
        (s.type.map (·.toExpr link)).toList ++
          (toDecorators (link + s.referenceCount) rest).filterMap (·.type) := by
      cases hs : s.type <;> simp [toDecorators, hs]
    rw [hsplit, TypeExpr.referencesOf_append, List.forall_mem_append] at hP
    exact .cons ⟨rfl, TypeEntry.describes_map_toExpr link s.type hP.1, rfl⟩ (ih _ hP.2)

/-! ## Declarations -/

/-- A declaration has the described id, name, kind and types, and nothing that a run adds. -/
structure DeclarationEntry.Describes (P : Reference → Prop) (s : DeclarationEntry)
    (d : Declaration) : Prop where
  id : d.id = s.id
  name : d.name = s.name
  kind : Kind.ofName? s.kind = some d.kind
  type : Option.Rel (TypeEntry.Describes P) s.type d.type
  inheritedFrom : Option.Rel (TypeEntry.Describes P) s.inheritedFrom d.inheritedFrom
  overwrites : Option.Rel (TypeEntry.Describes P) s.overwrites d.overwrites
  extendedTypes : Lists (TypeEntry.Describes P) s.extendedTypes d.extendedTypes
  implementedTypes : Lists (TypeEntry.Describes P) s.implementedTypes d.implementedTypes
  decorators : Lists (DecoratorEntry.Describes P) s.decorators d.decorators
  extendedBy : d.extendedBy = none
  implementedBy : d.implementedBy = none
  hierarchy : d.hierarchy = none

namespace DeclarationEntry

variable {P : Reference → Prop} {s : DeclarationEntry}

theorem describes_toDeclaration {kind : Kind} (hkind : Kind.ofName? s.kind = some kind)
    (parent : Option Scope) (link : LinkKey)
    (hP : ∀ r ∈ (s.toDeclaration kind parent link).references, P r) :
    s.Describes P (s.toDeclaration kind parent link) := by
  simp only [Declaration.references, Declaration.types, toDeclaration, getD_nonempty?,
    TypeExpr.referencesOf_append, List.forall_mem_append] at hP
  obtain ⟨⟨⟨⟨⟨⟨htype, hinherited⟩, hoverwrites⟩, hextended⟩, -⟩, himplemented⟩, hdecorators⟩ := hP
  exact {
    id := rfl
    name := rfl
    kind := hkind
    type := TypeEntry.describes_map_toExpr _ _ htype
    inheritedFrom := TypeEntry.describes_map_toExpr _ _ hinherited
    overwrites := TypeEntry.describes_map_toExpr _ _ hoverwrites
    extendedTypes := lists_nonempty? (TypeEntry.describes_toExprs _ _ hextended)
    implementedTypes := lists_nonempty? (TypeEntry.describes_toExprs _ _ himplemented)
    decorators := lists_nonempty? (DecoratorEntry.describes_toDecorators _ _ hdecorators)
    extendedBy := rfl
    implementedBy := rfl
    hierarchy := rfl }

/-- Where a declaration is registered plays no part in its shape. -/
theorem describes_body {d : Declaration} : s.Describes P d.body ↔ s.Describes P d :=
  ⟨fun ⟨h₁, h₂, h₃, h₄, h₅, h₆, h₇, h₈, h₉, h₁₀, h₁₁, h₁₂⟩ =>
      ⟨h₁, h₂, h₃, h₄, h₅, h₆, h₇, h₈, h₉, h₁₀, h₁₁, h₁₂⟩,
    fun ⟨h₁, h₂, h₃, h₄, h₅, h₆, h₇, h₈, h₉, h₁₀, h₁₁, h₁₂⟩ =>
      ⟨h₁, h₂, h₃, h₄, h₅, h₆, h₇, h₈, h₉, h₁₀, h₁₁, h₁₂⟩⟩

end DeclarationEntry

end Lineage
