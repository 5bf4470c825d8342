import Lineage.Description.Schema
import Lineage.Proofs.Encodable
import Lineage.Proofs.References
import Lineage.Proofs.RenamedReports

/-!
# Reading JSON forms back

The JSON form of a type is a described type. What it describes has the shape of the type, with all
references looked up by name and none linked, so that it has the same text and, but for the ids
that links have shown, the same JSON form.
-/

namespace Lineage

/-! ## Members left out -/

namespace Json

mutual

/-- A value without the members of a name, at any depth. -/
def without (name : String) : Json → Json
  | .array items => .array (itemsWithout name items)
  | .object members => .object (membersWithout name members)
  | v => v

def itemsWithout (name : String) : List Json → List Json
  | [] => []
  | v :: vs => v.without name :: itemsWithout name vs

def membersWithout (name : String) : List (String × Json) → List (String × Json)
  | [] => []
  | (key, v) :: rest =>
    if key = name then membersWithout name rest
    else (key, v.without name) :: membersWithout name rest

end

theorem membersWithout_append (name : String) (ms ns : List (String × Json)) :
    membersWithout name (ms ++ ns) = membersWithout name ms ++ membersWithout name ns := by
  induction ms with
  | nil => rfl
  | cons m ms ih =>
    rw [List.cons_append, membersWithout, membersWithout, ih]
    split <;> rfl

end Json

/-! ## Types with a JSON form -/

/-- A reference leads to a declaration of the graph, or nowhere. -/
def Reference.LeadsIn (g : Graph) (r : Reference) : Prop :=
  ∀ target, g.target? r = some target →
    ∃ key d, target = .declaration key ∧ g.declaration? key = some d

/-- A reference shows the id of the declaration that it leads to, or nothing. -/
theorem Graph.shownId?_of_leadsIn {g : Graph} {r : Reference} (h : r.LeadsIn g) :
    g.shownId? r = some [] ∨ ∃ id, g.shownId? r = some [("id", .int id)] := by
  cases htarget : g.target? r with
  | none =>
    left
    rw [shownId?, htarget]
  | some target =>
    obtain ⟨key, d, rfl, hd⟩ := h target htarget
    right
    refine ⟨d.id, ?_⟩
    rw [shownId?, htarget]
    simp only [hd, Option.map_some]

/--
A type without an empty place and without an empty list of arguments, whose references lead to
declarations of the graph or nowhere. They may have any symbol numbers.
-/
inductive TypeExpr.Whole (g : Graph) : TypeExpr → Prop
  | reference {r : Reference} : r.LeadsIn g → Whole g (.reference r)
  | applied {r : Reference} {ts : List TypeExpr} : r.LeadsIn g → ts ≠ [] →
    (∀ t ∈ ts, Whole g t) → Whole g (.applied r ts)
  | tuple {ts : List TypeExpr} : (∀ t ∈ ts, Whole g t) → Whole g (.tuple ts)
  | union {ts : List TypeExpr} : (∀ t ∈ ts, Whole g t) → Whole g (.union ts)
  | intrinsic (name : String) : Whole g (.intrinsic name)
  | literal (value : String) : Whole g (.literal value)
  | unknown (name : String) : Whole g (.unknown name)

/-- A reference of the same name that is looked up by it. -/
structure Reference.Cleared (r q : Reference) : Prop where
  name : q.name = r.name
  symbol : q.symbol = Reference.byName

namespace TypeExpr

/-! ## Reading back -/

/-- A value is the JSON form of a type, and describes its shape. -/
structure Rereads (g : Graph) (t : TypeExpr) (v : Json) (s : TypeEntry) : Prop where
  encodes : g.encodeType? t = some v
  accepts : Schema.type v = .valid s
  same : ∀ link, t.Same Reference.Cleared (s.toExpr link)

/-- Values are the JSON forms of types, and describe their shapes. -/
structure RereadsAll (g : Graph) (ts : List TypeExpr) (vs : List Json) (ss : List TypeEntry) :
    Prop where
  encodes : g.encodeTypes? ts = some vs
  accepts : ∀ position, Schema.typesFrom position vs = .valid ss
  same : ∀ link, List.Forall₂ (Same Reference.Cleared) ts (TypeEntry.toExprs link ss)

theorem RereadsAll.ne_nil {g : Graph} {t : TypeExpr} {ts : List TypeExpr} {vs : List Json}
    {ss : List TypeEntry} (h : RereadsAll g (t :: ts) vs ss) : ss ≠ [] := by
  rintro rfl
  cases h.same 0

theorem exists_rereadsAll {g : Graph} {ts : List TypeExpr}
    (h : ∀ t ∈ ts, ∃ v s, t.Rereads g v s) : ∃ vs ss, RereadsAll g ts vs ss := by
  induction ts with
  | nil => exact ⟨[], [], rfl, fun _ => rfl, fun _ => .nil⟩
  | cons t ts ih =>
    rw [List.forall_mem_cons] at h
    obtain ⟨v, s, ht⟩ := h.1
    obtain ⟨vs, ss, hts⟩ := ih h.2
    refine ⟨v :: vs, s :: ss, ?_, fun position => ?_, fun link => .cons (ht.same _) (hts.same _)⟩
    · simp [Graph.encodeTypes?, ht.encodes, hts.encodes]
    · rw [Schema.typesFrom, ht.accepts, hts.accepts]
      rfl

theorem exists_rereads_reference {g : Graph} {r : Reference} (h : r.LeadsIn g) :
    ∃ v s, (reference r).Rereads g v s := by
  rcases Graph.shownId?_of_leadsIn h with hshown | ⟨id, hshown⟩
  · exact ⟨_, .reference r.name none none, by rw [Graph.encodeType?, hshown]; rfl, rfl,
      fun _ => .reference ⟨rfl, rfl⟩⟩
  · exact ⟨_, .reference r.name none none, by rw [Graph.encodeType?, hshown]; rfl, rfl,
      fun _ => .reference ⟨rfl, rfl⟩⟩

theorem exists_rereads {g : Graph} {t : TypeExpr} (h : t.Whole g) : ∃ v s, t.Rereads g v s := by
  induction h with
  | reference hr => exact exists_rereads_reference hr
  | @applied r ts hr hne _ ih =>
    obtain ⟨vs, ss, hts⟩ := exists_rereadsAll ih
    obtain ⟨t, ts, rfl⟩ := List.exists_cons_of_ne_nil hne
    obtain ⟨s, ss, rfl⟩ := List.exists_cons_of_ne_nil hts.ne_nil
    have hsame : ∀ link, (applied r (t :: ts)).Same Reference.Cleared
        ((TypeEntry.reference r.name none (some (s :: ss))).toExpr link) := fun link =>
      .applied ⟨rfl, rfl⟩ (hts.same _)
    rcases Graph.shownId?_of_leadsIn hr with hshown | ⟨id, hshown⟩
    · refine ⟨_, _, by rw [Graph.encodeType?, hshown, hts.encodes]; rfl; simp, ?_, hsame⟩
      simp [Schema.type, Json.member?, Schema.required, Schema.optional, Schema.argumentsIn,
        hts.accepts]
      rfl
    · refine ⟨_, _, by rw [Graph.encodeType?, hshown, hts.encodes]; rfl; simp, ?_, hsame⟩
      simp [Schema.type, Json.member?, Schema.required, Schema.optional, Schema.argumentsIn,
        hts.accepts]
      rfl
  | @tuple ts _ ih =>
    obtain ⟨vs, ss, hts⟩ := exists_rereadsAll ih
    refine ⟨_, .tuple ss, by rw [Graph.encodeType?, hts.encodes]; rfl, ?_, fun link => ?_⟩
    · simp [Schema.type, Json.member?, Schema.typesIn, hts.accepts]
      rfl
    · exact .tuple (hts.same link)
  | @union ts _ ih =>
    obtain ⟨vs, ss, hts⟩ := exists_rereadsAll ih
    refine ⟨_, .union ss, by rw [Graph.encodeType?, hts.encodes]; rfl, ?_, fun link => ?_⟩
    · simp [Schema.type, Json.member?, Schema.typesIn, hts.accepts]
      rfl
    · exact .union (hts.same link)
  | intrinsic name => exact ⟨_, .intrinsic name, rfl, rfl, fun _ => .intrinsic name⟩
  | literal value => exact ⟨_, .literal value, rfl, rfl, fun _ => .literal value⟩
  | unknown name => exact ⟨_, .unknown name, rfl, rfl, fun _ => .unknown name⟩

end TypeExpr

/-! ## Writing again -/

namespace Graph

variable {g g' : Graph}

/-- Nothing but the id of its declaration is shown of a link. -/
theorem shownId?_without {r : Reference} {shown : List (String × Json)}
    (h : g.shownId? r = some shown) : Json.membersWithout "id" shown = [] := by
  rw [shownId?] at h
  split at h
  · cases h
    rfl
  · obtain ⟨d, -, rfl⟩ := Option.map_eq_some_iff.mp h
    rfl
  · cases h

/-- The JSON form of a type, if it has one, is that of another one with ids left out. -/
def Bares (g g' : Graph) (t u : TypeExpr) : Prop :=
  ∀ v, g.encodeType? t = some v → g'.encodeType? u = some (v.without "id")

theorem encodeTypes?_bares {ts us : List TypeExpr} (h : List.Forall₂ (Bares g g') ts us)
    {vs : List Json} (hvs : g.encodeTypes? ts = some vs) :
    g'.encodeTypes? us = some (Json.itemsWithout "id" vs) := by
  induction h generalizing vs with
  | nil =>
    cases hvs
    rfl
  | cons ht _ ih =>
    simp only [encodeTypes?, Option.bind_eq_bind, Option.bind_eq_some_iff, Option.pure_def,
      Option.some.injEq] at hvs
    obtain ⟨v, hv, vs, hvs, rfl⟩ := hvs
    rw [encodeTypes?, ht v hv, ih hvs]
    rfl

section Unlinked

variable {r q : Reference} (hname : q.name = r.name) (hq : g'.target? q = none)
include hname hq

theorem bares_reference : Bares g g' (.reference r) (.reference q) := by
  intro v hv
  simp only [encodeType?, Option.bind_eq_bind, Option.bind_eq_some_iff, Option.pure_def,
    Option.some.injEq] at hv
  obtain ⟨shown, hshown, rfl⟩ := hv
  rw [encodeType?, shownId?, hq, hname]
  simp [Json.without, Json.membersWithout, shownId?_without hshown]

theorem bares_applied {ts us : List TypeExpr} (h : List.Forall₂ (Bares g g') ts us) :
    Bares g g' (.applied r ts) (.applied q us) := by
  intro v hv
  cases h with
  | nil =>
    rw [encodeType?] at hv ⊢
    exact bares_reference hname hq v (by rwa [encodeType?])
  | @cons t u ts us ht hts =>
    simp only [encodeType?, Option.bind_eq_bind, Option.bind_eq_some_iff, Option.pure_def,
      Option.some.injEq] at hv
    obtain ⟨shown, hshown, items, hitems, rfl⟩ := hv
    have hshorn : Json.membersWithout "id" (shown ++ [("type_arguments", .array items)]) =
        [("type_arguments", .array (Json.itemsWithout "id" items))] := by
      rw [Json.membersWithout_append, shownId?_without hshown]
      rfl
    rw [encodeType?, shownId?, hq, hname, encodeTypes?_bares (.cons ht hts) hitems]
    · simp [Json.without, Json.membersWithout, hshorn]
    · simp

end Unlinked

/-- A type of the same shape and names whose references are not linked shows no ids. -/
theorem bares_of_same {t u : TypeExpr}
    (h : t.Same (fun r q => q.name = r.name ∧ g'.target? q = none) u) : Bares g g' t u := by
  refine h.induction_parts ?reference ?applied ?tuple ?union ?_ ?_ ?_ ?blank
  case reference => exact fun r q hrq => bares_reference hrq.1 hrq.2
  case applied => exact fun r q ts us hrq ih => bares_applied hrq.1 hrq.2 ih
  case tuple =>
    intro ts us ih v hv
    simp only [encodeType?, Option.bind_eq_bind, Option.bind_eq_some_iff, Option.pure_def,
      Option.some.injEq] at hv
    obtain ⟨vs, hvs, rfl⟩ := hv
    rw [encodeType?, encodeTypes?_bares ih hvs]
    rfl
  case union =>
    intro ts us ih v hv
    simp only [encodeType?, Option.bind_eq_bind, Option.bind_eq_some_iff, Option.pure_def,
      Option.some.injEq] at hv
    obtain ⟨vs, hvs, rfl⟩ := hv
    rw [encodeType?, encodeTypes?_bares ih hvs]
    rfl
  case blank =>
    intro v hv
    cases hv
  all_goals
    rintro name v hv
    cases hv
    rfl

/-! ## Round trip -/

/-- No link that was added with a description is set, so that its references lead nowhere. -/
theorem target?_addLinks_toExpr (s : TypeEntry) :
    ∀ q ∈ (s.toExpr g.links.size).references,
      (g.addLinks s.referenceCount).target? q = none := by
  intro q hq
  have hlink : q.link? ∈ (List.range' g.links.size s.referenceCount).map some := by
    rw [← TypeEntry.links_toExpr]
    exact List.mem_map_of_mem hq
  obtain ⟨link, hmem, hlink⟩ := List.mem_map.mp hlink
  obtain ⟨n, hn, rfl⟩ := List.mem_range'.mp hmem
  rw [target?_of_link hlink.symm, addLinks, Array.getElem?_append_right (by omega)]
  simp [hn]

/--
The JSON form of a type reads back as a description of it: one of the same shape and text, all of
whose references have their names, are looked up by them and lead nowhere. Its own JSON form is that
of the type with all ids left out.
-/
theorem encodeType?_reads_back {t : TypeExpr} (h : t.Whole g) :
    ∃ v s, g.encodeType? t = some v ∧ Schema.type v = .valid s ∧
      t.Same (fun r q => q.name = r.name ∧ q.symbol = Reference.byName ∧
        (g.addLinks s.referenceCount).target? q = none) (s.toExpr g.links.size) ∧
      (s.toExpr g.links.size).text = t.text ∧
      (g.addLinks s.referenceCount).encodeType? (s.toExpr g.links.size) =
        some (v.without "id") := by
  obtain ⟨v, s, hreads⟩ := TypeExpr.exists_rereads h
  have hsame := hreads.same g.links.size
  have hclear := target?_addLinks_toExpr (g := g) s
  refine ⟨v, s, hreads.encodes, hreads.accepts, ?_, ?_, ?_⟩
  · exact hsame.imp fun r _ q hq hrq => ⟨hrq.name, hrq.symbol, hclear q hq⟩
  · exact hsame.text_eq fun r q hrq => hrq.name
  · exact bares_of_same (hsame.imp fun r _ q hq hrq => ⟨hrq.name, hclear q hq⟩) v hreads.encodes

end Graph

/-- A type that nests every shape, and whose head leads to the first declaration. -/
def TypeExpr.nested : TypeExpr :=
  .union
    [.applied ⟨"List", 41, .bound (.declaration 0)⟩
      [.tuple [.reference ⟨"Item", Reference.byName, .link 0⟩, .literal "all"], .tuple []],
    .intrinsic "string", .unknown "keyof Item"]

/-- The nested type shows the id of the declaration that it names, and reads back without it. -/
theorem Graph.encodeType?_reads_back_nested :
    let g := Graph.empty.add { id := 3, name := "List", kind := .classOrInterface }
    TypeExpr.nested.Whole g ∧ ∃ v s, g.encodeType? TypeExpr.nested = some v ∧ v.without "id" ≠ v ∧
      Schema.type v = .valid s ∧
      (s.toExpr g.links.size).text = "List<[Item, \"all\"], []> | string | keyof Item" ∧
      (g.addLinks s.referenceCount).encodeType? (s.toExpr g.links.size) =
        some (v.without "id") := by
  intro g
  have hlist : Reference.LeadsIn g ⟨"List", 41, .bound (.declaration 0)⟩ := fun target h => by
    cases h
    exact ⟨0, _, rfl, rfl⟩
  have hitem : Reference.LeadsIn g ⟨"Item", Reference.byName, .link 0⟩ := fun target h => by
    cases h
  have hpair : (TypeExpr.tuple
      [.reference ⟨"Item", Reference.byName, .link 0⟩, .literal "all"]).Whole g := by
    refine .tuple (List.forall_mem_cons.mpr ⟨.reference hitem, ?_⟩)
    exact List.forall_mem_singleton.mpr (.literal _)
  have hwhole : TypeExpr.nested.Whole g := by
    refine .union (List.forall_mem_cons.mpr ⟨.applied hlist (List.cons_ne_nil _ _) ?_, ?_⟩)
    · exact List.forall_mem_cons.mpr ⟨hpair, List.forall_mem_singleton.mpr (.tuple (by simp))⟩
    · exact List.forall_mem_cons.mpr ⟨.intrinsic _, List.forall_mem_singleton.mpr (.unknown _)⟩
  obtain ⟨v, s, hv, hs, -, htext, hagain⟩ := encodeType?_reads_back hwhole
  refine ⟨hwhole, v, s, hv, ?_, hs, htext.trans rfl, hagain⟩
  obtain rfl := Option.some.inj hv
  simp [Json.without, Json.itemsWithout, Json.membersWithout]

end Lineage
