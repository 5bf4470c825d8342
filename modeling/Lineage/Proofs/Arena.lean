import Lineage.Proofs.Loaded

/-!
# Registering one after the other

Declarations are registered one at a time, under ids of their own or under the next free one.
However this goes on, the index of the project leads from ids to the declarations that have them, so
that the next free id is free and an id is taken exactly if a registered declaration has it.
-/

namespace Lineage

/-! ## Indexes and ids -/

/-- What does not depend on top-level declarations is the same for projects of the same tables. -/
theorem Project.eq_of_tables_eq {α : Type} (f : Project → α) (hf : ∀ p, f p.tables = f p)
    {p p' : Project} (h : p'.tables = p.tables) : f p' = f p := by
  rw [← hf p', h, hf p]

/-- A graph keeps the ids that have been given. -/
def Graph.KeepsIds (g g' : Graph) : Prop :=
  ∀ key, ∀ id ≥ 0, (g.declaration? key).map Declaration.id = some id →
    (g'.declaration? key).map Declaration.id = some id

/-- The index of a project leads to declarations with these ids, all below the next free id. -/
structure Project.Keyed (p : Project) (g : Graph) : Prop where
  ascending : p.index.Ascending
  one_le : 1 ≤ p.nextId
  held : ∀ id key, (id, key) ∈ p.index →
    0 ≤ id ∧ id < p.nextId ∧ (g.declaration? key).map Declaration.id = some id

namespace Project.Keyed

variable {p p' : Project} {g g' : Graph}

theorem idFor_nonneg (h : p.Keyed g) (d : Declaration) : 0 ≤ p.idFor d := by
  have hone := h.one_le
  rw [idFor]
  split <;> omega

theorem not_holds_nextId (h : p.Keyed g) : p.index.holds p.nextId = false := by
  rw [Index.holds, Option.isSome_eq_false_iff, Option.isNone_iff_eq_none]
  by_contra hne
  obtain ⟨key, hkey⟩ := Option.ne_none_iff_exists'.mp hne
  have hlt := (h.held p.nextId key (Index.mem_of_get?_eq_some hkey)).2.1
  omega

/-- Only an id that a declaration brings along can be taken. -/
theorem holds_idFor_iff (h : p.Keyed g) (d : Declaration) :
    p.index.holds (p.idFor d) = true ↔ 0 ≤ d.id ∧ p.index.holds d.id = true := by
  rw [idFor]
  split
  · next hneg => simp [h.not_holds_nextId, Int.not_le.mpr hneg]
  · next hneg => simp [Int.not_lt.mp hneg]

/-- Projects of the same tables are keyed alike where the ids of declarations are kept. -/
theorem of_keepsIds (h : p.Keyed g) (htables : p'.tables = p.tables) (hids : g.KeepsIds g') :
    p'.Keyed g' := by
  have hindex := Project.eq_of_tables_eq Project.index (fun _ => rfl) htables
  have hnext := Project.eq_of_tables_eq Project.nextId (fun _ => rfl) htables
  refine ⟨hindex ▸ h.ascending, hnext ▸ h.one_le, fun id key hmem => ?_⟩
  obtain ⟨hpos, hlt, hid⟩ := h.held id key (hindex ▸ hmem)
  exact ⟨hpos, hnext ▸ hlt, hids key id hpos hid⟩

/-- A project stays keyed when it gains the id of a declaration. -/
theorem enter (h : p.Keyed g) {id : Int} {key : DeclKey} {symbol : Option Int} (hpos : 0 ≤ id)
    (htables : p'.tables = (p.enter id key symbol).tables) (hids : g.KeepsIds g')
    (hkey : (g'.declaration? key).map Declaration.id = some id) : p'.Keyed g' := by
  have hindex : p'.index = p.index.set id key :=
    Project.eq_of_tables_eq Project.index (fun _ => rfl) htables
  have hnext : p'.nextId = max p.nextId (id + 1) :=
    Project.eq_of_tables_eq Project.nextId (fun _ => rfl) htables
  have hone := h.one_le
  refine ⟨hindex ▸ Index.ascending_set id key h.ascending, by omega, fun i k hmem => ?_⟩
  rw [hindex] at hmem
  rcases Index.mem_set hmem with he | hmem
  · obtain ⟨rfl, rfl⟩ := Prod.mk.inj he
    exact ⟨hpos, by omega, hkey⟩
  · obtain ⟨hi, hlt, hid⟩ := h.held i k hmem
    exact ⟨hi, by omega, hids k i hi hid⟩

theorem pairwise_idBelow (h : p.Keyed g) : p.index.values.Pairwise g.IdBelow := by
  refine List.pairwise_map.mpr (h.ascending.imp_of_mem fun {a b} ha hb hlt => ?_)
  obtain ⟨d, hd, hdid⟩ := Option.map_eq_some_iff.mp (h.held a.1 a.2 ha).2.2
  obtain ⟨e, he, heid⟩ := Option.map_eq_some_iff.mp (h.held b.1 b.2 hb).2.2
  exact ⟨d, e, hd, he, by rwa [hdid, heid]⟩

end Project.Keyed

namespace Graph

variable {g g' g'' : Graph} {project other : ProjectKey} {key : DeclKey}

namespace KeepsIds

theorem add (g : Graph) (d : Declaration) : g.KeepsIds (g.add d) := by
  intro key id _ hkey
  obtain ⟨e, he, -⟩ := Option.map_eq_some_iff.mp hkey
  have hlt := (Array.getElem?_eq_some_iff.mp he).1
  rw [← hkey, declaration?, declaration?, Graph.add, Array.getElem?_push_lt hlt,
    Array.getElem?_eq_getElem hlt]

theorem assignId (g : Graph) (project : ProjectKey) (key : DeclKey) :
    g.KeepsIds (g.assignId project key) := by
  intro k id hpos hk
  rw [Graph.assignId]
  split
  · next p hp =>
    rw [declaration?_modify]
    split
    · obtain ⟨d, hd, rfl⟩ := Option.map_eq_some_iff.mp hk
      simp [hd, Project.idFor, Int.not_lt.mpr hpos]
    · exact hk
  · exact hk

theorem of_entrySpec {p : Project} {d : Declaration} {symbol : Option Int}
    (hd : g.declaration? key = some d)
    (h : EntrySpec g project key (p.idFor d) symbol g') : g.KeepsIds g' := by
  intro k id hpos hk
  rw [h.ids]
  split
  · next he =>
    subst he
    rw [hd] at hk
    obtain rfl : d.id = id := Option.some.inj hk
    rw [Project.idFor, if_neg (Int.not_lt.mpr hpos)]
  · exact hk

end KeepsIds

theorem enter_cases {symbol : Option Int} (h : g.enter project key symbol = .ok g') :
    g = g' ∨ ∃ p d, g.project? project = some p ∧ g.declaration? key = some d ∧
      p.index.holds (p.idFor d) = false ∧ EntrySpec g project key (p.idFor d) symbol g' := by
  cases hp : g.project? project with
  | none => exact .inl (by simpa [enter, hp] using h)
  | some p =>
    cases hd : g.declaration? key with
    | none => exact .inl (by simpa [enter, hp, hd] using h)
    | some d =>
      rcases enter_ok_or_taken hp hd symbol with ⟨-, herror⟩ | ⟨hfree, g₁, hok, hentry⟩
      · rw [herror] at h
        cases h
      · obtain rfl : g₁ = g' := Except.ok.inj (hok.symm.trans h)
        exact .inr ⟨p, d, rfl, rfl, hfree, hentry⟩

/-- Whatever an id has led to, it leads to still. -/
def Holds (project : ProjectKey) (g g' : Graph) : Prop :=
  ∀ id key, g.byId? project id = some key → g'.byId? project id = some key

theorem Holds.of_tables (h : (g'.project? project).map Project.tables =
    (g.project? project).map Project.tables) : Holds project g g' := by
  intro id key hkey
  have hindex := congrArg (Option.map Project.index) h
  rw [Option.map_map, Option.map_map] at hindex
  cases hp : g.project? project with
  | none => simp [byId?, hp] at hkey
  | some p =>
    rw [hp] at hindex
    obtain ⟨p', hp', hindex⟩ := Option.map_eq_some_iff.mp hindex
    have hsame : p'.index = p.index := hindex
    simpa [byId?, hp, hp', hsame] using hkey

theorem holds_enter {symbol : Option Int} (h : g.enter other key symbol = .ok g') :
    Holds project g g' := by
  rcases enter_cases h with rfl | ⟨q, d, hq, -, hfree, hentry⟩
  · exact fun _ _ hkey => hkey
  · by_cases hother : other = project
    · subst hother
      intro id k hk
      have htables := hentry.tables other
      rw [if_pos rfl, hq, Option.map_some] at htables
      obtain ⟨q', hq', htables⟩ := Option.map_eq_some_iff.mp htables
      have hindex : q'.index = q.index.set (q.idFor d) key :=
        Project.eq_of_tables_eq Project.index (fun _ => rfl) htables
      have hold : q.index.get? id = some k := by simpa [byId?, hq] using hk
      have hne : id ≠ q.idFor d := by
        rintro rfl
        simp [Index.holds, hold] at hfree
      simpa [byId?, hq', hindex, Index.get?_set_of_ne key q.index hne] using hold
    · exact .of_tables (by rw [hentry.tables, if_neg hother])

theorem holds_register (g : Graph) (other : ProjectKey) (key : DeclKey) (symbol : Option Int) :
    Holds project g (g.register other key symbol).2 := by
  have hassigned : Holds project g (g.assignId other key) :=
    .of_tables (by rw [project?_assignId])
  cases henter : (g.assignId other key).enter other key symbol with
  | ok g' =>
    simp only [register, henter]
    exact fun id k hk => holds_enter henter id k (hassigned id k hk)
  | error id => simpa only [register, henter] using hassigned

/-- The project exists and is keyed. -/
def Indexed (g : Graph) (project : ProjectKey) : Prop :=
  ∃ p, g.project? project = some p ∧ p.Keyed g

namespace Indexed

theorem of_keepsIds (h : g.Indexed project) (hids : g.KeepsIds g')
    (htables : (g'.project? project).map Project.tables =
      (g.project? project).map Project.tables) : g'.Indexed project := by
  obtain ⟨p, hp, hkeyed⟩ := h
  rw [hp, Option.map_some] at htables
  obtain ⟨p', hp', htables⟩ := Option.map_eq_some_iff.mp htables
  exact ⟨p', hp', hkeyed.of_keepsIds htables hids⟩

theorem enter (h : g.Indexed project) {symbol : Option Int}
    (henter : g.enter other key symbol = .ok g') : g'.Indexed project := by
  rcases enter_cases henter with rfl | ⟨q, d, hq, hd, -, hentry⟩
  · exact h
  · have hkeeps : g.KeepsIds g' := .of_entrySpec hd hentry
    by_cases hother : other = project
    · subst hother
      obtain ⟨p, hp, hkeyed⟩ := h
      obtain rfl : p = q := Option.some.inj (hp.symm.trans hq)
      have htables := hentry.tables other
      rw [if_pos rfl, hp, Option.map_some] at htables
      obtain ⟨p', hp', htables⟩ := Option.map_eq_some_iff.mp htables
      refine ⟨p', hp', hkeyed.enter (hkeyed.idFor_nonneg d) htables hkeeps ?_⟩
      rw [hentry.ids, if_pos rfl]
    · exact h.of_keepsIds hkeeps (by rw [hentry.tables, if_neg hother])

theorem register (h : g.Indexed project) (other : ProjectKey) (key : DeclKey)
    (symbol : Option Int) : (g.register other key symbol).2.Indexed project := by
  have hassigned : (g.assignId other key).Indexed project :=
    h.of_keepsIds (.assignId g other key) (by rw [project?_assignId])
  cases henter : (g.assignId other key).enter other key symbol with
  | ok g' => simpa only [Graph.register, henter] using hassigned.enter henter
  | error id => simpa only [Graph.register, henter] using hassigned

/-- What is held of a project is what its ids lead to. -/
theorem mem_declarationsOf (h : g.Indexed project) (key : DeclKey) :
    key ∈ g.declarationsOf project ↔ ∃ id, g.byId? project id = some key := by
  obtain ⟨p, hp, hkeyed⟩ := h
  simp only [declarationsOf, byId?, hp, Option.map_some, Option.getD_some, Option.bind_eq_bind,
    Option.bind_some, Index.values, List.mem_map]
  constructor
  · rintro ⟨⟨id, k⟩, hmem, rfl⟩
    exact ⟨id, Index.get?_eq_some_of_mem hkeyed.ascending hmem⟩
  · rintro ⟨id, hget⟩
    exact ⟨(id, key), Index.mem_of_get?_eq_some hget, rfl⟩

theorem pairwise_idBelow (h : g.Indexed project) :
    (g.declarationsOf project).Pairwise g.IdBelow := by
  obtain ⟨p, hp, hkeyed⟩ := h
  rw [declarationsOf, hp]
  exact hkeyed.pairwise_idBelow

end Indexed

end Graph

/-! ## Histories -/

/-- A declaration that was registered, with its id and its symbol number. -/
structure Registration where
  key : DeclKey
  id : Int
  symbol : Option Int
  deriving DecidableEq

namespace Graph

/-- What a call has registered: the declaration, unless its id is taken. -/
def recorded (key : DeclKey) (symbol : Option Int) :
    Except Refusal DeclKey × Graph → List Registration
  | (.error (.taken _), _) => []
  | (_, g) => ((g.declaration? key).map fun d => ⟨key, d.id, symbol⟩).toList

/-- A place for a declaration: none of its own, the project, or a declaration registered before. -/
def Admits (project : ProjectKey) (done : List Registration) (parent : Option Scope) : Prop :=
  ∀ scope, parent = some scope →
    scope = .project project ∨ ∃ r ∈ done, scope = .declaration r.key

/--
A graph that is reached from one with an empty project by making declarations and registering them
with the project, after these registrations.
-/
inductive Enrolled (name : String) : Graph → List Registration → Prop
  | start : Enrolled name (empty.addProject name) []
  | declare {g : Graph} {done : List Registration} (d : Declaration) :
    Enrolled name g done → d.children = [] → Enrolled name (g.add d) done
  | register {g : Graph} {done : List Registration} {key : DeclKey} {d : Declaration}
    (symbol : Option Int) : Enrolled name g done → g.declaration? key = some d →
    Admits 0 done d.parent →
    Enrolled name (g.register 0 key symbol).2
      (done ++ recorded key symbol (g.register 0 key symbol))
  | create {g : Graph} {done : List Registration} (title : String) (kind : Kind)
    {parent : Option Scope} (symbol : Option Int) : Enrolled name g done → Admits 0 done parent →
    Enrolled name (g.create 0 title kind parent symbol).2
      (done ++ recorded g.declarations.size symbol (g.create 0 title kind parent symbol))

theorem Enrolled.of_eq {name : String} {g : Graph} {done done' : List Registration}
    (h : Enrolled name g done) (he : done = done') : Enrolled name g done' :=
  he ▸ h

/-- The tables and scopes of a graph tell what has been registered with a project. -/
structure Kept (g : Graph) (project : ProjectKey) (p : Project) (done : List Registration) :
    Prop where
  found : g.project? project = some p
  keyed : p.Keyed g
  index : ∀ id key, (id, key) ∈ p.index ↔ ∃ r ∈ done, r.id = id ∧ r.key = key
  nodup : (done.map (·.key)).Nodup
  parent : ∀ r ∈ done, ∃ scope, g.parentOf? (.declaration r.key) = some scope
  children : ∀ scope, g.childrenOf scope =
    (done.map (·.key)).filter fun key => g.parentOf? (.declaration key) = some scope
  symbols : ∀ symbol, p.symbols.get? symbol =
    ((done.filter (·.symbol = some symbol)).getLast?).map (·.id)

namespace Kept

variable {g g' : Graph} {project : ProjectKey} {key : DeclKey} {p : Project}
  {done : List Registration}

/-- What is registered is a declaration with the id of its registration. -/
theorem id_eq (h : Kept g project p done) {r : Registration} (hr : r ∈ done) :
    (g.declaration? r.key).map Declaration.id = some r.id :=
  (h.keyed.held r.id r.key ((h.index r.id r.key).mpr ⟨r, hr, rfl, rfl⟩)).2.2

/-- An id is taken if a declaration is registered under it. -/
theorem holds_iff (h : Kept g project p done) (id : Int) :
    p.index.holds id = true ↔ ∃ r ∈ done, r.id = id := by
  rw [Index.holds, Option.isSome_iff_exists]
  constructor
  · rintro ⟨key, hkey⟩
    obtain ⟨r, hr, hid, -⟩ := (h.index id key).mp (Index.mem_of_get?_eq_some hkey)
    exact ⟨r, hr, hid⟩
  · rintro ⟨r, hr, rfl⟩
    exact ⟨r.key, Index.get?_eq_some_of_mem h.keyed.ascending
      ((h.index _ _).mpr ⟨r, hr, rfl, rfl⟩)⟩

theorem of_same (h : Kept g project p done) (hids : g.KeepsIds g')
    (hproject : g'.project? project = g.project? project)
    (hparent : ∀ r ∈ done, g'.parentOf? (.declaration r.key) = g.parentOf? (.declaration r.key))
    (hchildren : ∀ scope, g'.childrenOf scope = g.childrenOf scope) : Kept g' project p done := by
  refine ⟨hproject.trans h.found, h.keyed.of_keepsIds rfl hids, h.index, h.nodup,
    fun r hr => ?_, fun scope => ?_, h.symbols⟩
  · obtain ⟨scope, hscope⟩ := h.parent r hr
    exact ⟨scope, (hparent r hr).trans hscope⟩
  · rw [hchildren, h.children]
    apply List.filter_congr
    intro key hkey
    obtain ⟨r, hr, rfl⟩ := List.mem_map.mp hkey
    rw [hparent r hr]

theorem add (h : Kept g project p done) {d : Declaration} (hd : d.children = []) :
    Kept (g.add d) project p done := by
  have hsame : ∀ {k : Nat} {e : Declaration}, g.declaration? k = some e →
      (g.add d).declaration? k = some e := fun {k e} he => by
    have hlt := (Array.getElem?_eq_some_iff.mp he).1
    rw [← he, declaration?, declaration?, Graph.add, Array.getElem?_push_lt hlt,
      Array.getElem?_eq_getElem hlt]
  refine h.of_same (.add g d) rfl (fun r hr => ?_) fun scope => ?_
  · obtain ⟨e, he, -⟩ := Option.map_eq_some_iff.mp (h.id_eq hr)
    rw [parentOf?, parentOf?, hsame he, he]
  · cases scope with
    | project q => rfl
    | declaration k =>
      rw [childrenOf, childrenOf, declaration?, declaration?, Graph.add, Array.getElem?_push]
      split
      · next hk => simp [hk, hd]
      · rfl

theorem assignId (h : Kept g project p done) (key : DeclKey) :
    Kept (g.assignId project key) project p done := by
  have hparent : ∀ scope, (g.assignId project key).parentOf? scope = g.parentOf? scope := by
    intro scope
    cases scope with
    | project q => rfl
    | declaration k =>
      rw [parentOf?, parentOf?, Graph.assignId, h.found, declaration?_modify]
      split
      · rw [Option.bind_map]
        rfl
      · rfl
  refine h.of_same (.assignId g project key) (project?_assignId ..) (fun r _ => hparent _)
    fun scope => ?_
  cases scope with
  | project q => rw [childrenOf, childrenOf, project?_assignId]
  | declaration k =>
    rw [childrenOf, childrenOf, Graph.assignId, h.found, declaration?_modify]
    split
    · rw [Option.map_map]
      rfl
    · rfl

theorem notMem (h : Kept g project p done) {d : Declaration} (hd : g.declaration? key = some d)
    (hfree : p.index.holds d.id = false) : key ∉ done.map (·.key) := by
  intro hmem
  obtain ⟨r, hr, rfl⟩ := List.mem_map.mp hmem
  have hid := h.id_eq hr
  rw [hd] at hid
  have hheld := (h.holds_iff d.id).mpr ⟨r, hr, (Option.some.inj hid).symm⟩
  rw [hfree] at hheld
  cases hheld

theorem knows_enclosing (h : Kept g project p done) {d : Declaration}
    (hd : g.declaration? key = some d) (hadmits : Admits project done d.parent) :
    g.Knows (g.enclosing project key) := by
  have hproject : g.Knows (.project project) := by rw [Knows, h.found]; rfl
  rw [enclosing, parentOf?, hd, Option.bind_some]
  cases hparent : d.parent with
  | none => exact hproject
  | some scope =>
    rcases hadmits scope hparent with rfl | ⟨r, hr, rfl⟩
    · exact hproject
    · obtain ⟨e, he, -⟩ := Option.map_eq_some_iff.mp (h.id_eq hr)
      rw [Option.getD_some, Knows, he]
      rfl

/-- What is entered is the last registration of the history from then on. -/
theorem enter (h : Kept g project p done) {d : Declaration} {symbol : Option Int}
    (hd : g.declaration? key = some d) (hid : 0 ≤ d.id) (hadmits : Admits project done d.parent)
    (hok : g.enter project key symbol = .ok g') :
    ∃ p', Kept g' project p' (done ++ [⟨key, d.id, symbol⟩]) := by
  have hproject : g.Knows (.project project) := by rw [Knows, h.found]; rfl
  have hr := enter_spec hok hproject hd hid (h.knows_enclosing hd hadmits)
  obtain ⟨p', hp', hkeyed'⟩ := Indexed.enter ⟨p, h.found, h.keyed⟩ hok
  obtain ⟨hfree, q, hq, -, hindex, hsymbols⟩ := hr.project p h.found
  obtain rfl : p' = q := Option.some.inj (hp'.symm.trans hq)
  have hnew := h.notMem hd hfree
  have hother : ∀ k ∈ done.map (·.key), key ≠ k := fun k hk he => hnew (he ▸ hk)
  refine ⟨p', hp', hkeyed', fun id k => ?_, ?_, fun r hmem => ?_, fun scope => ?_,
    fun s => ?_⟩
  · rw [hindex, (Index.set_perm key hfree).mem_iff, List.mem_cons, h.index]
    constructor
    · rintro (he | ⟨r, hr, hrid, hrkey⟩)
      · obtain ⟨rfl, rfl⟩ := Prod.mk.inj he
        exact ⟨_, List.mem_append_right _ List.mem_cons_self, rfl, rfl⟩
      · exact ⟨r, List.mem_append_left _ hr, hrid, hrkey⟩
    · rintro ⟨r, hr, rfl, rfl⟩
      rcases List.mem_append.mp hr with hr | hr
      · exact .inr ⟨r, hr, rfl, rfl⟩
      · obtain rfl := List.mem_singleton.mp hr
        exact .inl rfl
  · rw [List.map_append, List.nodup_append]
    refine ⟨h.nodup, List.nodup_singleton _, fun k hk k' hk' => ?_⟩
    obtain rfl := List.mem_singleton.mp hk'
    exact (hother k hk).symm
  · rw [hr.parent]
    split
    · exact ⟨_, rfl⟩
    · next hne =>
      rcases List.mem_append.mp hmem with hmem | hmem
      · exact h.parent r hmem
      · exact absurd (congrArg Registration.key (List.mem_singleton.mp hmem)).symm hne
  · have hold : (done.map (·.key)).filter
          (fun k => g'.parentOf? (.declaration k) = some scope) =
        (done.map (·.key)).filter fun k => g.parentOf? (.declaration k) = some scope := by
      apply List.filter_congr
      intro k hk
      rw [hr.parent, if_neg (hother k hk)]
    rw [hr.children, h.children, List.map_append, List.filter_append, hold, List.map_singleton,
      List.filter_singleton, hr.parent, if_pos rfl]
    simp
  · rw [hsymbols, List.filter_append]
    cases symbol with
    | none => simpa using h.symbols s
    | some n =>
      by_cases hn : n = s
      · subst hn
        simp [Index.get?_set_self]
      · have hs : s ≠ n := fun he => hn he.symm
        simpa [hn, Index.get?_set_of_ne d.id p.symbols hs] using h.symbols s

/-- A declaration is refused if it has an id that is taken; then nothing changes. -/
theorem register_taken (h : Kept g project p done) {d : Declaration} (symbol : Option Int)
    (hd : g.declaration? key = some d) (htaken : 0 ≤ d.id ∧ ∃ r ∈ done, r.id = d.id) :
    g.register project key symbol = (.error (.taken d.id), g) := by
  have hidFor : p.idFor d = d.id := if_neg (Int.not_lt.mpr htaken.1)
  rcases register_cases h.found hd (h.keyed.idFor_nonneg d) symbol with
    ⟨-, hcall⟩ | ⟨hfree, -⟩
  · rw [hcall, hidFor, assignId_eq_self h.found hd htaken.1]
  · rw [hidFor, ((h.holds_iff d.id).mpr htaken.2)] at hfree
    cases hfree

/--
Every other declaration is registered, also if its id is too long to be reported; the call is kept
as the last of the history.
-/
theorem register_free (h : Kept g project p done) {d : Declaration} (symbol : Option Int)
    (hd : g.declaration? key = some d) (hfree : ¬(0 ≤ d.id ∧ ∃ r ∈ done, r.id = d.id)) :
    ∃ g', g.register project key symbol =
        (if Text.Writable (p.idFor d) then .ok key else .error .unreported, g') ∧
      recorded key symbol (g.register project key symbol) = [⟨key, p.idFor d, symbol⟩] ∧
      (Admits project done d.parent →
        ∃ p', Kept g' project p' (done ++ [⟨key, p.idFor d, symbol⟩])) := by
  have hpos := h.keyed.idFor_nonneg d
  rcases register_cases h.found hd hpos symbol with ⟨htaken, -⟩ | ⟨-, g', henter, hid, hcall⟩
  · rw [h.keyed.holds_idFor_iff, h.holds_iff] at htaken
    exact absurd htaken hfree
  · have hassigned := declaration?_assignId_self h.found hd
    have hkept := fun hadmits => (h.assignId key).enter (d := { d with id := p.idFor d })
      hassigned hpos hadmits henter
    refine ⟨g', hcall, ?_, hkept⟩
    obtain ⟨e, he, hid⟩ := Option.map_eq_some_iff.mp hid
    rw [hcall]
    split <;> simp [recorded, he, hid]

/-- What is registered of a declaration is kept, whether the call fails or not. -/
theorem register (h : Kept g project p done) {d : Declaration} (symbol : Option Int)
    (hd : g.declaration? key = some d) (hadmits : Admits project done d.parent) :
    ∃ p', Kept (g.register project key symbol).2 project p'
      (done ++ recorded key symbol (g.register project key symbol)) := by
  by_cases htaken : 0 ≤ d.id ∧ ∃ r ∈ done, r.id = d.id
  · rw [h.register_taken symbol hd htaken, recorded, List.append_nil]
    exact ⟨p, h⟩
  · obtain ⟨g', hcall, hrecorded, hkept⟩ := h.register_free symbol hd htaken
    rw [hrecorded, hcall]
    exact hkept hadmits

end Kept

/-- Whatever has been registered, the graph tells it. -/
theorem Enrolled.kept {name : String} {g : Graph} {done : List Registration}
    (h : Enrolled name g done) : ∃ p, Kept g 0 p done := by
  induction h with
  | start =>
    refine ⟨{ name := name }, rfl, ⟨.nil, Int.le_refl 1, nofun⟩, ?_, .nil, nofun, ?_, fun _ => rfl⟩
    · simp
    · intro scope
      cases scope with
      | declaration k => rfl
      | project q => cases q <;> rfl
  | declare d _ hd ih =>
    obtain ⟨p, ih⟩ := ih
    exact ⟨p, ih.add hd⟩
  | register symbol _ hd hadmits ih =>
    obtain ⟨p, ih⟩ := ih
    exact ih.register symbol hd hadmits
  | create title kind symbol _ hadmits ih =>
    obtain ⟨p, ih⟩ := ih
    exact (ih.add rfl).register (d := { name := title, kind := kind, parent := _ }) symbol
      Array.getElem?_push_size hadmits

/-! ## Arenas -/

/-- What the tables and scopes of a graph say of the registrations with a project. -/
structure Arena (g : Graph) (project : ProjectKey) (p : Project) (done : List Registration) :
    Prop where
  found : g.project? project = some p
  registered : ∀ id key, p.index.get? id = some key ↔ ∃ r ∈ done, r.id = id ∧ r.key = key
  keyed : ∀ id key, p.index.get? id = some key →
    (g.declaration? key).map Declaration.id = some id
  fresh : ∀ id key, p.index.get? id = some key → id < p.nextId
  listed : ∀ r ∈ done, ∃ scope, g.parentOf? (.declaration r.key) = some scope ∧
    ∀ other, (g.childrenOf other).count r.key = if other = scope then 1 else 0
  symbols : ∀ symbol, p.symbols.get? symbol =
    ((done.filter (·.symbol = some symbol)).getLast?).map (·.id)
  ascending : (g.declarationsOf project).Pairwise g.IdBelow
  complete : ∀ key, key ∈ g.declarationsOf project ↔ ∃ r ∈ done, r.key = key

theorem Kept.toArena {g : Graph} {project : ProjectKey} {p : Project} {done : List Registration}
    (h : Kept g project p done) : Arena g project p done := by
  have hget : ∀ id key, p.index.get? id = some key ↔ (id, key) ∈ p.index := fun id key =>
    ⟨Index.mem_of_get?_eq_some, Index.get?_eq_some_of_mem h.keyed.ascending⟩
  have hvalues : g.declarationsOf project = p.index.values := by
    rw [declarationsOf, h.found]
    rfl
  refine {
    found := h.found
    registered := fun id key => (hget id key).trans (h.index id key)
    keyed := fun id key hkey => (h.keyed.held id key ((hget id key).mp hkey)).2.2
    fresh := fun id key hkey => (h.keyed.held id key ((hget id key).mp hkey)).2.1
    listed := fun r hr => ?_
    symbols := h.symbols
    ascending := hvalues ▸ h.keyed.pairwise_idBelow
    complete := fun key => ?_ }
  · obtain ⟨scope, hscope⟩ := h.parent r hr
    refine ⟨scope, hscope, fun other => ?_⟩
    have hone : (done.map (·.key)).count r.key = 1 :=
      List.count_eq_one_of_mem h.nodup (List.mem_map_of_mem hr)
    rw [h.children]
    split
    · next he =>
      rw [List.count_filter (by simp [hscope, he]), hone]
    · next hne =>
      refine List.count_eq_zero_of_not_mem fun hmem => hne ?_
      have hother := of_decide_eq_true (List.mem_filter.mp hmem).2
      exact (Option.some.inj (hscope.symm.trans hother)).symm
  · rw [hvalues, Index.values, List.mem_map]
    constructor
    · rintro ⟨⟨id, k⟩, hmem, rfl⟩
      obtain ⟨r, hr, -, hkey⟩ := (h.index id k).mp hmem
      exact ⟨r, hr, hkey⟩
    · rintro ⟨r, hr, rfl⟩
      exact ⟨(r.id, r.key), (h.index _ _).mpr ⟨r, hr, rfl, rfl⟩, rfl⟩

/--
However declarations have been registered, the tables and scopes tell all registrations. A call
fails exactly if the declaration has an id under which one is registered, or if the id it is
registered under is too long to be reported. In the first case nothing changes, in the second one
the declaration is registered all the same. A new declaration is registered in any case.
-/
theorem Enrolled.arena_spec {name : String} {g : Graph} {done : List Registration}
    (h : Enrolled name g done) :
    ∃ p, Arena g 0 p done ∧
      (∀ key d symbol, g.declaration? key = some d →
        let call := g.register 0 key symbol
        let taken := 0 ≤ d.id ∧ ∃ r ∈ done, r.id = d.id
        ((∃ refusal, call.1 = .error refusal) ↔ taken ∨ ¬ Text.Writable (p.idFor d)) ∧
        (taken → call = (.error (.taken d.id), g)) ∧
        (¬ taken →
          call.1 = (if Text.Writable (p.idFor d) then .ok key else .error .unreported) ∧
          recorded key symbol call = [⟨key, p.idFor d, symbol⟩])) ∧
      ∀ title kind parent symbol,
        let call := g.create 0 title kind parent symbol
        let key := g.declarations.size
        call.1 = (if Text.Writable p.nextId then .ok key else .error .unreported) ∧
        recorded key symbol call = [⟨key, p.nextId, symbol⟩] := by
  obtain ⟨p, hkept⟩ := h.kept
  refine ⟨p, hkept.toArena, fun key d symbol hd => ?_, fun title kind parent symbol => ?_⟩
  · by_cases htaken : 0 ≤ d.id ∧ ∃ r ∈ done, r.id = d.id
    · have hcall := hkept.register_taken symbol hd htaken
      exact ⟨⟨fun _ => .inl htaken, fun _ => ⟨_, by rw [hcall]⟩⟩, fun _ => hcall,
        fun hfree => absurd htaken hfree⟩
    · obtain ⟨g', hcall, hrecorded, -⟩ := hkept.register_free symbol hd htaken
      refine ⟨?_, fun h => absurd h htaken, fun _ => ⟨by rw [hcall], hrecorded⟩⟩
      rw [hcall]
      by_cases hwritable : Text.Writable (p.idFor d) <;> simp [htaken, hwritable]
  · have hadded := hkept.add (d := { name := title, kind := kind, parent := parent }) rfl
    obtain ⟨g', hcall, hrecorded, -⟩ := hadded.register_free symbol Array.getElem?_push_size
      (by simp)
    exact ⟨congrArg Prod.fst hcall, hrecorded⟩

/--
A declaration with an id of its own, a new one below it that takes over its symbol number, and one
that is yet to be registered under the first id.
-/
def mixed : Graph :=
  let g := (empty.addProject "sample").add { id := 5, name := "Base", kind := .classOrInterface }
  let g := (g.register 0 0 (some 7)).2
  let g := (g.create 0 "part" .classOrInterface (some (.declaration 0)) (some 7)).2
  g.add { id := 5, name := "Second", kind := .classOrInterface }

theorem Enrolled.arena_spec_mixed :
    Enrolled "sample" mixed [⟨0, 5, some 7⟩, ⟨1, 6, some 7⟩] ∧
      (∃ p, Arena mixed 0 p [⟨0, 5, some 7⟩, ⟨1, 6, some 7⟩]) ∧
      (mixed.declaration? 2).map Declaration.id = some 5 ∧
      mixed.register 0 2 none = (.error (.taken 5), mixed) := by
  have hstart : Enrolled "sample" (empty.addProject "sample") [] := .start
  have hbase := hstart.declare { id := 5, name := "Base", kind := .classOrInterface } rfl
  have hregistered : Enrolled "sample" _ [⟨0, 5, some 7⟩] :=
    (@register "sample" _ _ 0 _ (some 7) hbase rfl fun _ h => nomatch h).of_eq (by decide +kernel)
  have hpart : Enrolled "sample" _ [⟨0, 5, some 7⟩, ⟨1, 6, some 7⟩] :=
    (@create "sample" _ _ "part" .classOrInterface (some (.declaration 0)) (some 7) hregistered
      fun scope hscope => .inr ⟨⟨0, 5, some 7⟩, List.mem_cons_self,
        (Option.some.inj hscope).symm⟩).of_eq (by decide +kernel)
  have hmixed : Enrolled "sample" mixed [⟨0, 5, some 7⟩, ⟨1, 6, some 7⟩] := hpart.declare _ rfl
  have hid : (mixed.declaration? 2).map Declaration.id = some 5 := by decide +kernel
  obtain ⟨d, hd, hd5⟩ := Option.map_eq_some_iff.mp hid
  obtain ⟨p, harena, hcalls, -⟩ := hmixed.arena_spec
  obtain ⟨-, htaken, -⟩ := hcalls 2 d none hd
  rw [hd5] at htaken
  exact ⟨hmixed, ⟨p, harena⟩, hid, htaken ⟨by decide, ⟨0, 5, some 7⟩, List.mem_cons_self, rfl⟩⟩

/-- The greatest id that can be reported. -/
def longestId : Int :=
  (10 ^ Text.maxDigits - 1 : Nat)

/-- The call that makes the declaration behind that id fails, and has registered it. -/
theorem Enrolled.create_unreported :
    ∃ g, Enrolled "sample" g [⟨0, longestId, none⟩] ∧ g.declarationsOf 0 = [0] ∧
      let call := g.create 0 "next" .classOrInterface none none
      call.1 = .error .unreported ∧ call.2.declarationsOf 0 = [0, 1] := by
  have hstart : Enrolled "sample" (empty.addProject "sample") [] := .start
  have hbase := hstart.declare { id := longestId, name := "Base", kind := .classOrInterface } rfl
  have hregistered : Enrolled "sample" _ [⟨0, longestId, none⟩] :=
    (@register "sample" _ _ 0 _ none hbase rfl fun _ h => nomatch h).of_eq (by decide +kernel)
  refine ⟨_, hregistered, ?_, ?_, ?_⟩
  all_goals decide +kernel

end Graph

end Lineage
