import Lineage.Proofs.Frame
import Lineage.Description.Load
import Mathlib.Data.List.Basic

/-!
# Registration

Registering a declaration enters it into the index and the symbols of its project and puts it at
the end of the children of one scope. It changes nothing else of any declaration but its parent,
which is that scope from then on.
-/

namespace Lineage

/-! ## Indexes -/

namespace Index

variable {α : Type}

theorem set_perm {key : Int} (value : α) {index : Index α} (h : index.holds key = false) :
    (index.set key value).Perm ((key, value) :: index) := by
  induction index with
  | nil => exact List.Perm.refl _
  | cons e es ih =>
    simp only [set]
    split
    · exact List.Perm.refl _
    · next hlt =>
      by_cases he : e.1 = key
      · simp [holds, get?, he] at h
      · have hes : holds key es = false := by simpa [holds, get?, he] using h
        rw [if_neg he]
        exact ((ih hes).cons e).trans (List.Perm.swap _ _ es)

/-- The keys of an index are strictly ascending. -/
def Ascending (index : Index α) : Prop :=
  index.Pairwise fun a b => a.1 < b.1

theorem mem_set {key : Int} {value : α} {index : Index α} {e : Int × α}
    (h : e ∈ index.set key value) : e = (key, value) ∨ e ∈ index := by
  induction index with
  | nil => exact Or.inl (by simpa [set] using h)
  | cons u us ih =>
    simp only [set] at h
    split at h
    · exact List.mem_cons.mp h
    · split at h
      · rcases List.mem_cons.mp h with h | h
        · exact Or.inl h
        · exact Or.inr (List.mem_cons_of_mem _ h)
      · rcases List.mem_cons.mp h with rfl | h
        · exact Or.inr List.mem_cons_self
        · exact (ih h).imp_right (List.mem_cons_of_mem _)

theorem ascending_set (key : Int) (value : α) {index : Index α} (h : index.Ascending) :
    (index.set key value).Ascending := by
  induction index with
  | nil => exact List.pairwise_singleton _ _
  | cons e es ih =>
    have hes : Ascending es := h.of_cons
    simp only [set]
    split
    · next hlt =>
      refine List.pairwise_cons.mpr ⟨fun u hu => ?_, h⟩
      rcases List.mem_cons.mp hu with rfl | hu
      · exact hlt
      · exact Int.lt_trans hlt (List.rel_of_pairwise_cons h hu)
    · next hlt =>
      split
      · next he =>
        exact List.pairwise_cons.mpr ⟨fun u hu => he ▸ List.rel_of_pairwise_cons h hu, hes⟩
      · next he =>
        refine List.pairwise_cons.mpr ⟨fun u hu => ?_, ih hes⟩
        rcases mem_set hu with rfl | hu
        · exact Int.lt_iff_le_and_ne.mpr ⟨Int.not_lt.mp hlt, he⟩
        · exact List.rel_of_pairwise_cons h hu

theorem get?_eq_some_of_mem {key : Int} {value : α} {index : Index α} (hi : index.Ascending)
    (h : (key, value) ∈ index) : index.get? key = some value := by
  induction index with
  | nil => simp at h
  | cons e es ih =>
    rcases List.mem_cons.mp h with rfl | h
    · simp [get?]
    · have hlt := List.rel_of_pairwise_cons hi h
      rw [get?, if_neg (Int.ne_of_lt hlt), ih hi.of_cons h]

theorem mem_of_get?_eq_some {key : Int} {value : α} {index : Index α}
    (h : index.get? key = some value) : (key, value) ∈ index := by
  induction index with
  | nil => cases h
  | cons e es ih =>
    rw [get?] at h
    split at h
    · next he =>
      obtain rfl := Option.some.inj h
      exact he ▸ List.mem_cons_self
    · exact List.mem_cons_of_mem _ (ih h)

end Index

/-! ## Scopes -/

/-- A declaration without what registration changes. -/
def Declaration.body (d : Declaration) : Declaration :=
  { d with parent := none, children := [] }

/-- A project without its top-level declarations. -/
def Project.tables (p : Project) : Project :=
  { p with children := [] }

namespace Graph

def Knows (g : Graph) : Scope → Prop
  | .declaration key => (g.declaration? key).isSome
  | .project project => (g.project? project).isSome

/-- The scope that a declaration is registered under: its parent, or else the project. -/
def enclosing (g : Graph) (project : ProjectKey) (key : DeclKey) : Scope :=
  (g.parentOf? (.declaration key)).getD (.project project)

theorem project?_modifyProject (g : Graph) (project other : ProjectKey) (f : Project → Project) :
    (g.modifyProject project f).project? other =
      if project = other then (g.project? other).map f else g.project? other := by
  simp only [modifyProject, project?, Array.getElem?_modify]

theorem declaration?_modifyProject (g : Graph) (project : ProjectKey) (f : Project → Project)
    (key : DeclKey) : (g.modifyProject project f).declaration? key = g.declaration? key :=
  rfl

theorem project?_modify (g : Graph) (key : DeclKey) (f : Declaration → Declaration)
    (project : ProjectKey) : (g.modify key f).project? project = g.project? project :=
  rfl

theorem declaration?_addChild (g : Graph) (scope : Scope) (key other : DeclKey) :
    (g.addChild scope key).declaration? other =
      if scope = .declaration other then
        (g.declaration? other).map fun d => { d with children := d.children ++ [key] }
      else g.declaration? other := by
  cases scope with
  | declaration parent => simp [addChild, declaration?_modify]
  | project p => simp [addChild, declaration?_modifyProject]

theorem project?_addChild (g : Graph) (scope : Scope) (key : DeclKey) (other : ProjectKey) :
    (g.addChild scope key).project? other =
      if scope = .project other then
        (g.project? other).map fun p => { p with children := p.children ++ [key] }
      else g.project? other := by
  cases scope with
  | declaration parent => simp [addChild, project?_modify]
  | project p => simp [addChild, project?_modifyProject]

theorem childrenOf_addChild {g : Graph} {scope : Scope} (h : g.Knows scope) (key : DeclKey)
    (other : Scope) :
    (g.addChild scope key).childrenOf other =
      g.childrenOf other ++ if scope = other then [key] else [] := by
  cases other with
  | declaration k =>
    simp only [childrenOf, declaration?_addChild]
    split
    · next hs =>
      subst hs
      obtain ⟨d, hd⟩ := Option.isSome_iff_exists.mp h
      simp [hd]
    · simp
  | project p =>
    simp only [childrenOf, project?_addChild]
    split
    · next hs =>
      subst hs
      obtain ⟨d, hd⟩ := Option.isSome_iff_exists.mp h
      simp [hd]
    · simp

/-! ## One declaration -/

/-- What registering a declaration with a project changes. -/
structure RegisterSpec (g : Graph) (project : ProjectKey) (key : Nat) (id : Int)
    (symbol : Option Int) (g' : Graph) : Prop where
  size : g'.declarations.size = g.declarations.size
  links : g'.links = g.links
  body : ∀ k : Nat,
    (g'.declaration? k).map Declaration.body = (g.declaration? k).map Declaration.body
  children : ∀ scope, g'.childrenOf scope =
    g.childrenOf scope ++ if g.enclosing project key = scope then [key] else []
  parent : ∀ k : Nat, g'.parentOf? (.declaration k) =
    if key = k then some (g.enclosing project key) else g.parentOf? (.declaration k)
  others : ∀ other ≠ project, g.enclosing project key ≠ .project other →
    g'.project? other = g.project? other
  project : ∀ p, g.project? project = some p → p.index.holds id = false ∧
    ∃ p', g'.project? project = some p' ∧ p'.name = p.name ∧ p'.index = p.index.set id key ∧
      p'.symbols = symbol.elim p.symbols fun s => p.symbols.set s id

/-- Entering a declaration into a project touches no declaration but its id and its parent. -/
private def entered (g : Graph) (project : ProjectKey) (key : Nat) (id : Int)
    (symbol : Option Int) (scope : Scope) : Graph :=
  (g.modify key fun d => { d with id := id, parent := some scope }).modifyProject project
    fun p => p.enter id key symbol

private theorem declaration?_entered (g : Graph) (project : ProjectKey) (key : Nat) (id : Int)
    (symbol : Option Int) (scope : Scope) (other : DeclKey) :
    (g.entered project key id symbol scope).declaration? other =
      if key = other then
        (g.declaration? other).map fun d => { d with id := id, parent := some scope }
      else g.declaration? other := by
  rw [entered, declaration?_modifyProject, declaration?_modify]

private theorem project?_entered (g : Graph) (project : ProjectKey) (key : Nat) (id : Int)
    (symbol : Option Int) (scope : Scope) (other : ProjectKey) :
    (g.entered project key id symbol scope).project? other =
      if project = other then (g.project? other).map fun p => p.enter id key symbol
      else g.project? other := by
  rw [entered, project?_modifyProject, project?_modify]

private theorem knows_entered {g : Graph} {scope : Scope} (h : g.Knows scope)
    (project : ProjectKey) (key : Nat) (id : Int) (symbol : Option Int) (scope' : Scope) :
    (g.entered project key id symbol scope').Knows scope := by
  cases scope with
  | declaration k =>
    simp only [Knows, declaration?_entered] at *
    split <;> simpa using h
  | project p =>
    simp only [Knows, project?_entered] at *
    split <;> simpa using h

private theorem childrenOf_entered (g : Graph) (project : ProjectKey) (key : Nat) (id : Int)
    (symbol : Option Int) (scope other : Scope) :
    (g.entered project key id symbol scope).childrenOf other = g.childrenOf other := by
  cases other with
  | declaration k =>
    simp only [childrenOf, declaration?_entered]
    split
    · rw [Option.map_map]; rfl
    · rfl
  | project p =>
    simp only [childrenOf, project?_entered]
    split
    · rw [Option.map_map]; rfl
    · rfl

theorem enter_spec {g g' : Graph} {project : ProjectKey} {key : Nat} {symbol : Option Int}
    {d : Declaration} (h : g.enter project key symbol = .ok g')
    (hp : g.Knows (.project project)) (hd : g.declaration? key = some d) (hid : 0 ≤ d.id)
    (hs : g.Knows (g.enclosing project key)) : RegisterSpec g project key d.id symbol g' := by
  obtain ⟨p, hp⟩ := Option.isSome_iff_exists.mp hp
  have hidFor : p.idFor d = d.id := if_neg (Int.not_lt.mpr hid)
  have hscope : d.parent.getD (.project project) = g.enclosing project key := by
    simp [enclosing, parentOf?, hd]
  simp only [enter, hp, hd, hidFor, hscope] at h
  split at h
  · cases h
  · next hfree =>
    have hg' : g' = (g.entered project key d.id symbol (g.enclosing project key)).addChild
        (g.enclosing project key) key := (Except.ok.inj h).symm
    subst hg'
    refine ⟨?_, ?_, fun k => ?_, fun scope => ?_, fun k => ?_, fun other hne hother => ?_,
      fun q hq => ?_⟩
    · cases g.enclosing project key <;> simp [addChild, entered, modifyProject]
    · cases g.enclosing project key <;> rfl
    · rw [declaration?_addChild, declaration?_entered]
      by_cases hk : key = k
      · subst hk
        split <;> simp [hd, Declaration.body]
      · rw [if_neg hk]
        split
        · rw [Option.map_map]; rfl
        · rfl
    · rw [childrenOf_addChild (knows_entered hs ..), childrenOf_entered]
    · rw [parentOf?, parentOf?, declaration?_addChild, declaration?_entered]
      by_cases hk : key = k
      · subst hk
        split <;> simp [hd]
      · rw [if_neg hk, if_neg hk]
        split
        · rw [Option.bind_map]; rfl
        · rfl
    · rw [project?_addChild, if_neg hother, project?_entered, if_neg hne.symm]
    · obtain rfl : p = q := Option.some.inj (hp.symm.trans hq)
      refine ⟨by simpa using hfree, ?_⟩
      rw [project?_addChild, project?_entered, if_pos rfl, hp]
      split <;> exact ⟨_, rfl, rfl, rfl, rfl⟩

/--
What registering a declaration enters into the tables of projects and into declarations, wherever
the declaration lies.
-/
structure EntrySpec (g : Graph) (project : ProjectKey) (key : Nat) (id : Int)
    (symbol : Option Int) (g' : Graph) : Prop where
  ids : ∀ k : Nat, (g'.declaration? k).map Declaration.id =
    if key = k then some id else (g.declaration? k).map Declaration.id
  tables : ∀ other, (g'.project? other).map Project.tables =
    if project = other then (g.project? other).map fun p => (p.enter id key symbol).tables
    else (g.project? other).map Project.tables

theorem enter_ok_or_taken {g : Graph} {project : ProjectKey} {p : Project} {key : Nat}
    {d : Declaration} (hp : g.project? project = some p) (hd : g.declaration? key = some d)
    (symbol : Option Int) :
    (p.index.holds (p.idFor d) = true ∧ g.enter project key symbol = .error (p.idFor d)) ∨
    (p.index.holds (p.idFor d) = false ∧ ∃ g', g.enter project key symbol = .ok g' ∧
      EntrySpec g project key (p.idFor d) symbol g') := by
  have henter : g.enter project key symbol =
      if p.index.holds (p.idFor d) then .error (p.idFor d)
      else
        let scope := d.parent.getD (.project project)
        .ok ((g.entered project key (p.idFor d) symbol scope).addChild scope key) := by
    simp only [enter, hp, hd]
    rfl
  rw [henter]
  cases hheld : p.index.holds (p.idFor d) with
  | true => exact .inl ⟨rfl, by simp⟩
  | false =>
    refine .inr ⟨rfl, _, by simp; rfl, fun k => ?_, fun other => ?_⟩
    · rw [declaration?_addChild, declaration?_entered]
      by_cases hk : key = k
      · subst hk
        split <;> simp [hd]
      · rw [if_neg hk, if_neg hk]
        split
        · rw [Option.map_map]; rfl
        · rfl
    · rw [project?_addChild, project?_entered]
      by_cases hother : project = other
      · subst hother
        split <;> simp [hp, Project.tables, Project.enter]
      · rw [if_neg hother, if_neg hother]
        split
        · rw [Option.map_map]; rfl
        · rfl

/-! ## Calls -/

theorem project?_assignId (g : Graph) (project other : ProjectKey) (key : DeclKey) :
    (g.assignId project key).project? other = g.project? other := by
  rw [assignId]
  split <;> rfl

section Call

variable {g : Graph} {project : ProjectKey} {key : DeclKey} {p : Project} {d : Declaration}
  (hp : g.project? project = some p) (hd : g.declaration? key = some d)
include hp hd

theorem declaration?_assignId_self :
    (g.assignId project key).declaration? key = some { d with id := p.idFor d } := by
  rw [assignId, hp, declaration?_modify_self, hd, Option.map_some]

/-- A declaration with an id is not changed by being assigned one. -/
theorem assignId_eq_self (hid : 0 ≤ d.id) : g.assignId project key = g := by
  have hdeclarations : (g.assignId project key).declarations = g.declarations := by
    apply Array.ext_getElem?
    intro k
    rw [assignId, hp]
    change (g.modify key _).declaration? k = g.declaration? k
    rw [declaration?_modify]
    split
    · next he =>
      subst he
      simp [hd, Project.idFor, Int.not_lt.mpr hid]
    · rfl
  rw [assignId, hp] at hdeclarations ⊢
  simp only [modify] at hdeclarations ⊢
  rw [hdeclarations]

/--
All that a call comes to: it is refused, or the declaration is entered under its id and then
reported, which fails if the id is too long.
-/
theorem register_cases (hpos : 0 ≤ p.idFor d) (symbol : Option Int) :
    (p.index.holds (p.idFor d) = true ∧ g.register project key symbol =
      (.error (.taken (p.idFor d)), g.assignId project key)) ∨
    (p.index.holds (p.idFor d) = false ∧
      ∃ g', (g.assignId project key).enter project key symbol = .ok g' ∧
        (g'.declaration? key).map Declaration.id = some (p.idFor d) ∧
        g.register project key symbol =
          (if Text.Writable (p.idFor d) then .ok key else .error .unreported, g')) := by
  have hp₁ : (g.assignId project key).project? project = some p := by rw [project?_assignId, hp]
  have hidFor : p.idFor { d with id := p.idFor d } = p.idFor d := if_neg (Int.not_lt.mpr hpos)
  rcases enter_ok_or_taken hp₁ (declaration?_assignId_self hp hd) symbol with
    ⟨htaken, herror⟩ | ⟨hfree, g', hok, hentry⟩
  · rw [hidFor] at htaken herror
    exact .inl ⟨htaken, by rw [register, herror]⟩
  · rw [hidFor] at hfree hentry
    have hentered := (hentry.ids key).trans (if_pos rfl)
    obtain ⟨d', hd', hid⟩ := Option.map_eq_some_iff.mp hentered
    have hreport : g'.report key =
        if Text.Writable (p.idFor d) then .ok key else .error .unreported := by
      simp only [report, hd', Option.mem_some_iff, forall_eq', hid]
    exact .inr ⟨hfree, g', hok, hentered, by rw [register, hok, ← hreport]⟩

end Call

/-! ## A description -/

/-- What registering described declarations, which stand from `key` on, changes. -/
structure RegisteredSpec (g : Graph) (project : ProjectKey) (key : Nat)
    (entries : List DeclarationEntry) (g' : Graph) : Prop where
  size : g'.declarations.size = g.declarations.size
  links : g'.links = g.links
  body : ∀ k : Nat,
    (g'.declaration? k).map Declaration.body = (g.declaration? k).map Declaration.body
  children : ∀ scope, g'.childrenOf scope = g.childrenOf scope ++
    (List.range' key entries.length).filter fun k => decide (g.enclosing project k = scope)
  parent : ∀ k : Nat, g'.parentOf? (.declaration k) =
    if key ≤ k ∧ k < key + entries.length then some (g.enclosing project k)
    else g.parentOf? (.declaration k)
  others : ∀ other ≠ project, g'.project? other = g.project? other
  project : ∀ p, g.project? project = some p → ∃ p', g'.project? project = some p' ∧
    p'.name = p.name ∧
    p'.index.Perm ((entries.zipIdx key).map (fun e => (e.1.id, e.2)) ++ p.index) ∧
    (p.index.Ascending → p'.index.Ascending) ∧
    ∀ symbol, p'.symbols.get? symbol =
      ((entries.reverse.find? (·.symbol == some symbol)).map (·.id)).or (p.symbols.get? symbol)

/-- Declarations that stand from `key` on with the described ids, each below another or none. -/
structure Standing (g : Graph) (project : ProjectKey) (key : Nat)
    (entries : List DeclarationEntry) : Prop where
  known : g.Knows (.project project)
  declaration : ∀ i s, entries[i]? = some s →
    ∃ d, g.declaration? (key + i) = some d ∧ d.id = s.id ∧ 0 ≤ s.id
  parent : ∀ i scope, i < entries.length → g.parentOf? (.declaration (key + i)) = some scope →
    ∃ k, scope = .declaration k ∧ g.Knows scope

namespace Standing

variable {g g' : Graph} {project : ProjectKey} {key : Nat} {s : DeclarationEntry}
  {entries : List DeclarationEntry}

theorem knows_enclosing (h : Standing g project key (s :: entries)) :
    g.Knows (g.enclosing project key) := by
  unfold enclosing
  cases hp : g.parentOf? (.declaration key) with
  | none => exact h.known
  | some scope =>
    obtain ⟨k, -, hk⟩ := h.parent 0 scope (by simp) hp
    exact hk

theorem enclosing_ne (h : Standing g project key (s :: entries)) {other : ProjectKey}
    (hne : other ≠ project) : g.enclosing project key ≠ .project other := by
  unfold enclosing
  cases hp : g.parentOf? (.declaration key) with
  | none => exact fun he => hne (Scope.project.inj he).symm
  | some scope =>
    obtain ⟨k, rfl, -⟩ := h.parent 0 scope (by simp) hp
    exact nofun

theorem rest (h : Standing g project key (s :: entries))
    (hr : RegisterSpec g project key s.id s.symbol g') : Standing g' project (key + 1) entries := by
  have hbody : ∀ k : Nat, (g'.declaration? k).isSome = (g.declaration? k).isSome := fun k => by
    simpa only [Option.isSome_map] using congrArg Option.isSome (hr.body k)
  refine ⟨?_, fun i e he => ?_, fun i scope hi hp => ?_⟩
  · obtain ⟨p, hp⟩ := Option.isSome_iff_exists.mp h.known
    obtain ⟨-, p', hp', -⟩ := hr.project p hp
    simp [Knows, hp']
  · obtain ⟨d, hd, hid, hpos⟩ := h.declaration (i + 1) e (by simpa using he)
    have hb := hr.body (key + (i + 1))
    rw [hd, Option.map_some] at hb
    obtain ⟨d', hd', he'⟩ := Option.map_eq_some_iff.mp hb
    refine ⟨d', by rw [Nat.add_assoc, Nat.add_comm 1, hd'], ?_, hpos⟩
    exact (congrArg Declaration.id he').trans hid
  · rw [hr.parent, if_neg (by omega), Nat.add_assoc, Nat.add_comm 1] at hp
    obtain ⟨k, rfl, hk⟩ := h.parent (i + 1) scope (by simpa using hi) hp
    exact ⟨k, rfl, by simpa only [Knows, hbody] using hk⟩

/-- What registering the first declaration comes to. -/
theorem register_cases (h : Standing g project key (s :: entries)) {p : Project}
    (hp : g.project? project = some p) :
    (p.index.holds s.id = true ∧
      g.register project key s.symbol = (.error (.taken s.id), g)) ∨
    (p.index.holds s.id = false ∧ ∃ g', RegisterSpec g project key s.id s.symbol g' ∧
      g.register project key s.symbol =
        (if Text.Writable s.id then .ok key else .error .unreported, g')) := by
  obtain ⟨d, hd, hid, hpos⟩ := h.declaration 0 s rfl
  rw [Nat.add_zero] at hd
  have hidFor : p.idFor d = s.id := by rw [Project.idFor, hid, if_neg (Int.not_lt.mpr hpos)]
  have hsame : g.assignId project key = g := assignId_eq_self hp hd (hid ▸ hpos)
  have hcases := Graph.register_cases hp hd (hidFor ▸ hpos) s.symbol
  rw [hidFor, hsame] at hcases
  refine hcases.imp_right fun ⟨hfree, g', henter, _, hcall⟩ => ⟨hfree, g', ?_, hcall⟩
  exact hid ▸ enter_spec henter h.known hd (hid ▸ hpos) h.knows_enclosing

end Standing

private theorem get?_symbols (symbols : Index Int) (s : DeclarationEntry) (symbol : Int) :
    (s.symbol.elim symbols fun n => symbols.set n s.id).get? symbol =
      (([s].find? (·.symbol == some symbol)).map (·.id)).or (symbols.get? symbol) := by
  cases hs : s.symbol with
  | none => simp [hs]
  | some n =>
    by_cases hn : n = symbol
    · subst hn
      simp [hs, Index.get?_set_self]
    · simp [hs, hn, Index.get?_set_of_ne s.id symbols (Ne.symm hn)]

theorem RegisterSpec.enclosing_eq {g g' : Graph} {project : ProjectKey} {key k : Nat} {id : Int}
    {symbol : Option Int} (hr : RegisterSpec g project key id symbol g') (hk : key < k) :
    g'.enclosing project k = g.enclosing project k := by
  rw [enclosing, enclosing, hr.parent, if_neg (by omega)]

theorem RegisterSpec.cons {g g₁ g' : Graph} {project : ProjectKey} {key : Nat}
    {s : DeclarationEntry} {entries : List DeclarationEntry}
    (hr : RegisterSpec g project key s.id s.symbol g₁)
    (hne : ∀ other ≠ project, g.enclosing project key ≠ .project other)
    (hrest : RegisteredSpec g₁ project (key + 1) entries g') :
    RegisteredSpec g project key (s :: entries) g' := by
  refine ⟨hrest.size.trans hr.size, hrest.links.trans hr.links,
    fun k => (hrest.body k).trans (hr.body k), fun scope => ?_, fun k => ?_,
    fun other hother =>
      (hrest.others other hother).trans (hr.others other hother (hne other hother)),
    fun p hp => ?_⟩
  · have hfilter : (List.range' (key + 1) entries.length).filter
          (fun k => decide (g₁.enclosing project k = scope)) =
        (List.range' (key + 1) entries.length).filter
          (fun k => decide (g.enclosing project k = scope)) := by
      apply List.filter_congr
      intro k hk
      rw [hr.enclosing_eq (List.mem_range'_1.mp hk).1]
    rw [hrest.children, hr.children, List.append_assoc, List.length_cons, List.range'_succ,
      List.filter_cons, hfilter]
    split <;> simp_all
  · rw [hrest.parent, hr.parent, List.length_cons]
    by_cases hk : key = k
    · subst hk
      rw [if_neg (by omega), if_pos rfl, if_pos (by omega)]
    · rw [if_neg hk]
      by_cases hlt : key < k
      · rw [hr.enclosing_eq hlt]
        congr 1
        simp only [eq_iff_iff]
        omega
      · rw [if_neg (by omega), if_neg (by omega)]
  · obtain ⟨hfree, p₁, hp₁, hname, hindex, hsymbols⟩ := hr.project p hp
    obtain ⟨p', hp', hname', hperm, hascending, hget⟩ := hrest.project p₁ hp₁
    refine ⟨p', hp', hname'.trans hname, ?_, fun ha => ?_, fun symbol => ?_⟩
    · rw [hindex] at hperm
      refine hperm.trans ?_
      rw [List.zipIdx_cons, List.map_cons, List.cons_append]
      exact ((Index.set_perm key hfree).append_left _).trans List.perm_middle
    · exact hascending (hindex ▸ Index.ascending_set s.id key ha)
    · rw [hget, hsymbols, get?_symbols, List.reverse_cons, List.find?_append, Option.map_or,
        Option.or_assoc]

theorem registerFrom_spec {g g' : Graph} {project : ProjectKey} {key : Nat}
    {entries : List DeclarationEntry} (h : g.registerFrom project key entries = .ok g')
    (hs : Standing g project key entries) : RegisteredSpec g project key entries g' := by
  induction entries generalizing g key with
  | nil =>
    obtain rfl := Except.ok.inj h
    refine ⟨rfl, rfl, fun k => rfl, fun scope => by simp, fun k => ?_, fun _ _ => rfl,
      fun p hp => ?_⟩
    · rw [if_neg (by simp)]
    · exact ⟨p, hp, rfl, by simp, id, fun symbol => by simp⟩
  | cons s entries ih =>
    obtain ⟨p, hp⟩ := Option.isSome_iff_exists.mp hs.known
    rw [registerFrom] at h
    rcases hs.register_cases hp with ⟨-, hcall⟩ | ⟨-, g₁, hr, hcall⟩
    · rw [hcall] at h
      cases h
    · rw [hcall] at h
      by_cases hwritable : Text.Writable s.id
      · rw [if_pos hwritable] at h
        exact hr.cons (fun _ hne => hs.enclosing_ne hne) (ih h (hs.rest hr))
      · rw [if_neg hwritable] at h
        cases h

/-! ## Free ids -/

/-- Standing declarations whose ids are distinct and free are registered, up to one whose id is too
long to be reported. -/
theorem registerFrom_cases {g : Graph} {project : ProjectKey} {key : Nat} {p : Project}
    {entries : List DeclarationEntry} (hs : Standing g project key entries)
    (hp : g.project? project = some p) (hdistinct : (entries.map (·.id)).Nodup)
    (hfree : ∀ s ∈ entries, p.index.holds s.id = false) :
    ((∀ s ∈ entries, Text.Writable s.id) ∧ ∃ g', g.registerFrom project key entries = .ok g') ∨
      (∃ s ∈ entries, ¬ Text.Writable s.id) ∧
        g.registerFrom project key entries = .error .unwritable := by
  induction entries generalizing g key p with
  | nil => exact .inl ⟨List.forall_mem_nil _, g, rfl⟩
  | cons s entries ih =>
    obtain ⟨hnew, hdistinct⟩ := List.nodup_cons.mp hdistinct
    rw [List.forall_mem_cons] at hfree
    obtain ⟨hsfree, hfree⟩ := hfree
    rcases hs.register_cases hp with ⟨htaken, -⟩ | ⟨-, g₁, hr, hcall⟩
    · exact absurd (htaken.symm.trans hsfree) (by decide)
    · by_cases hwritable : Text.Writable s.id
      · obtain ⟨-, p₁, hp₁, -, hindex, -⟩ := hr.project p hp
        have hrest : g.registerFrom project key (s :: entries) =
            g₁.registerFrom project (key + 1) entries := by
          rw [registerFrom, hcall, if_pos hwritable]
        rw [hrest]
        have hcases := ih (hs.rest hr) hp₁ hdistinct fun e he => by
          -- The id that has been taken is none of those to come.
          have hne : e.id ≠ s.id := fun h => hnew (List.mem_map.mpr ⟨e, he, h⟩)
          rw [hindex, Index.holds, Index.get?_set_of_ne key p.index hne]
          exact hfree e he
        refine hcases.imp (fun ⟨hall, hok⟩ => ⟨List.forall_mem_cons.mpr ⟨hwritable, hall⟩, hok⟩) ?_
        exact fun ⟨⟨e, he, hlong⟩, herror⟩ => ⟨⟨e, List.mem_cons_of_mem _ he, hlong⟩, herror⟩
      · refine .inr ⟨⟨s, List.mem_cons_self, hwritable⟩, ?_⟩
        rw [registerFrom, hcall, if_neg hwritable]
        rfl

end Graph

end Lineage
