import Lineage.Proofs.Realization

/-!
# Visibility

What dotted names find. A declaration is visible from a scope by the names on the way down to it,
where each declaration on the way is the first child of its name. A lookup from a project finds what
is visible from it, and a lookup from a declaration what is visible from the innermost scope around
it from which anything of that name is visible.
-/

namespace Lineage

/-! ## Dotted names -/

theorem not_mem_of_mem_splitOnP {α : Type} {p : α → Bool} {xs part : List α}
    (h : part ∈ xs.splitOnP p) : ∀ x ∈ part, p x = false := by
  induction xs generalizing part with
  | nil =>
    obtain rfl := List.mem_singleton.mp (List.splitOnP_nil ▸ h)
    exact List.forall_mem_nil _
  | cons y xs ih =>
    rw [List.splitOnP_cons_eq_if_modifyHead] at h
    split at h
    · rcases List.mem_cons.mp h with rfl | h
      · exact List.forall_mem_nil _
      · exact ih h
    · next hy =>
      obtain ⟨first, rest, hsplit⟩ := List.exists_cons_of_ne_nil (List.splitOnP_ne_nil p xs)
      rw [hsplit] at h ih
      rcases List.mem_cons.mp h with rfl | h
      · exact List.forall_mem_cons.mpr ⟨Bool.eq_false_iff.mpr hy, ih List.mem_cons_self⟩
      · exact ih (List.mem_cons_of_mem first h)

theorem not_mem_of_mem_dottedParts {s part : String} (h : part ∈ dottedParts s) :
    '.' ∉ part.toList := by
  obtain ⟨chars, hchars, rfl⟩ := List.mem_map.mp h
  rw [List.splitOn_eq_splitOnP] at hchars
  intro hdot
  rw [String.toList_ofList] at hdot
  have hfalse := not_mem_of_mem_splitOnP hchars '.' hdot
  simp at hfalse

theorem intercalate_dottedParts (s : String) : ".".intercalate (dottedParts s) = s := by
  have hdot : ".".toList = ['.'] := rfl
  have hparts : (dottedParts s).map String.toList = s.toList.splitOn '.' := by
    simp [dottedParts, Function.comp_def]
  rw [← String.toList_inj, String.toList_intercalate, hdot, hparts, List.intercalate_splitOn]

/-- Names without dots are read back from their dotted name, unless there is none. -/
theorem dottedParts_intercalate {names : List String} (hne : names ≠ [])
    (hfree : ∀ name ∈ names, '.' ∉ name.toList) :
    dottedParts (".".intercalate names) = names := by
  have hdot : ".".toList = ['.'] := rfl
  have hsplit : (['.'].intercalate (names.map String.toList)).splitOn '.' =
      names.map String.toList := by
    refine List.splitOn_intercalate '.' ?_ (by simpa using hne)
    simpa [List.forall_mem_map] using hfree
  rw [dottedParts, String.toList_intercalate, hdot, hsplit]
  simp [Function.comp_def]

namespace Graph

/-! ## Ways down by names -/

/-- A child of a scope that has a name, and none before it has. -/
def FirstChild (g : Graph) (scope : Scope) (name : String) (key : DeclKey) : Prop :=
  ∃ before after, g.childrenOf scope = before ++ key :: after ∧
    g.scopeName? (.declaration key) = some name ∧
    ∀ other ∈ before, g.scopeName? (.declaration other) ≠ some name

/-- The names on a way down from a scope, each of the first child of that name. -/
inductive Leads (g : Graph) : Scope → List String → DeclKey → Prop
  | child {scope : Scope} {name : String} {key : DeclKey} :
    g.FirstChild scope name key → Leads g scope [name] key
  | deeper {scope : Scope} {name : String} {names : List String} {key target : DeclKey} :
    g.FirstChild scope name key → Leads g (.declaration key) names target →
    Leads g scope (name :: names) target

/-- A declaration is visible from a scope by a text that joins the names on the way to it. -/
def Visible (g : Graph) (scope : Scope) (s : String) (key : DeclKey) : Prop :=
  ∃ names, g.Leads scope names key ∧ (∀ name ∈ names, '.' ∉ name.toList) ∧
    ".".intercalate names = s

variable {g : Graph} {scope : Scope}

theorem firstNamed_iff {name : String} {key : DeclKey} :
    g.firstNamed name (g.childrenOf scope) = some key ↔ g.FirstChild scope name key := by
  rw [firstNamed_eq_find?, List.find?_eq_some_iff_append]
  simp only [decide_eq_true_eq, Bool.not_eq_true', decide_eq_false_iff_not, FirstChild]
  constructor
  · rintro ⟨hname, before, after, hchildren, hbefore⟩
    exact ⟨before, after, hchildren, hname, hbefore⟩
  · rintro ⟨before, after, hchildren, hname, hbefore⟩
    exact ⟨hname, before, after, hchildren, hbefore⟩

theorem Leads.ne_nil {names : List String} {key : DeclKey} (h : g.Leads scope names key) :
    names ≠ [] := by
  cases h with
  | child _ => exact List.cons_ne_nil _ _
  | deeper _ _ => exact List.cons_ne_nil _ _

/-- Following names finds just what they lead to. -/
theorem below?_iff {names : List String} {key : DeclKey} :
    g.below? scope names = some key ↔ g.Leads scope names key := by
  induction names generalizing scope with
  | nil =>
    constructor
    · intro h
      cases h
    · intro h
      exact absurd rfl h.ne_nil
  | cons name rest ih =>
    cases rest with
    | nil =>
      refine firstNamed_iff.trans ⟨.child, fun h => ?_⟩
      cases h with
      | child h => exact h
      | deeper _ h => exact absurd rfl h.ne_nil
    | cons next rest =>
      have hstep : g.below? scope (name :: next :: rest) =
          (g.firstNamed name (g.childrenOf scope)).bind fun child =>
            g.below? (.declaration child) (next :: rest) := rfl
      rw [hstep, Option.bind_eq_some_iff]
      constructor
      · rintro ⟨child, hchild, hbelow⟩
        exact .deeper (firstNamed_iff.mp hchild) (ih.mp hbelow)
      · intro h
        cases h with
        | deeper hchild h => exact ⟨_, firstNamed_iff.mpr hchild, ih.mpr h⟩

/-- Following the parts of a text finds just what is visible by it. -/
theorem below?_dottedParts {s : String} {key : DeclKey} :
    g.below? scope (dottedParts s) = some key ↔ g.Visible scope s key := by
  rw [below?_iff]
  constructor
  · intro h
    exact ⟨_, h, fun _ => not_mem_of_mem_dottedParts, intercalate_dottedParts s⟩
  · rintro ⟨names, h, hfree, rfl⟩
    rwa [dottedParts_intercalate h.ne_nil hfree]

theorem below?_dottedParts_eq_none {s : String} :
    g.below? scope (dottedParts s) = none ↔ ∀ key, ¬ g.Visible scope s key := by
  simp only [Option.eq_none_iff_forall_ne_some, ne_eq, below?_dottedParts]

theorem Visible.unique {s : String} {key other : DeclKey} (h : g.Visible scope s key)
    (h' : g.Visible scope s other) : key = other :=
  Option.some.inj ((below?_dottedParts.mpr h).symm.trans (below?_dottedParts.mpr h'))

/-! ## Lookup outwards -/

/-- A declaration is visible from the first of some scopes from which anything is by that text. -/
def VisibleFirst (g : Graph) (scopes : List Scope) (s : String) (key : DeclKey) : Prop :=
  ∃ inner scope outer, scopes = inner ++ scope :: outer ∧ g.Visible scope s key ∧
    ∀ x ∈ inner, ∀ other, ¬ g.Visible x s other

theorem find?_eq_some_iff {s : String} {key : DeclKey} :
    g.find? scope (dottedParts s) = some key ↔ g.VisibleFirst (g.scopes scope) s key := by
  simp only [find?, List.findSome?_eq_some_iff, VisibleFirst, below?_dottedParts,
    below?_dottedParts_eq_none]

theorem find?_eq_none_iff {s : String} :
    g.find? scope (dottedParts s) = none ↔
      ∀ x ∈ g.scopes scope, ∀ key, ¬ g.Visible x s key := by
  simp only [find?, List.findSome?_eq_none_iff, below?_dottedParts_eq_none]

theorem scopes_project (g : Graph) (project : ProjectKey) :
    g.scopes (.project project) = [.project project] := by
  rw [scopes]
  cases g.declarations.size <;> rfl

theorem find?_project_iff {project : ProjectKey} {s : String} {key : DeclKey} :
    g.find? (.project project) (dottedParts s) = some key ↔
      g.Visible (.project project) s key := by
  rw [← below?_dottedParts, find?, scopes_project, List.findSome?_singleton]

/-! ## Full names -/

/-- The declarations from an outermost one of a project down to a scope. -/
def Reaches (g : Graph) (project : ProjectKey) (path : List DeclKey) : Scope → Prop
  | .project p => p = project ∧ path = []
  | .declaration key => g.Path project path key

theorem Reaches.child {project : ProjectKey} {path : List DeclKey} {key : DeclKey}
    (h : g.Reaches project path scope) (hparent : g.parentOf? (.declaration key) = some scope) :
    g.Path project (path ++ [key]) key := by
  cases scope with
  | project p =>
    obtain ⟨rfl, rfl⟩ := h
    exact .top hparent
  | declaration parent => exact .inside h hparent

namespace Adopted

variable {g₀ : Graph} {spec : Description}

/-- Names that lead down from a scope are those on the way from there. -/
theorem path_of_leads (h : Adopted g₀ spec g) {path : List DeclKey} {names : List String}
    {key : DeclKey} (hleads : g.Leads scope names key)
    (hscope : scope.Within g₀.projects.size (g.declarationsOf g₀.projects.size))
    (hreaches : g.Reaches g₀.projects.size path scope) :
    ∃ rest, g.Path g₀.projects.size (path ++ rest) key ∧
      rest.map (fun k => g.scopeName? (.declaration k)) = names.map some := by
  induction hleads generalizing path with
  | @child scope name key hfirst =>
    obtain ⟨before, after, hchildren, hname, -⟩ := hfirst
    have hparent := h.parentOf?_of_mem_childrenOf hscope
      (hchildren ▸ List.mem_append_right before List.mem_cons_self)
    exact ⟨[key], hreaches.child hparent, by simp [hname]⟩
  | @deeper scope name names key target hfirst _ ih =>
    obtain ⟨before, after, hchildren, hname, -⟩ := hfirst
    have hmem : key ∈ g.childrenOf scope :=
      hchildren ▸ List.mem_append_right before List.mem_cons_self
    have hparent := h.parentOf?_of_mem_childrenOf hscope hmem
    have hwithin : (Scope.declaration key).Within g₀.projects.size
        (g.declarationsOf g₀.projects.size) :=
      Or.inr ⟨key, h.encloses.children scope hscope key hmem, rfl⟩
    obtain ⟨rest, hpath, hnames⟩ := ih hwithin (hreaches.child hparent)
    exact ⟨key :: rest, by simpa using hpath, by simp [hname, hnames]⟩

/-- What is visible from the project is so by its full name only. -/
theorem fullName_of_visible (h : Adopted g₀ spec g) (hf : Forest.IsForest spec.declarations)
    {s : String} {key : DeclKey} (hvisible : g.Visible (.project g₀.projects.size) s key) :
    g.fullName key = s := by
  obtain ⟨names, hleads, -, rfl⟩ := hvisible
  have hmem := h.encloses.mem_of_below? (Or.inl rfl) (below?_iff.mpr hleads)
  obtain ⟨i, e, he, rfl⟩ := h.mem_declarationsOf.mp hmem
  obtain ⟨path, names', hpath, -, hnames', hfull⟩ := h.exists_names hf he
  have hreaches : g.Reaches g₀.projects.size [] (.project g₀.projects.size) := ⟨rfl, rfl⟩
  obtain ⟨rest, hrest, hnames⟩ := h.path_of_leads hleads (Or.inl rfl) hreaches
  obtain rfl := hpath.unique hrest
  have hsame : names' = names :=
    (List.map_inj_right fun _ _ => Option.some.inj).mp (hnames'.symm.trans hnames)
  rw [hfull, hsame]

end Adopted

/-! ## Lookup in a project -/

/-- The scopes around the last declaration on a way, from the inside out. -/
def around (project : ProjectKey) (path : List DeclKey) : List Scope :=
  path.reverse.map .declaration ++ [.project project]

/-- Lookups of dotted names are sound and complete, from the project and from its declarations. -/
structure Searchable (g : Graph) (project : ProjectKey) : Prop where
  unique : ∀ scope s key other, g.Visible scope s key → g.Visible scope s other → key = other
  project_iff : ∀ s key, g.find? (.project project) (dottedParts s) = some key ↔
    g.Visible (.project project) s key
  fullName : ∀ s key, g.find? (.project project) (dottedParts s) = some key → g.fullName key = s
  /-- The way outwards ends at the project after no more steps than there are declarations. -/
  declaration : ∀ origin ∈ g.declarationsOf project, ∃ path, g.Path project path origin ∧
    path.length ≤ (g.declarationsOf project).length ∧
    (∀ steps, path.length ≤ steps →
      g.scopesWithin steps (.declaration origin) = around project path) ∧
    ∀ s, (∀ key, g.find? (.declaration origin) (dottedParts s) = some key ↔
        g.VisibleFirst (around project path) s key) ∧
      (g.find? (.declaration origin) (dottedParts s) = none ↔
        ∀ scope ∈ around project path, ∀ key, ¬ g.Visible scope s key)

/-- In an adopted project a lookup finds a declaration just if it is visible by the given text. -/
theorem adopt_searchable {g₀ g : Graph} {source : String} {spec : Description}
    (h : g₀.adopt source spec = .ok g) : g.Searchable g₀.projects.size where
  unique scope s key other := Visible.unique
  project_iff s key := find?_project_iff
  fullName s key hkey :=
    (adopt_spec h).fullName_of_visible (isForest_of_adopt h) (find?_project_iff.mp hkey)
  declaration origin horigin := by
    have hadopted := adopt_spec h
    obtain ⟨i, e, he, rfl⟩ := hadopted.mem_declarationsOf.mp horigin
    obtain ⟨path, hpath, hlength, -⟩ := hadopted.exists_path (isForest_of_adopt h) he
    have hscopes : g.scopes (.declaration (g₀.declarations.size + i)) =
        around g₀.projects.size path :=
      hpath.scopesWithin_eq (hadopted.length_path_le hpath horigin)
    refine ⟨path, hpath, ?_, fun steps => hpath.scopesWithin_eq, fun s => ⟨fun key => ?_, ?_⟩⟩
    · rwa [hadopted.declarationsOf_perm.length_eq, List.length_range']
    · rw [← hscopes]
      exact find?_eq_some_iff
    · rw [← hscopes]
      exact find?_eq_none_iff

theorem adopt_searchable_nested :
    ∃ g, Graph.empty.adopt "nested" Description.nested = .ok g ∧ g.Searchable 0 := by
  obtain ⟨g, h⟩ := Graph.exists_adopt_nested
  have hsearchable := adopt_searchable h
  exact ⟨g, h, hsearchable⟩

end Graph

end Lineage
