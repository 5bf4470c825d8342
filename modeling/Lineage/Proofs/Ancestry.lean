import Lineage.Proofs.Forest
import Lineage.Proofs.Loaded

/-!
# Ancestry

The way from an outermost declaration of a project down to one of its declarations. There is at
most one, no declaration is met twice on it, and the scopes around the declaration and its full name
are read off it. In an adopted project every declaration has such a way.
-/

namespace Lineage

namespace Graph

/-! ## Ways down -/

/-- The declarations from an outermost one of a project down to one, each the scope of the next. -/
inductive Path (g : Graph) (project : ProjectKey) : List DeclKey → DeclKey → Prop
  | top {key : DeclKey} : g.parentOf? (.declaration key) = some (.project project) →
    Path g project [key] key
  | inside {path : List DeclKey} {parent key : DeclKey} : Path g project path parent →
    g.parentOf? (.declaration key) = some (.declaration parent) →
    Path g project (path ++ [key]) key

namespace Path

variable {g : Graph} {project : ProjectKey} {path other : List DeclKey} {key : DeclKey}

theorem unique (h : g.Path project path key) (h' : g.Path project other key) : path = other := by
  induction h generalizing other with
  | top hp =>
    cases h' with
    | top _ => rfl
    | inside _ hp' => cases hp.symm.trans hp'
  | inside _ hp ih =>
    cases h' with
    | top hp' => cases hp.symm.trans hp'
    | inside h' hp' =>
      obtain rfl : _ = _ := Scope.declaration.inj (Option.some.inj (hp.symm.trans hp'))
      rw [ih h']

/-- The way to a declaration starts with the way to each declaration on it. -/
theorem upTo {before after : List DeclKey} {middle : DeclKey}
    (h : g.Path project (before ++ middle :: after) key) :
    g.Path project (before ++ [middle]) middle := by
  generalize hpath : before ++ middle :: after = path at h
  induction h generalizing after with
  | top hp =>
    obtain ⟨rfl, rfl, rfl⟩ : before = [] ∧ middle = _ ∧ after = [] := by
      simpa [List.append_eq_singleton_iff] using hpath
    exact .top hp
  | @inside path parent key h hp ih =>
    rcases List.eq_nil_or_concat' after with rfl | ⟨rest, last, rfl⟩
    · obtain ⟨rfl, rfl⟩ := List.append_singleton_inj.mp hpath
      exact .inside h hp
    · rw [← List.cons_append, ← List.append_assoc] at hpath
      exact ih (List.append_inj_left' hpath rfl)

theorem nodup (h : g.Path project path key) : path.Nodup := by
  induction h with
  | top _ => exact List.nodup_singleton _
  | @inside path parent key h hp ih =>
    rw [List.nodup_append]
    refine ⟨ih, List.nodup_singleton _, fun k hk other hother => ?_⟩
    obtain rfl := List.mem_singleton.mp hother
    rintro rfl
    -- A declaration that lies on the way to its own parent would have two ways.
    obtain ⟨before, after, rfl⟩ := List.append_of_mem hk
    have hlength := congrArg List.length ((h.inside hp).unique h.upTo)
    simp at hlength

/-- The scopes around a declaration are those on its way, and at last the project. -/
theorem scopesWithin_eq (h : g.Path project path key) {steps : Nat} (hsteps : path.length ≤ steps) :
    g.scopesWithin steps (.declaration key) =
      path.reverse.map .declaration ++ [.project project] := by
  induction h generalizing steps with
  | top hp =>
    obtain ⟨steps, rfl⟩ := Nat.exists_eq_add_one.mpr (show 0 < steps from hsteps)
    have hlast : ∀ n, g.scopesWithin n (.project project) = [.project project] := fun n => by
      cases n <;> rfl
    rw [scopesWithin, hp]
    simp [hlast]
  | inside _ hp ih =>
    rw [List.length_append, List.length_singleton] at hsteps
    obtain ⟨steps, rfl⟩ := Nat.exists_eq_add_one.mpr (show 0 < steps by omega)
    rw [scopesWithin, hp]
    simp [ih (Nat.le_of_succ_le_succ hsteps)]

theorem fullName_eq (h : g.Path project path key) (hlength : path.length ≤ g.declarations.size)
    {names : List String}
    (hnames : path.map (fun k => g.scopeName? (.declaration k)) = names.map some) :
    g.fullName key = ".".intercalate names := by
  have hread : path.filterMap (fun k => g.scopeName? (.declaration k)) = names := by
    have hsome := congrArg (List.filterMap id) hnames
    simpa [List.filterMap_map] using hsome
  rw [fullName, scopes, h.scopesWithin_eq hlength, List.filterMap_append, List.filterMap_map,
    List.filterMap_reverse, List.reverse_append, List.reverse_reverse]
  simp only [Function.comp_def, hread]
  rfl

/-- A way stays within declarations that are closed under what encloses them. -/
theorem mem_of_encloses (h : g.Path project path key) {keys : List DeclKey}
    (hkeys : Encloses g project keys) (hkey : key ∈ keys) : ∀ k ∈ path, k ∈ keys := by
  induction h with
  | top _ => simpa using hkey
  | inside _ hp ih =>
    have hparent := hkeys.parent _ hkey _ hp
    obtain ⟨k, hk, he⟩ := hparent.resolve_left Scope.noConfusion
    obtain rfl := Scope.declaration.inj he
    simpa [or_imp, forall_and, hkey] using ih hk

/-- A way is read off the parents of the declarations on it. -/
theorem of_parentOf?_eq {g' : Graph} (h : g.Path project path key)
    (hparent : ∀ k ∈ path, g'.parentOf? (.declaration k) = g.parentOf? (.declaration k)) :
    g'.Path project path key := by
  induction h with
  | top hp => exact .top ((hparent _ (List.mem_singleton_self _)).trans hp)
  | @inside path parent key _ hp ih =>
    have hself : key ∈ path ++ [key] := List.mem_append_right _ (List.mem_singleton_self _)
    exact .inside (ih fun k hk => hparent k (List.mem_append_left _ hk))
      ((hparent key hself).trans hp)

end Path

/-! ## Described scopes -/

/-- The scope that a described parent stands for: the declaration with its id, or the project. -/
def scopeOf? (g : Graph) (project : ProjectKey) : Option Int → Option Scope
  | none => some (.project project)
  | some id => (g.byId? project id).map .declaration

theorem isForest_of_adopt {g₀ g : Graph} {source : String} {spec : Description}
    (h : g₀.adopt source spec = .ok g) : Forest.IsForest spec.declarations := by
  obtain ⟨kinds, hc, -⟩ := adopt_eq_ok h
  exact Forest.exists_check_iff.mp ⟨kinds, hc⟩

namespace Adopted

variable {g₀ g : Graph} {spec : Description}

theorem byId?_eq_some (h : Adopted g₀ spec g) {id : Int} {key : DeclKey}
    (hkey : g.byId? g₀.projects.size id = some key) :
    ∃ i s, spec.declarations[i]? = some s ∧ s.id = id ∧ key = g₀.declarations.size + i := by
  obtain ⟨p, hp, hascending, hperm, -⟩ := h.project
  simp only [byId?, hp, Option.bind_eq_bind, Option.bind_some] at hkey
  have hentry := hperm.mem_iff.mp (Index.mem_of_get?_eq_some hkey)
  obtain ⟨⟨s, k⟩, hmem, he⟩ := List.mem_map.mp hentry
  obtain ⟨rfl, rfl⟩ := Prod.mk.inj he
  obtain ⟨hle, hs⟩ := List.mk_mem_zipIdx_iff_le_and_getElem?_sub.mp hmem
  exact ⟨_, s, hs, rfl, (Nat.add_sub_cancel' hle).symm⟩

/-- Each id leads to a declaration of its own. -/
theorem byId?_inj (h : Adopted g₀ spec g) {id other : Int} {key : DeclKey}
    (hkey : g.byId? g₀.projects.size id = some key)
    (hother : g.byId? g₀.projects.size other = some key) : id = other := by
  obtain ⟨i, s, hs, rfl, rfl⟩ := h.byId?_eq_some hkey
  obtain ⟨j, t, ht, rfl, he⟩ := h.byId?_eq_some hother
  obtain rfl := Nat.add_left_cancel he
  rw [Option.some.inj (hs.symm.trans ht)]

theorem scopeOf?_inj (h : Adopted g₀ spec g) {parent other : Option Int} {scope : Scope}
    (hparent : g.scopeOf? g₀.projects.size parent = some scope)
    (hother : g.scopeOf? g₀.projects.size other = some scope) : parent = other := by
  cases parent with
  | none =>
    obtain rfl := Option.some.inj hparent
    cases other with
    | none => rfl
    | some id => simp [scopeOf?] at hother
  | some id =>
    obtain ⟨key, hkey, rfl⟩ := Option.map_eq_some_iff.mp hparent
    cases other with
    | none => simp [scopeOf?] at hother
    | some id' =>
      obtain ⟨key', hkey', he⟩ := Option.map_eq_some_iff.mp hother
      obtain rfl := Scope.declaration.inj he
      rw [h.byId?_inj hkey hkey']

/-- A scope that is described is the project or one of its declarations. -/
theorem within_of_scopeOf? (h : Adopted g₀ spec g) {parent : Option Int} {scope : Scope}
    (hscope : g.scopeOf? g₀.projects.size parent = some scope) :
    scope.Within g₀.projects.size (g.declarationsOf g₀.projects.size) := by
  cases parent with
  | none => exact Or.inl (Option.some.inj hscope).symm
  | some id =>
    obtain ⟨key, hkey, rfl⟩ := Option.map_eq_some_iff.mp hscope
    obtain ⟨i, s, hs, -, rfl⟩ := h.byId?_eq_some hkey
    exact Or.inr ⟨_, h.mem_declarationsOf.mpr ⟨i, s, hs, rfl⟩, rfl⟩

/-- In a forest every declaration lies in the scope that its parent stands for. -/
theorem parentOf?_eq (h : Adopted g₀ spec g) (hf : Forest.ParentsFit spec.declarations
    spec.declarations) {i : Nat} {s : DeclarationEntry} (hs : spec.declarations[i]? = some s) :
    g.parentOf? (.declaration (g₀.declarations.size + i)) =
      g.scopeOf? g₀.projects.size s.parent := by
  rw [h.parent i s hs]
  cases hparent : s.parent with
  | none => simp [DeclarationEntry.scopeIn, hparent, scopeOf?]
  | some parent =>
    obtain ⟨-, hdescribed⟩ := hf s (List.mem_of_getElem? hs) parent hparent
    have hfind : (spec.declarations.findIdx? (·.id == parent)).isSome := by
      simpa using hdescribed
    obtain ⟨j, hj⟩ := Option.isSome_iff_exists.mp hfind
    obtain ⟨hlt, hid, -⟩ := List.findIdx?_eq_some_iff_getElem.mp hj
    have hid : spec.declarations[j].id = parent := by simpa using hid
    rw [scopeOf?, ← hid, h.byId?_eq (List.getElem?_eq_getElem hlt)]
    simp [DeclarationEntry.scopeIn, hparent, hj]

/-! ## Ways in an adopted project -/

theorem path_top (h : Adopted g₀ spec g) (hf : Forest.IsForest spec.declarations) {i : Nat}
    {s : DeclarationEntry} (hs : spec.declarations[i]? = some s) (hparent : s.parent = none) :
    g.Path g₀.projects.size [g₀.declarations.size + i] (g₀.declarations.size + i) := by
  refine .top ?_
  rw [h.parentOf?_eq hf.parents hs, hparent, scopeOf?]

/-- Parents that end within some number of steps are the way down in reverse. -/
theorem exists_path_of_endsWithin (h : Adopted g₀ spec g)
    (hf : Forest.IsForest spec.declarations) {steps i : Nat} {s : DeclarationEntry}
    (hs : spec.declarations[i]? = some s)
    (hends : Forest.endsWithin spec.declarations steps s.id = true) :
    ∃ path, g.Path g₀.projects.size path (g₀.declarations.size + i) := by
  induction steps generalizing i s with
  | zero =>
    cases hparent : s.parent with
    | none => exact ⟨_, h.path_top hf hs hparent⟩
    | some parent =>
      have hp := (Forest.parentOf_iff hf.entries).mp ⟨s, List.mem_of_getElem? hs, rfl, hparent⟩
      rw [Forest.endsWithin_zero hp] at hends
      cases hends
  | succ steps ih =>
    cases hparent : s.parent with
    | none => exact ⟨_, h.path_top hf hs hparent⟩
    | some parent =>
      have hp := (Forest.parentOf_iff hf.entries).mp ⟨s, List.mem_of_getElem? hs, rfl, hparent⟩
      rw [Forest.endsWithin_succ hp] at hends
      obtain ⟨-, hdescribed⟩ := hf.parents s (List.mem_of_getElem? hs) parent hparent
      obtain ⟨e, he, rfl⟩ := List.mem_map.mp hdescribed
      obtain ⟨j, hj⟩ := List.getElem?_of_mem he
      obtain ⟨path, hpath⟩ := ih hj hends
      refine ⟨_, hpath.inside ?_⟩
      rw [h.parentOf?_eq hf.parents hs, hparent, scopeOf?, h.byId?_eq hj, Option.map_some]

/-- Every declaration has a way down to it, with no more declarations than there are. -/
theorem exists_path (h : Adopted g₀ spec g) (hf : Forest.IsForest spec.declarations) {i : Nat}
    {s : DeclarationEntry} (hs : spec.declarations[i]? = some s) :
    ∃ path, g.Path g₀.projects.size path (g₀.declarations.size + i) ∧
      path.length ≤ spec.declarations.length ∧
      ∀ key ∈ path, key ∈ g.declarationsOf g₀.projects.size := by
  have hends : Forest.endsWithin spec.declarations spec.declarations.length s.id = true := by
    rw [Forest.endsWithin_length_iff hf.entries]
    exact Forest.acyclic_iff.mp hf.acyclic s (List.mem_of_getElem? hs)
  obtain ⟨path, hpath⟩ := h.exists_path_of_endsWithin hf hs hends
  have hmem := hpath.mem_of_encloses h.encloses (h.mem_declarationsOf.mpr ⟨i, s, hs, rfl⟩)
  have hlength := hpath.nodup.length_le_of_subset hmem
  rw [h.declarationsOf_perm.length_eq, List.length_range'] at hlength
  exact ⟨path, hpath, hlength, hmem⟩

/-- A way within the project is no longer than the table of declarations. -/
theorem length_path_le (h : Adopted g₀ spec g) {path : List DeclKey} {key : DeclKey}
    (hpath : g.Path g₀.projects.size path key)
    (hkey : key ∈ g.declarationsOf g₀.projects.size) : path.length ≤ g.declarations.size := by
  have hrange : path ⊆ List.range g.declarations.size := fun k hk => by
    obtain ⟨d, hd, -⟩ := h.loaded.declaration k (hpath.mem_of_encloses h.encloses hkey k hk)
    exact List.mem_range.mpr (Array.getElem?_eq_some_iff.mp hd).1
  have hsize := hpath.nodup.length_le_of_subset hrange
  rwa [List.length_range] at hsize

/-- The full name of a declaration joins the names on the way down to it. -/
theorem exists_names (h : Adopted g₀ spec g) (hf : Forest.IsForest spec.declarations) {i : Nat}
    {s : DeclarationEntry} (hs : spec.declarations[i]? = some s) :
    ∃ path names, g.Path g₀.projects.size path (g₀.declarations.size + i) ∧
      path.length ≤ spec.declarations.length ∧
      path.map (fun k => g.scopeName? (.declaration k)) = names.map some ∧
      g.fullName (g₀.declarations.size + i) = ".".intercalate names := by
  obtain ⟨path, hpath, hlength, hmem⟩ := h.exists_path hf hs
  have hnames : path.map (fun k => g.scopeName? (.declaration k)) =
      (path.map fun k => (g.scopeName? (.declaration k)).getD "").map some := by
    rw [List.map_map]
    refine List.map_congr_left fun k hk => ?_
    obtain ⟨d, hd, -⟩ := h.loaded.declaration k (hmem k hk)
    simp [scopeName?, hd]
  have hsize := h.length_path_le hpath (h.mem_declarationsOf.mpr ⟨i, s, hs, rfl⟩)
  exact ⟨path, _, hpath, hlength, hnames, hpath.fullName_eq hsize hnames⟩

end Adopted

end Graph

end Lineage
