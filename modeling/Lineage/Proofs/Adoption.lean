import Lineage.Proofs.Placement
import Lineage.Proofs.Registration

/-!
# Adopting a description

What a graph holds of a project it has adopted: the declarations in the order of their description,
each under its id and in its scope, with references that are not linked and share no link.
-/

namespace Lineage

/-! ## The check -/

namespace Forest

/-- Ids and kinds pass if every id is new and not negative, and every kind is known. -/
theorem kindsOf_eq_ok {seen : List Int} {entries : List DeclarationEntry} {kinds : List Kind}
    (h : kindsOf seen entries = .ok kinds) :
    entries.map (fun s => Kind.ofName? s.kind) = kinds.map some ∧
      (∀ s ∈ entries, 0 ≤ s.id ∧ s.id ∉ seen) ∧ (entries.map (·.id)).Nodup := by
  induction entries generalizing seen kinds with
  | nil =>
    obtain rfl := Except.ok.inj h
    simp
  | cons s rest ih =>
    simp only [kindsOf] at h
    split at h
    · cases h
    · next hpos =>
      split at h
      · cases h
      · next hnew =>
        split at h
        · cases h
        · next kind hkind =>
          cases hrest : kindsOf (s.id :: seen) rest with
          | error defect => rw [hrest] at h; cases h
          | ok ks =>
            rw [hrest] at h
            obtain rfl := Except.ok.inj h
            obtain ⟨hkinds, hids, hnodup⟩ := ih hrest
            refine ⟨by simp [hkind, hkinds], ?_, ?_⟩
            · intro e he
              rcases List.mem_cons.mp he with rfl | he
              · exact ⟨Int.not_lt.mp hpos, hnew⟩
              · exact ⟨(hids e he).1, fun hs => (hids e he).2 (List.mem_cons_of_mem _ hs)⟩
            · refine List.nodup_cons.mpr ⟨fun hs => ?_, hnodup⟩
              obtain ⟨e, he, heq⟩ := List.mem_map.mp hs
              exact (hids e he).2 (heq ▸ List.mem_cons_self)

theorem check_eq_ok {all : List DeclarationEntry} {kinds : List Kind} (h : check all = .ok kinds) :
    kindsOf [] all = .ok kinds ∧ firstDefect (parentDefect? all) all = .ok () ∧
      firstDefect (cycleDefect? all) all = .ok () := by
  unfold check at h
  cases hk : kindsOf [] all with
  | error defect => rw [hk] at h; cases h
  | ok ks =>
    rw [hk] at h
    cases hp : firstDefect (parentDefect? all) all with
    | error defect => rw [hp] at h; cases h
    | ok =>
      rw [hp] at h
      cases hc : firstDefect (cycleDefect? all) all with
      | error defect => rw [hc] at h; cases h
      | ok =>
        rw [hc] at h
        obtain rfl := Except.ok.inj h
        exact ⟨rfl, rfl, rfl⟩

end Forest

/-! ## Declarations and their references -/

/-- The scope that is described for a declaration is that of another one. -/
theorem DeclarationEntry.scopeIn_eq_some {base : Nat} {all : List DeclarationEntry}
    {s : DeclarationEntry} {scope : Scope} (h : s.scopeIn base all = some scope) :
    ∃ i < all.length, scope = .declaration (base + i) := by
  obtain ⟨i, hi, rfl⟩ := Option.map_eq_some_iff.mp h
  obtain ⟨parent, -, hfind⟩ := Option.bind_eq_some_iff.mp hi
  exact ⟨i, (List.findIdx?_eq_some_iff_getElem.mp hfind).1, rfl⟩

namespace Description

def referenceCount (spec : Description) : Nat :=
  (spec.declarations.map (·.referenceCount)).sum

def referencesBefore (spec : Description) (i : Nat) : Nat :=
  ((spec.declarations.take i).map (·.referenceCount)).sum

/-- The last declaration of a description that carries a symbol number. -/
def lastCarrying? (spec : Description) (symbol : Int) : Option DeclarationEntry :=
  spec.declarations.reverse.find? (·.symbol == some symbol)

end Description

namespace Graph

def referencesAt (g : Graph) (key : DeclKey) : List Reference :=
  ((g.declaration? key).map (·.references)).getD []

/-- A graph that has adopted a described project. -/
structure Adopted (g₀ : Graph) (spec : Description) (g : Graph) : Prop where
  /-- Each described declaration stands at its position, without anything that a run adds. -/
  declaration : ∀ i s, spec.declarations[i]? = some s →
    ∃ d, g.declaration? (g₀.declarations.size + i) = some d ∧ d.id = s.id ∧ d.name = s.name ∧
      Kind.ofName? s.kind = some d.kind ∧ d.bare = d
  /-- The references of all declarations together use the new links, each once. -/
  references : ((List.range' g₀.declarations.size spec.declarations.length).flatMap
      g.referencesAt).map Reference.link? =
    (List.range' g₀.links.size spec.referenceCount).map some
  links : g.links = g₀.links ++ Array.replicate spec.referenceCount none
  /-- The project finds each declaration under its id and the last one under a symbol number. -/
  project : ∃ p, g.project? g₀.projects.size = some p ∧ p.index.Ascending ∧
    p.index.Perm ((spec.declarations.zipIdx g₀.declarations.size).map fun e => (e.1.id, e.2)) ∧
    ∀ symbol, p.symbols.get? symbol = (spec.lastCarrying? symbol).map (·.id)
  /-- Each declaration lies in the scope that is described for it. -/
  parent : ∀ i s, spec.declarations[i]? = some s →
    g.parentOf? (.declaration (g₀.declarations.size + i)) =
      some ((s.scopeIn g₀.declarations.size spec.declarations).getD (.project g₀.projects.size))
  /-- The children of a scope are the declarations that lie in it, as they are described. -/
  children : ∀ scope, (scope = .project g₀.projects.size ∨
      ∃ i < spec.declarations.length, scope = .declaration (g₀.declarations.size + i)) →
    g.childrenOf scope = (List.range' g₀.declarations.size spec.declarations.length).filter
      fun k => decide (g.parentOf? (.declaration k) = some scope)

/-! ## Placing and registering -/

section Placed

variable (g₀ : Graph) {spec : Description} {kinds : List Kind}

/-- The graph in which the declarations stand and no one is registered. -/
private def placed (g₀ : Graph) (spec : Description) (kinds : List Kind) : Graph :=
  (spec.declarations.zip kinds).foldl (place g₀.declarations.size spec.declarations)
    (g₀.addProject spec.name)

omit g₀ in
private theorem mentioned_zip (hlen : kinds.length = spec.declarations.length) :
    mentioned (spec.declarations.zip kinds) = spec.referenceCount := by
  have hfst : (spec.declarations.zip kinds).map (·.1) = spec.declarations :=
    List.map_fst_zip (by omega)
  have hmap := congrArg (List.map (·.referenceCount)) hfst
  rw [List.map_map] at hmap
  exact congrArg List.sum hmap

omit g₀ in
private theorem mentioned_take_zip (hlen : kinds.length = spec.declarations.length) (i : Nat) :
    mentioned ((spec.declarations.zip kinds).take i) = spec.referencesBefore i := by
  have hfst : (spec.declarations.zip kinds).map (·.1) = spec.declarations :=
    List.map_fst_zip (by omega)
  have hmap := congrArg (fun entries => (entries.take i).map (·.referenceCount)) hfst
  simp only [← List.map_take, List.map_map] at hmap
  exact congrArg List.sum hmap

private theorem placed_eq (hlen : kinds.length = spec.declarations.length) :
    placed g₀ spec kinds =
      { declarations := g₀.declarations ++ (placements g₀.declarations.size spec.declarations
          g₀.links.size (spec.declarations.zip kinds)).toArray
        projects := g₀.projects.push { name := spec.name }
        links := g₀.links ++ Array.replicate spec.referenceCount none } := by
  rw [placed, foldl_place, mentioned_zip hlen]
  rfl

private theorem declaration?_placed_eq_getElem? (hlen : kinds.length = spec.declarations.length)
    (i : Nat) : (placed g₀ spec kinds).declaration? (g₀.declarations.size + i) =
      (placements g₀.declarations.size spec.declarations g₀.links.size
        (spec.declarations.zip kinds))[i]? := by
  rw [placed_eq g₀ hlen, declaration?, Array.getElem?_append_right (Nat.le_add_right _ _),
    Nat.add_sub_cancel_left, List.getElem?_toArray]

private theorem declaration?_placed (hlen : kinds.length = spec.declarations.length) {i : Nat}
    {s : DeclarationEntry} (hs : spec.declarations[i]? = some s) :
    ∃ kind, kinds[i]? = some kind ∧
      (placed g₀ spec kinds).declaration? (g₀.declarations.size + i) =
        some (s.toDeclaration kind (s.scopeIn g₀.declarations.size spec.declarations)
          (g₀.links.size + spec.referencesBefore i)) := by
  have hi : i < kinds.length := hlen ▸ (List.getElem?_eq_some_iff.mp hs).1
  have hkind : kinds[i]? = some kinds[i] := List.getElem?_eq_getElem hi
  have hzip : (spec.declarations.zip kinds)[i]? = some (s, kinds[i]) :=
    List.getElem?_zip_eq_some.mpr ⟨hs, hkind⟩
  have hplaced := getElem?_placements g₀.declarations.size spec.declarations g₀.links.size
    (spec.declarations.zip kinds) i
  rw [hzip, Option.map_some, mentioned_take_zip hlen] at hplaced
  have hget := declaration?_placed_eq_getElem? g₀ hlen i
  exact ⟨kinds[i], hkind, hget.trans hplaced⟩

private theorem parentOf?_placed (hlen : kinds.length = spec.declarations.length) {i : Nat}
    {s : DeclarationEntry} (hs : spec.declarations[i]? = some s) :
    (placed g₀ spec kinds).parentOf? (.declaration (g₀.declarations.size + i)) =
      s.scopeIn g₀.declarations.size spec.declarations := by
  obtain ⟨kind, -, hd⟩ := declaration?_placed g₀ hlen hs
  simp [parentOf?, hd, DeclarationEntry.toDeclaration]

private theorem standing_placed (hlen : kinds.length = spec.declarations.length)
    (hids : ∀ s ∈ spec.declarations, 0 ≤ s.id) :
    Standing (placed g₀ spec kinds) g₀.projects.size g₀.declarations.size spec.declarations where
  known := by simp [Knows, placed_eq g₀ hlen, project?]
  declaration i s hs := by
    obtain ⟨kind, -, hd⟩ := declaration?_placed g₀ hlen hs
    exact ⟨_, hd, rfl, hids s (List.mem_of_getElem? hs)⟩
  parent i scope hi hp := by
    rw [parentOf?_placed g₀ hlen (List.getElem?_eq_getElem hi)] at hp
    obtain ⟨j, hj, rfl⟩ := DeclarationEntry.scopeIn_eq_some hp
    obtain ⟨kind, -, hd⟩ := declaration?_placed g₀ hlen (List.getElem?_eq_getElem hj)
    exact ⟨_, rfl, by simp [Knows, hd]⟩

/-- No one is registered yet in the scopes of a placed description. -/
private theorem childrenOf_placed (hlen : kinds.length = spec.declarations.length) {scope : Scope}
    (h : scope = .project g₀.projects.size ∨
      ∃ i < spec.declarations.length, scope = .declaration (g₀.declarations.size + i)) :
    (placed g₀ spec kinds).childrenOf scope = [] := by
  rcases h with rfl | ⟨i, hi, rfl⟩
  · simp [childrenOf, placed_eq g₀ hlen, project?]
  · obtain ⟨kind, -, hd⟩ := declaration?_placed g₀ hlen (List.getElem?_eq_getElem hi)
    simp [childrenOf, hd, DeclarationEntry.toDeclaration]

/-- The references of the placed declarations use the new links, each once. -/
private theorem links_placed (hlen : kinds.length = spec.declarations.length) :
    ((List.range' g₀.declarations.size spec.declarations.length).flatMap
        (placed g₀ spec kinds).referencesAt).map Reference.link? =
      (List.range' g₀.links.size spec.referenceCount).map some := by
  have hzip : (spec.declarations.zip kinds).length = spec.declarations.length := by simp [hlen]
  have hmap : (List.range' g₀.declarations.size spec.declarations.length).map
        (placed g₀ spec kinds).referencesAt =
      (placements g₀.declarations.size spec.declarations g₀.links.size
        (spec.declarations.zip kinds)).map (·.references) := by
    apply List.ext_getElem
    · rw [List.length_map, List.length_map, length_placements, hzip, List.length_range']
    · intro i hi hi'
      have hget := declaration?_placed_eq_getElem? g₀ hlen i
      rw [List.getElem?_eq_getElem (by simpa using hi')] at hget
      simp [referencesAt, hget]
  rw [List.flatMap_def, hmap, ← List.flatMap_def, links_placements, mentioned_zip hlen]

end Placed

/-! ## Documents -/

/-- A text that is loaded describes a project that is adopted. -/
theorem loadText_eq_ok {g₀ g : Graph} {source text : String} (h : g₀.loadText source text = .ok g) :
    ∃ spec, g₀.adopt source spec = .ok g := by
  unfold loadText at h
  split at h
  · next v _ =>
    unfold loadJson at h
    split at h
    · split at h
      · next spec _ => exact ⟨spec, h⟩
      · cases h
    · cases h
  · cases h
  · cases h

/-- A file that is loaded holds a project that is adopted. -/
theorem loadFile_eq_ok {g₀ g : Graph} {path : String} {entry : FileEntry}
    (h : g₀.loadFile path entry = .ok g) : ∃ spec, g₀.adopt path spec = .ok g := by
  unfold loadFile at h
  split at h
  · cases h
  · cases h
  · cases h
  · split at h
    · exact loadText_eq_ok h
    · cases h

/-! ## The adopted project -/

/-- A description that passes its check is placed and registered. -/
theorem adopt_eq_ok {g₀ g : Graph} {source : String} {spec : Description}
    (h : g₀.adopt source spec = .ok g) : ∃ kinds, Forest.check spec.declarations = .ok kinds ∧
      (placed g₀ spec kinds).registerFrom g₀.projects.size g₀.declarations.size
        spec.declarations = .ok g := by
  unfold adopt at h
  cases hc : Forest.check spec.declarations with
  | error defect => rw [hc] at h; cases h
  | ok kinds =>
    rw [hc] at h
    exact ⟨kinds, rfl, h⟩

/-- A description that passes its check is adopted, unless an id is too long to be written: no id of
it is taken. -/
theorem adopt_of_check_eq_ok {spec : Description} {kinds : List Kind}
    (hc : Forest.check spec.declarations = .ok kinds) (g₀ : Graph) (source : String) :
    ((∀ s ∈ spec.declarations, Text.Writable s.id) ∧ ∃ g, g₀.adopt source spec = .ok g) ∨
      (∃ s ∈ spec.declarations, ¬ Text.Writable s.id) ∧
        g₀.adopt source spec = .error .unwritable := by
  obtain ⟨hkinds, hids, hdistinct⟩ := Forest.kindsOf_eq_ok (Forest.check_eq_ok hc).1
  have hlen : kinds.length = spec.declarations.length := by
    simpa using (congrArg List.length hkinds).symm
  have hp : (placed g₀ spec kinds).project? g₀.projects.size = some { name := spec.name } := by
    simp [placed_eq g₀ hlen, project?]
  rw [adopt, hc]
  exact registerFrom_cases (standing_placed g₀ hlen fun s hs => (hids s hs).1) hp hdistinct
    fun _ _ => rfl

theorem writable_of_adopt {g₀ g : Graph} {source : String} {spec : Description}
    (h : g₀.adopt source spec = .ok g) : ∀ s ∈ spec.declarations, Text.Writable s.id := by
  obtain ⟨kinds, hc, -⟩ := adopt_eq_ok h
  rcases adopt_of_check_eq_ok hc g₀ source with ⟨hall, -⟩ | ⟨-, herror⟩
  · exact hall
  · cases herror.symm.trans h

/-- Adopting a description places its declarations, of known kinds, and registers all of them. -/
private theorem adopt_registered {g₀ g : Graph} {source : String} {spec : Description}
    (h : g₀.adopt source spec = .ok g) : ∃ kinds, kinds.length = spec.declarations.length ∧
      spec.declarations.map (fun s => Kind.ofName? s.kind) = kinds.map some ∧
      RegisteredSpec (placed g₀ spec kinds) g₀.projects.size g₀.declarations.size
        spec.declarations g := by
  obtain ⟨kinds, hc, hreg⟩ := adopt_eq_ok h
  obtain ⟨hkinds, hids, -⟩ := Forest.kindsOf_eq_ok (Forest.check_eq_ok hc).1
  have hlen : kinds.length = spec.declarations.length := by
    simpa using (congrArg List.length hkinds).symm
  exact ⟨kinds, hlen, hkinds,
    registerFrom_spec hreg (standing_placed g₀ hlen fun s hs => (hids s hs).1)⟩

theorem adopt_spec {g₀ g : Graph} {source : String} {spec : Description}
    (h : g₀.adopt source spec = .ok g) : Adopted g₀ spec g := by
  obtain ⟨kinds, hlen, hkinds, hr⟩ := adopt_registered h
  have hparent : ∀ i s, spec.declarations[i]? = some s →
      g.parentOf? (.declaration (g₀.declarations.size + i)) =
        some ((s.scopeIn g₀.declarations.size spec.declarations).getD
          (.project g₀.projects.size)) := by
    intro i s hs
    have hi := (List.getElem?_eq_some_iff.mp hs).1
    rw [hr.parent, if_pos (by omega), enclosing, parentOf?_placed g₀ hlen hs]
  refine ⟨fun i s hs => ?_, ?_, ?_, ?_, hparent, fun scope hscope => ?_⟩
  · obtain ⟨kind, hkind, hd⟩ := declaration?_placed g₀ hlen hs
    have hb := hr.body (g₀.declarations.size + i)
    rw [hd, Option.map_some] at hb
    obtain ⟨d, hd', he⟩ := Option.map_eq_some_iff.mp hb
    have hname : Kind.ofName? s.kind = some kind := by
      have hmap := congrArg (·[i]?) hkinds
      simpa [hs, hkind] using hmap
    have hdkind : d.kind = kind := congrArg Declaration.kind he
    exact ⟨d, hd', congrArg Declaration.id he, congrArg Declaration.name he, hdkind ▸ hname,
      Declaration.bare_eq_self (congrArg Declaration.extendedBy he)
        (congrArg Declaration.implementedBy he) (congrArg Declaration.hierarchy he)⟩
  · have hrefs : g.referencesAt = (placed g₀ spec kinds).referencesAt := by
      funext k
      have hb := congrArg (fun d? => (Option.map Declaration.references d?).getD []) (hr.body k)
      simp only [Option.map_map] at hb
      exact hb
    rw [hrefs, links_placed g₀ hlen]
  · rw [hr.links, placed_eq g₀ hlen]
  · obtain ⟨p, hp, -, hperm, hascending, hget⟩ := hr.project { name := spec.name }
      (by simp [placed_eq g₀ hlen, project?])
    refine ⟨p, hp, hascending List.Pairwise.nil, by simpa using hperm, fun symbol => ?_⟩
    rw [hget, Description.lastCarrying?]
    exact Option.or_none
  · rw [hr.children, childrenOf_placed g₀ hlen hscope, List.nil_append]
    apply List.filter_congr
    intro k hk
    rw [hr.parent, if_pos (List.mem_range'_1.mp hk)]
    simp

/--
What stands at the position of a described declaration is built from its entry, with the links
behind those of the entries before it.
-/
theorem adopt_body {g₀ g : Graph} {source : String} {spec : Description}
    (h : g₀.adopt source spec = .ok g) {i : Nat} {s : DeclarationEntry}
    (hs : spec.declarations[i]? = some s) : ∃ kind, Kind.ofName? s.kind = some kind ∧
      (g.declaration? (g₀.declarations.size + i)).map Declaration.body =
        some (s.toDeclaration kind none (g₀.links.size + spec.referencesBefore i)) := by
  obtain ⟨kinds, hlen, hkinds, hr⟩ := adopt_registered h
  obtain ⟨kind, hkind, hd⟩ := declaration?_placed g₀ hlen hs
  have hname : Kind.ofName? s.kind = some kind := by
    have hmap := congrArg (·[i]?) hkinds
    simpa [hs, hkind] using hmap
  exact ⟨kind, hname, by rw [hr.body, hd]; rfl⟩

theorem adopt_size {g₀ g : Graph} {source : String} {spec : Description}
    (h : g₀.adopt source spec = .ok g) :
    g.declarations.size = g₀.declarations.size + spec.declarations.length := by
  obtain ⟨kinds, hlen, -, hr⟩ := adopt_registered h
  rw [hr.size, placed_eq g₀ hlen]
  simp [length_placements, hlen]

theorem adopt_name {g₀ g : Graph} {source : String} {spec : Description}
    (h : g₀.adopt source spec = .ok g) :
    (g.project? g₀.projects.size).map (·.name) = some spec.name := by
  obtain ⟨kinds, hlen, -, hr⟩ := adopt_registered h
  obtain ⟨p, hp, hname, -⟩ := hr.project { name := spec.name }
    (by simp [placed_eq g₀ hlen, project?])
  rw [hp, Option.map_some, hname]

/-! ## What was there before -/

/-- Everything in a graph stands in another one as it is, which may hold more. -/
structure Extends (g g' : Graph) : Prop where
  declaration : ∀ key : Nat, key < g.declarations.size → g'.declaration? key = g.declaration? key
  project : ∀ p : Nat, p < g.projects.size → g'.project? p = g.project? p
  links : ∀ link : Nat, link < g.links.size → g'.links[link]? = g.links[link]?

/-- A declaration is what registration does not change, with its parent and its children. -/
theorem declaration?_eq_of_body {g g' : Graph} {key : DeclKey}
    (hbody : (g'.declaration? key).map Declaration.body = (g.declaration? key).map Declaration.body)
    (hparent : g'.parentOf? (.declaration key) = g.parentOf? (.declaration key))
    (hchildren : g'.childrenOf (.declaration key) = g.childrenOf (.declaration key)) :
    g'.declaration? key = g.declaration? key := by
  simp only [parentOf?, childrenOf] at hparent hchildren
  cases hd : g.declaration? key with
  | none => simpa [hd] using hbody
  | some d =>
    rw [hd, Option.map_some] at hbody
    obtain ⟨d', hd', he⟩ := Option.map_eq_some_iff.mp hbody
    rw [hd, hd'] at hparent hchildren
    simp only [Option.bind_some, Option.map_some, Option.getD_some] at hparent hchildren
    cases d
    cases d'
    simp_all [Declaration.body]

/-- Adopting a description changes nothing that the graph holds already. -/
theorem adopt_extends {g₀ g : Graph} {source : String} {spec : Description}
    (h : g₀.adopt source spec = .ok g) : g₀.Extends g := by
  obtain ⟨kinds, hlen, -, hr⟩ := adopt_registered h
  refine ⟨fun key hkey => ?_, fun p hp => ?_, fun link hlink => ?_⟩
  · have hplaced : (placed g₀ spec kinds).declaration? key = g₀.declaration? key := by
      rw [placed_eq g₀ hlen, declaration?, declaration?, Array.getElem?_append_left hkey]
    rw [← hplaced]
    refine declaration?_eq_of_body (hr.body key) ?_ ?_
    · rw [hr.parent, if_neg (by omega)]
    · rw [hr.children, List.filter_eq_nil_iff.mpr, List.append_nil]
      intro k hk
      obtain ⟨hle, hlt⟩ := List.mem_range'_1.mp hk
      obtain ⟨i, rfl⟩ := Nat.exists_eq_add_of_le hle
      have hi : i < spec.declarations.length := by omega
      rw [decide_eq_true_eq, enclosing, parentOf?_placed g₀ hlen (List.getElem?_eq_getElem hi)]
      -- The new declarations lie in the project or in one another.
      cases hin : spec.declarations[i].scopeIn g₀.declarations.size spec.declarations with
      | none => simp
      | some scope =>
        obtain ⟨j, -, rfl⟩ := DeclarationEntry.scopeIn_eq_some hin
        intro he
        have hsame : g₀.declarations.size + j = key := Scope.declaration.inj he
        omega
  · rw [hr.others p (Nat.ne_of_lt hp), placed_eq g₀ hlen, project?, project?,
      Array.getElem?_push_lt hp, Array.getElem?_eq_getElem hp]
  · rw [hr.links, placed_eq g₀ hlen, Array.getElem?_append_left hlink]

theorem size_projects_adopt {g₀ g : Graph} {source : String} {spec : Description}
    (h : g₀.adopt source spec = .ok g) : g.projects.size = g₀.projects.size + 1 := by
  obtain ⟨kinds, hlen, -, hr⟩ := adopt_registered h
  obtain ⟨p, hp, -⟩ := (adopt_spec h).project
  have hnone : (placed g₀ spec kinds).project? (g₀.projects.size + 1) = none := by
    rw [placed_eq g₀ hlen, project?, Array.getElem?_eq_none (by simp)]
  have hlast := (hr.others _ (Nat.succ_ne_self g₀.projects.size)).trans hnone
  have hlt := (Array.getElem?_eq_some_iff.mp hp).1
  have hle := Array.getElem?_eq_none_iff.mp hlast
  exact Nat.le_antisymm hle hlt

end Graph

/--
A small project in which a class names what is described behind it, by name and by symbol number,
and another class extends itself.
-/
def Description.sample : Description where
  name := "sample"
  declarations :=
    [ { id := 1, name := "Service", kind := "class", symbol := none, parent := none,
        type := none, inheritedFrom := none, overwrites := none,
        extendedTypes := [.reference "Base" none none],
        implementedTypes := [.reference "Port" (some 7) none],
        decorators := [] },
      { id := 2, name := "Port", kind := "interface", symbol := some 7, parent := none,
        type := none, inheritedFrom := none, overwrites := none,
        extendedTypes := [], implementedTypes := [], decorators := [] },
      { id := 3, name := "Base", kind := "class", symbol := none, parent := none,
        type := none, inheritedFrom := none, overwrites := none,
        extendedTypes := [.reference "Base" none none],
        implementedTypes := [], decorators := [] } ]

theorem eq_ok_getD {ε α : Type} {x : Except ε α} (h : x.isOk = true) (a : α) :
    x = .ok (x.toOption.getD a) := by
  cases x with
  | error e => cases h
  | ok b => rfl

theorem Graph.exists_adopt_sample :
    ∃ g, Graph.empty.adopt "sample" Description.sample = .ok g :=
  ⟨_, eq_ok_getD (by decide +kernel) .empty⟩

end Lineage
