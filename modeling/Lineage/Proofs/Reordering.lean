import Lineage.CommandLine
import Lineage.Proofs.Checks
import Lineage.Proofs.Permutation
import Lineage.Proofs.RenamedReports
import Lineage.Proofs.RenamedRuns

/-!
# Reordered descriptions

An unambiguous description may list its declarations in any order: it is accepted, a run makes the
same project of it, with the same counts, and the commands that read it answer the same.
-/

namespace Lineage

/-! ## Documents -/

/-- Two documents that list the same declarations in different orders. -/
inductive Json.Reorders : Json → Json → Prop
  | declarations {members : List (String × Json)} {items items' : List Json} :
    member? "declarations" members = some (.array items) → items.Perm items' →
    Reorders (.object members) (.object (setMember members "declarations" (.array items')))

/-- A document describes a project. -/
inductive Json.Describes : Json → Description → Prop
  | object {members : List (String × Json)} {spec : Description} :
    Schema.project members = .valid spec → Describes (.object members) spec

theorem Json.member?_setMember (members : List (String × Json)) (name other : String)
    (value : Json) : member? other (setMember members name value) =
      if name = other then some value else member? other members := by
  induction members with
  | nil => rfl
  | cons m rest ih =>
    rw [setMember]
    by_cases hm : m.1 = name
    · rw [if_pos hm, member?, member?]
      split <;> simp_all
    · rw [if_neg hm, member?, member?, ih]
      split
      · next hother => rw [if_neg fun h => hm (hother.trans h.symm)]
      · rfl

namespace Schema

variable {α : Type} {decode : Json → Checked α}

/-- A list of valid items may be reordered, and its values are reordered with it. -/
theorem itemsFrom_perm {position : Nat} {items items' : List Json} {values : List α}
    (h : itemsFrom decode position items = .valid values) (hperm : items.Perm items') :
    ∃ values', itemsFrom decode position items' = .valid values' ∧ values.Perm values' := by
  obtain ⟨values', hvalues, hperm'⟩ :=
    List.perm_comp_forall₂ hperm.symm (itemsFrom_eq_valid.mp h)
  exact ⟨values', itemsFrom_eq_valid.mpr hvalues, hperm'.symm⟩

end Schema

theorem Json.Reorders.exists_describes {v v' : Json} {spec : Description} (h : v.Reorders v')
    (hspec : v.Describes spec) : ∃ entries, v'.Describes { spec with declarations := entries } ∧
      spec.declarations.Perm entries := by
  cases h with
  | @declarations members items items' hitems hperm =>
    cases hspec with
    | object hproject =>
      have hother : Schema.optional (setMember members "declarations" (.array items')) "name"
          "project" Schema.string = Schema.optional members "name" "project" Schema.string := by
        rw [Schema.optional, Schema.optional, member?_setMember, if_neg (by decide)]
      have hlist : ∀ {members items}, member? "declarations" members = some (.array items) →
          Schema.optional members "declarations" [] (Schema.list Schema.declaration) =
            (Schema.itemsFrom Schema.declaration 0 items).under (.member "declarations") :=
        fun hitems => by rw [Schema.optional, hitems]; rfl
      have hitems' := member?_setMember members "declarations" "declarations" (.array items')
      rw [if_pos rfl] at hitems'
      rw [Schema.project, hlist hitems] at hproject
      obtain ⟨_, before, hname, hentries, rfl⟩ := Checked.seq_eq_valid.mp hproject
      obtain ⟨name, hname, rfl⟩ := Checked.map_eq_valid.mp hname
      obtain ⟨entries, hentries', hperm'⟩ :=
        Schema.itemsFrom_perm (Checked.under_eq_valid.mp hentries) hperm
      refine ⟨entries, .object ?_, hperm'⟩
      rw [Schema.project, hlist hitems', hother, hname, hentries']
      rfl

namespace Graph

/-- A document that describes a project is loaded by adopting it. -/
theorem loadJson_eq_adopt {v : Json} {spec : Description} (h : v.Describes spec) (g : Graph)
    (source : String) : g.loadJson source v = g.adopt source spec := by
  cases h with
  | object h => rw [loadJson, h]

end Graph

/-! ## Files -/

/-- What stands at a path is the text of a document. -/
inductive FileEntry.Holds : FileEntry → Json → Prop
  | file {bytes : List UInt8} {cs : List Char} {v : Json} : Text.Utf8.decode bytes = .ok cs →
    Json.read (String.ofList (Text.Utf8.unifyLineEnds cs)) = .ok v → Holds (.file bytes) v

theorem Graph.loadFile_eq_loadJson {entry : FileEntry} {v : Json} (h : entry.Holds v) (g : Graph)
    (path : String) : g.loadFile path entry = g.loadJson path v := by
  cases h with
  | file hdecode hread => simp only [loadFile, hdecode, loadText, hread]

namespace CommandLine

/-- A command that reads a file in some surroundings finds a document there. -/
structure Surroundings.Offers (s : Surroundings) (file : String) (v : Json) : Prop where
  exists_file : ∃ bytes, s.tree.find (Path.normalize file) = .file bytes
  holds : (s.findAfter (.loading (Path.normalize file)) (Path.normalize file)).Holds v

/-- A command works on what a run makes of the document that it finds. -/
theorem onFile_eq (help : Option String) {s : Surroundings} {file : String} {v : Json}
    {g r : Graph} {t : Tally} (h : s.Offers file v)
    (hload : Graph.empty.loadJson (Path.normalize file) v = .ok g)
    (hrun : Pipeline.plainRun g 0 = (.ok t, r)) (command : Graph → Outcome) :
    onFile help s file command = command r := by
  obtain ⟨bytes, hfile⟩ := h.exists_file
  have hresolved : loadResolved (Path.normalize file)
      (s.findAfter (.loading (Path.normalize file)) (Path.normalize file)) = .ok r := by
    rw [loadResolved, Graph.loadFile_eq_loadJson h.holds, hload]
    simp only [bind, Except.bind, hrun, pure, Except.pure]
  simp only [onFile, hfile, hresolved]

/-! ## Answers -/

section Answers

variable {π : DeclKey → DeclKey} {g g' : Graph} (h : Graph.Renamed π 0 g g')
  (hencloses : g.Encloses 0 (g.declarationsOf 0)) (hapart : g.SiblingsApart 0)
  (audience : Audience) (json : Bool)
include h hencloses

theorem resolve_eq : resolve audience json g' = resolve audience json g := by
  rw [resolve, resolve, h.encodeProject?_eq, h.projectItems?_eq hencloses]

theorem dangling_eq : dangling audience json g' = dangling audience json g := by
  rw [dangling, dangling, Graph.encodeDangling, Graph.encodeDangling, Graph.danglingItem,
    Graph.danglingItem, h.danglingRows_eq hencloses]

include hapart

theorem hierarchy_eq (name : String) :
    hierarchy audience name json g' = hierarchy audience name json g := by
  have hscope : Scope.Within 0 (g.declarationsOf 0) (.project 0) := Or.inl rfl
  have hfind := h.find?_eq hencloses hapart (dottedParts name) hscope
  rw [Scope.rename] at hfind
  rw [hierarchy, hierarchy, hfind]
  cases hfound : g.find? (.project 0) (dottedParts name) with
  | none => rfl
  | some key =>
    have hkey := hencloses.mem_of_find? hscope hfound
    rw [Option.map_some, Option.filter_some, Option.filter_some, h.isClassLike_eq hkey]
    cases (g.declaration? key).any (·.isClassLike) with
    | false => rfl
    | true =>
      simp only [if_true]
      rw [h.encode?_eq hkey, h.tree?_eq hencloses hkey]

end Answers

/-- Two files are answered for in the same way by all commands that read a file. -/
structure SameAnswers (s : Surroundings) (file : String) (s' : Surroundings) (file' : String) :
    Prop where
  resolve : ∀ help json,
    execute help s' (.resolve file' json) = execute help s (.resolve file json)
  dangling : ∀ help json,
    execute help s' (.dangling file' json) = execute help s (.dangling file json)
  hierarchy : ∀ help name json,
    execute help s' (.hierarchy file' name json) = execute help s (.hierarchy file name json)

end CommandLine

/-! ## Runs -/

namespace Graph

variable {g g' : Graph} {project : ProjectKey}

theorem Encloses.alike (h : g.Encloses project (g.declarationsOf project)) (ha : Alike g g') :
    g'.Encloses project (g'.declarationsOf project) where
  children scope := by
    rw [ha.declarationsOf_eq, ha.childrenOf_eq]
    exact h.children scope
  parent key := by
    rw [ha.declarationsOf_eq, ha.parentOf?_eq]
    exact h.parent key

theorem SiblingsApart.alike (h : g.SiblingsApart project) (ha : Alike g g') :
    g'.SiblingsApart project := by
  have hname : ∀ key, g'.scopeName? (.declaration key) = g.scopeName? (.declaration key) :=
    ha.map_eq Declaration.name fun _ => rfl
  intro scope hscope key hkey other hother
  rw [ha.declarationsOf_eq] at hscope
  rw [ha.childrenOf_eq] at hkey hother
  rw [hname, hname]
  exact h scope hscope key hkey other hother

end Graph

namespace Pipeline

/-- Runs over an unambiguous description and over a reordered one. -/
theorem exists_renamed {g₀ g g' : Graph} {source source' : String} {spec spec' : Description}
    (h : g₀.adopt source spec = .ok g) (h' : g₀.adopt source' spec' = .ok g')
    (hperm : spec.declarations.Perm spec'.declarations) (hname : spec'.name = spec.name)
    (hone : spec.Unambiguous) :
    ∃ tally r r' π, plainRun g g₀.projects.size = (.ok tally, r) ∧
      plainRun g' g₀.projects.size = (.ok tally, r') ∧
      r.Renamed π g₀.projects.size r' ∧
      r.Encloses g₀.projects.size (r.declarationsOf g₀.projects.size) ∧
      r.SiblingsApart g₀.projects.size := by
  have ha := Graph.adopt_spec h
  have hl := ha.loaded
  have hl' := (Graph.adopt_spec h').loaded
  have hrenamed := Graph.renamed_of_perm h h' hperm hname hone
  have hapart := Graph.siblingsApart_of_adopt h hone
  obtain ⟨hfinishes, hresolved⟩ := resolved_rerun hl
  obtain ⟨hfinishes', hresolved'⟩ := resolved_rerun hl'
  have hcount : ∀ g : Graph, (sweepOf g g₀.projects.size).finish.tally.declarationsResolved =
      (g.declarationsOf g₀.projects.size).length := fun g =>
    (Sweep.declarationsResolved_foldl_visit _ _ _).trans (Nat.zero_add _)
  have htally := hresolved.tally_eq hrenamed ha.encloses hapart hresolved' (hcount g) (hcount g')
  have hrun' := plainRun_eq hfinishes'
  rw [htally] at hrun'
  exact ⟨_, _, _, _, plainRun_eq hfinishes, hrun',
    hrenamed.resolved ha.encloses hapart hl hl' hresolved hresolved',
    ha.encloses.alike hresolved.alike, hapart.alike hresolved.alike⟩

/--
Declarations may be described in any order if siblings have different names and no two declarations
share a symbol number: the reordered document is accepted, a run makes the same project of it with
the same counts, the children of a scope alone being in another order, and all commands answer the
same.
-/
theorem plainRun_reordered {g₀ g : Graph} {source : String} {v v' : Json} {spec : Description}
    (hspec : v.Describes spec) (hone : spec.Unambiguous) (h : g₀.loadJson source v = .ok g)
    (hv : v.Reorders v') :
    (∃ g' tally r r' π, g₀.loadJson source v' = .ok g' ∧
      plainRun g g₀.projects.size = (.ok tally, r) ∧
      plainRun g' g₀.projects.size = (.ok tally, r') ∧ r.Renamed π g₀.projects.size r') ∧
    ∀ (s s' : CommandLine.Surroundings) (file file' : String), s.audience = s'.audience →
      s.Offers file v → s'.Offers file' v' → CommandLine.SameAnswers s file s' file' := by
  obtain ⟨entries, hspec', hperm⟩ := hv.exists_describes hspec
  rw [Graph.loadJson_eq_adopt hspec] at h
  have hadopt : ∀ g source, ∃ g', Graph.adopt g source { spec with declarations := entries } =
      .ok g' := fun g source => Graph.exists_adopt_perm h hperm g source
  constructor
  · obtain ⟨g', h'⟩ := hadopt g₀ source
    obtain ⟨tally, r, r', π, hrun, hrun', hrenamed, -⟩ := exists_renamed h h' hperm rfl hone
    rw [← Graph.loadJson_eq_adopt hspec'] at h'
    exact ⟨g', tally, r, r', π, h', hrun, hrun', hrenamed⟩
  · intro s s' file file' haudience hs hs'
    -- A command adopts its description as the only one, whatever stands in `g₀`.
    obtain ⟨f, hf⟩ := Graph.exists_adopt_perm h (.refl _) Graph.empty (Path.normalize file)
    obtain ⟨f', hf'⟩ := hadopt Graph.empty (Path.normalize file')
    obtain ⟨tally, r, r', π, hrun, hrun', hrenamed, hencloses, hapart⟩ :=
      exists_renamed hf hf' hperm rfl hone
    rw [← Graph.loadJson_eq_adopt hspec] at hf
    rw [← Graph.loadJson_eq_adopt hspec'] at hf'
    refine ⟨fun help json => ?_, fun help json => ?_, fun help name json => ?_⟩
    all_goals
      rw [CommandLine.execute, CommandLine.execute, CommandLine.onFile_eq help hs hf hrun,
        CommandLine.onFile_eq help hs' hf' hrun', haudience]
    · exact CommandLine.resolve_eq hrenamed hencloses _ _
    · exact CommandLine.dangling_eq hrenamed hencloses _ _
    · exact CommandLine.hierarchy_eq hrenamed hencloses hapart _ _ _

end Pipeline

/-! ## Two classes -/

/-- A document of two classes, of which `B` extends `A`, in either order. -/
def Json.classes (reversed : Bool) : Json :=
  let a := .object [("id", .int 0), ("name", .string "A"), ("kind", .string "class")]
  let b := .object [("id", .int 1), ("name", .string "B"), ("kind", .string "class"),
    ("extended_types", .array [.object [("type", .string "reference"), ("name", .string "A")]])]
  .object [("declarations", .array (if reversed then [b, a] else [a, b]))]

/-- A machine asks, and the only file is a text of ASCII characters. -/
def CommandLine.Surroundings.holding (text : String) : Surroundings where
  audience := .machine
  sinks := []
  tree := ⟨fun place =>
    if place = "model.json" then .file (text.toList.map fun c => c.toNat.toUInt8)
    else .directory⟩

theorem CommandLine.Surroundings.offers_holding {text : String} {v : Json}
    (hdecode : Text.Utf8.decode (text.toList.map fun c => c.toNat.toUInt8) = .ok text.toList)
    (hdocument : Json.document (Text.Utf8.unifyLineEnds text.toList) = .ok v) :
    (holding text).Offers "model.json" v :=
  ⟨⟨_, rfl⟩, .file hdecode (by rw [Json.read, String.toList_ofList, hdocument])⟩

theorem CommandLine.Surroundings.offers_classes (reversed : Bool) :
    (holding ((Json.classes reversed).print .compact)).Offers "model.json"
      (.classes reversed) := by
  cases reversed
  · exact offers_holding (by decide +kernel) (by decide +kernel)
  · exact offers_holding (by decide +kernel) (by decide +kernel)

namespace Pipeline

open Json CommandLine

theorem exists_loaded_classes : ∃ spec g, (classes false).Describes spec ∧ spec.Unambiguous ∧
    Graph.empty.loadJson "classes" (classes false) = .ok g :=
  ⟨_, _, .object rfl, ⟨by decide, by decide⟩, eq_ok_getD (by decide +kernel) .empty⟩

theorem plainRun_reordered_classes :
    (classes false).Reorders (classes true) ∧
      ∃ spec g, (classes false).Describes spec ∧ spec.Unambiguous ∧
        Graph.empty.loadJson "classes" (classes false) = .ok g ∧
        (∃ g' tally r r' π, Graph.empty.loadJson "classes" (classes true) = .ok g' ∧
          plainRun g 0 = (.ok tally, r) ∧ plainRun g' 0 = (.ok tally, r') ∧ r.Renamed π 0 r') ∧
        SameAnswers (.holding ((classes false).print .compact)) "model.json"
          (.holding ((classes true).print .compact)) "model.json" := by
  have hreorders : (classes false).Reorders (classes true) := .declarations rfl (.swap _ _ _)
  obtain ⟨spec, g, hspec, hone, h⟩ := exists_loaded_classes
  have hreordered := plainRun_reordered hspec hone h hreorders
  exact ⟨hreorders, spec, g, hspec, hone, h, hreordered.1,
    hreordered.2 _ _ _ _ rfl (Surroundings.offers_classes false)
      (Surroundings.offers_classes true)⟩

end Pipeline

end Lineage
