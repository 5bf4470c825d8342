import Lineage.Proofs.Addressees
import Lineage.Proofs.Formats

/-!
# Markup for humans

What the commands lay out for a human, as formats. All texts of a project are escaped, but its name
in the title of a table. So the tags that a human sees are those of the program, unless the name of
the project has tags, or the name of a declaration swallows the one that is to follow.
-/

namespace Lineage

open Markup

/-! ## Texts of items -/

mutual

def Tree.labels : Tree → List String
  | .node label children => label :: Tree.labelsOf children

def Tree.labelsOf : List Tree → List String
  | [] => []
  | t :: ts => t.labels ++ Tree.labelsOf ts

end

def Item.markups : Item → List String
  | .text markup => [markup]
  | .tree root => root.labels
  | .table title columns rows => title :: columns.map (·.header) ++ rows.flatten

theorem Tree.labelsOf_append (ts us : List Tree) :
    Tree.labelsOf (ts ++ us) = Tree.labelsOf ts ++ Tree.labelsOf us := by
  induction ts with
  | nil => rfl
  | cons t ts ih => rw [List.cons_append, Tree.labelsOf, Tree.labelsOf, ih, List.append_assoc]

theorem Tree.labelsOf_chain (labels : List String) :
    Tree.labelsOf (Tree.chain labels) = labels := by
  induction labels with
  | nil => rfl
  | cons label labels ih =>
    rw [Tree.chain, Tree.labelsOf, Tree.labels, ih, Tree.labelsOf, List.append_nil]

/-! ## Names and numbers -/

theorem bare_toString (n : Nat) : Bare (toString n) := by
  intro c hc
  have hdigit : c.isDigit = true := by
    rw [Nat.toString_eq_repr, Nat.repr, String.toList_ofList] at hc
    exact Nat.isDigit_of_mem_toDigits (by decide) (by decide) hc
  constructor <;> (rintro rfl; revert hdigit; decide)

theorem Figure.bare_text (f : Figure) : Bare f.text := by
  cases f with
  | count n => exact bare_toString n
  | share x => exact (bare_toString _).append (t := "%") (by decide)

/-- A kind that is written by name has a name in lower case, which holds no markup. -/
theorem Kind.exists_lowerName? {name : String} {kind : Kind} (h : Kind.ofName? name = some kind) :
    ∃ lower, kind.lowerName? = some lower ∧ Bare lower := by
  have hall : ∀ e ∈ named ++ composites ++ aliases,
      (Kind.mk e.2).lowerName?.any (fun lower => decide (Bare lower)) = true := by
    decide +kernel
  obtain ⟨flags, hlookup, rfl⟩ := Option.map_eq_some_iff.mp h
  obtain ⟨before, after, hlist, -⟩ := List.lookup_eq_some_iff.mp hlookup
  have hmem : (normalize name, flags) ∈ named ++ composites ++ aliases := by
    rw [hlist]
    exact List.mem_append_right _ List.mem_cons_self
  obtain ⟨lower, hlower, hbare⟩ := (Option.any_eq_true _ _).mp (hall _ hmem)
  exact ⟨lower, hlower, of_decide_eq_true hbare⟩

/-! ## Formats of trees -/

namespace Hierarchy.Level

def format (l : Level) : Format :=
  let text := TypeExpr.textOf ", " l.types
  if l.isTarget then [.own "[bold cyan]", .shown text, .own "[/bold cyan]"] else [.shown text]

theorem markup_format (l : Level) : l.format.markup = l.label := by
  rw [format, label]
  cases l.isTarget <;> simp [Format.markup, Piece.markup, String.append_assoc]

theorem fits_format (l : Level) : l.format.Fits := by
  rw [format]
  cases l.isTarget with
  | false => trivial
  | true => exact ⟨by decide, by decide, by decide, trivial⟩

theorem sound_format (l : Level) : l.format.Sound ↔
    (l.isTarget = true → ¬ Swallows (TypeExpr.textOf ", " l.types)) := by
  rw [format]
  cases l.isTarget <;> simp [Format.Sound]

end Hierarchy.Level

namespace Graph

variable {g : Graph} {key : DeclKey}

def branchFormats (title : String) (types : Option (List TypeExpr)) : List Format :=
  match types.getD [] with
  | [] => []
  | ts => [[.own title, .shown (TypeExpr.textOf ", " ts)]]

def treeFormats (g : Graph) (key : DeclKey) : List Format :=
  match g.declaration? key with
  | none => []
  | some d =>
    [.own "[bold]", .shown (g.fullName key), .own "[/bold] [dim](",
      .bare (d.kind.lowerName?.getD ""), .own ")[/dim]"] ::
      ((d.levels?.getD []).map (·.format) ++ branchFormats "implements: " d.implementedTypes ++
        branchFormats "implemented by: " d.implementedBy)

/-- A declaration that can be laid out: its kind has a name, and where its chain comes to it, its
own name is shown. -/
structure Portrays (g : Graph) (key : DeclKey) (d : Declaration) : Prop where
  declaration : g.declaration? key = some d
  kind : ∃ kind, d.kind.lowerName? = some kind ∧ Bare kind
  target : ∀ l ∈ d.levels?.getD [], l.isTarget = true → TypeExpr.textOf ", " l.types = d.name

theorem labelsOf_branch (title : String) (types : Option (List TypeExpr)) :
    Tree.labelsOf (branch title types) = (branchFormats title types).map Format.markup := by
  rw [branch, branchFormats]
  split <;> simp_all [Tree.labelsOf, Tree.labels, Format.markup, Piece.markup]

/-- The tree of a declaration shows the markup of its formats. -/
theorem Portrays.exists_tree? {d : Declaration} (h : g.Portrays key d) :
    ∃ t, g.tree? key = some t ∧ t.labels = (g.treeFormats key).map Format.markup := by
  obtain ⟨kind, hkind, -⟩ := h.kind
  refine ⟨_, by rw [tree?, h.declaration, Option.bind_eq_bind, Option.bind_some, hkind]; rfl, ?_⟩
  rw [treeFormats, h.declaration]
  simp only [Tree.labels, Tree.labelsOf_append, Tree.labelsOf_chain, labelsOf_branch, hkind,
    List.map_cons, List.map_append, List.map_map, Function.comp_def,
    Hierarchy.Level.markup_format, Option.getD_some]
  simp [Format.markup, Piece.markup, String.append_assoc]

/-- The last part of a full name is the name of the declaration itself. -/
theorem swallows_fullName {d : Declaration} (hd : g.declaration? key = some d) :
    Swallows (g.fullName key) ↔ Swallows d.name := by
  obtain ⟨outer, houter⟩ : ∃ outer, ((g.scopes (.declaration key)).filterMap g.scopeName?).reverse =
      outer ++ [d.name] := by
    have hscopes : ∃ rest, g.scopes (.declaration key) = .declaration key :: rest := by
      rw [scopes]
      cases g.declarations.size <;> exact ⟨_, rfl⟩
    obtain ⟨rest, hrest⟩ := hscopes
    have hname : g.scopeName? (.declaration key) = some d.name := by
      rw [scopeName?, hd, Option.map_some]
    exact ⟨_, by rw [hrest, List.filterMap_cons_some hname, List.reverse_cons]⟩
  have hslashes : slashesAfter 0 (g.fullName key).toList = slashesAfter 0 d.name.toList := by
    rw [fullName, houter]
    by_cases hnil : outer = []
    · rw [hnil, List.nil_append, String.intercalate_singleton]
    · rw [String.intercalate_append_of_ne_nil hnil (List.cons_ne_nil _ _),
        String.intercalate_singleton, String.append_assoc, String.toList_append,
        String.toList_append]
      exact slashesAfter_append_cons (by decide) _ _
  rw [Swallows, Swallows, hslashes]

theorem fits_branchFormats {title : String} (htitle : whole title.toList = true)
    {types : Option (List TypeExpr)} {f : Format} (hf : f ∈ branchFormats title types) :
    f.Fits := by
  rw [branchFormats] at hf
  split at hf
  · cases hf
  · obtain rfl := List.mem_singleton.mp hf
    exact ⟨htitle, trivial⟩

theorem sound_branchFormats {title : String} {types : Option (List TypeExpr)} {f : Format}
    (hf : f ∈ branchFormats title types) : f.Sound := by
  rw [branchFormats] at hf
  split at hf
  · cases hf
  · obtain rfl := List.mem_singleton.mp hf
    trivial

theorem Portrays.fits_treeFormats {d : Declaration} (h : g.Portrays key d) :
    ∀ f ∈ g.treeFormats key, f.Fits := by
  obtain ⟨kind, hkind, hbare⟩ := h.kind
  rw [treeFormats, h.declaration]
  simp only [hkind, Option.getD_some, List.forall_mem_cons, List.forall_mem_append,
    List.forall_mem_map]
  exact ⟨⟨by decide, by decide, by decide, hbare, by decide, trivial⟩,
    ⟨fun l _ => l.fits_format, fun f hf => fits_branchFormats (by decide) hf⟩,
    fun f hf => fits_branchFormats (by decide) hf⟩

/-- The tree of a declaration shows the tags of the program, unless its name swallows one. -/
theorem Portrays.tags_iff {d : Declaration} (h : g.Portrays key d) :
    (∀ f ∈ g.treeFormats key, Markup.tags f.markup = f.tags) ↔ ¬ Swallows d.name := by
  rw [forall₂_congr fun f hf => Format.tags_markup_iff (h.fits_treeFormats f hf), treeFormats,
    h.declaration]
  simp only [List.forall_mem_cons, List.forall_mem_append, List.forall_mem_map, Format.Sound,
    and_true, Hierarchy.Level.sound_format, swallows_fullName h.declaration]
  refine ⟨fun hs => hs.1, fun hs => ⟨hs, ⟨fun l hl htarget => ?_, fun f => ?_⟩, fun f => ?_⟩⟩
  · rwa [h.target l hl htarget]
  · exact sound_branchFormats
  · exact sound_branchFormats

end Graph

/-! ## Formats of tables and lines -/

def titleFormat (project : String) : Format :=
  [.own "Resolution of '", .bare project, .own "'"]

def errorFormat (message : String) : Format :=
  [.own "[red]Error:[/red] ", .shown message]

/-- The title of a report has no tag but those of the name of the project. -/
theorem tags_titleFormat (project : String) :
    Markup.tags (titleFormat project).markup = Markup.tags project := by
  have hmarkup : (titleFormat project).markup.toList =
      "Resolution of '".toList ++ (project.toList ++ "'".toList) := by
    simp [titleFormat, Format.markup, Piece.markup]
  rw [Markup.tags, hmarkup, tagsFrom_append_of_whole (by decide),
    tagsFrom_append_of_forall_ne (by simp)]
  rfl

theorem tags_errorFormat (message : String) :
    Markup.tags (errorFormat message).markup = (errorFormat message).tags :=
  (Format.tags_markup_iff (f := errorFormat message) ⟨by decide, trivial⟩).mpr trivial

namespace Coverage

def bodyFormats (c : Coverage) : List Format :=
  [.own "Metric"] :: [.own "Value"] :: c.figures.flatMap fun f =>
    [[.own (String.ofList (f.1.toList.map fun c => if c == '_' then ' ' else c))],
      [.bare f.2.text]]

theorem markups_table (c : Coverage) (project : String) :
    (c.table project).markups = (titleFormat project :: c.bodyFormats).map Format.markup := by
  simp [table, Item.markups, titleFormat, bodyFormats, Format.markup, Piece.markup, figures,
    String.append_assoc]

theorem tags_bodyFormats (c : Coverage) :
    ∀ f ∈ c.bodyFormats, Markup.tags f.markup = f.tags := by
  have hnames : ∀ f ∈ c.figures,
      whole (f.1.toList.map fun c => if c == '_' then ' ' else c) = true := by
    simp only [figures, List.forall_mem_cons]
    decide
  have hcells : ∀ f ∈ c.bodyFormats, f.Fits ∧ f.Sound := by
    simp only [bodyFormats, List.forall_mem_cons, List.forall_mem_flatMap]
    refine ⟨⟨⟨by decide, trivial⟩, trivial⟩, ⟨⟨by decide, trivial⟩, trivial⟩, fun f hf => ?_⟩
    refine ⟨⟨⟨?_, trivial⟩, trivial⟩, ⟨⟨f.2.bare_text, trivial⟩, trivial⟩, List.forall_mem_nil _⟩
    rw [String.toList_ofList]
    exact hnames f hf
  exact fun f hf => (Format.tags_markup_iff (hcells f hf).1).mpr (hcells f hf).2

end Coverage

namespace Graph

def danglingFormats (g : Graph) (project : ProjectKey) : List Format :=
  match g.danglingRows project with
  | [] => [[.own "[green]All references resolved.[/green]"]]
  | rows =>
    [.own "Dangling references (", .bare (toString rows.length), .own ")"] ::
      [.own "Declaration"] :: [.own "Reference"] ::
      rows.flatMap fun r => [[.shown r.1], [.shown r.2]]

theorem markups_danglingItem (g : Graph) (project : ProjectKey) :
    (g.danglingItem project).markups = (g.danglingFormats project).map Format.markup := by
  rw [danglingItem, danglingFormats]
  generalize g.danglingRows project = rows
  cases rows with
  | nil => simp [Item.markups, Format.markup, Piece.markup]
  | cons row rows =>
    simp [Item.markups, Format.markup, Piece.markup, List.flatten_eq_flatMap, List.flatMap_map,
      List.map_flatMap, String.append_assoc]

theorem tags_danglingFormats (g : Graph) (project : ProjectKey) :
    ∀ f ∈ g.danglingFormats project, Markup.tags f.markup = f.tags := by
  have hall : ∀ f ∈ g.danglingFormats project, f.Fits ∧ f.Sound := by
    rw [danglingFormats]
    split
    · simp only [List.forall_mem_cons]
      exact ⟨⟨⟨by decide, trivial⟩, trivial⟩, List.forall_mem_nil _⟩
    · simp only [List.forall_mem_cons, List.forall_mem_flatMap]
      exact ⟨⟨⟨by decide, bare_toString _, by decide, trivial⟩, trivial⟩,
        ⟨⟨by decide, trivial⟩, trivial⟩, ⟨⟨by decide, trivial⟩, trivial⟩,
        fun r _ => ⟨⟨trivial, trivial⟩, ⟨trivial, trivial⟩, List.forall_mem_nil _⟩⟩
  exact fun f hf => (Format.tags_markup_iff (hall f hf).1).mpr (hall f hf).2

end Graph

namespace CommandLine

/-! ## Formats of commands -/

def classNamed? (g : Graph) (name : String) : Option DeclKey :=
  (g.find? (.project 0) (dottedParts name)).filter fun key =>
    (g.declaration? key).any (·.isClassLike)

/-- The formats of the texts in each item that a command lays out for a human. -/
def formats (g : Graph) : Command → List (List Format)
  | .resolve _ false =>
    (titleFormat (((g.project? 0).map (·.name)).getD "") :: (g.coverage 0).bodyFormats) ::
      (g.classesOf 0).map g.treeFormats
  | .hierarchy _ name json =>
    match classNamed? g name with
    | none => [[errorFormat ("No class or interface named '" ++ name ++ "'")]]
    | some key => if json then [] else [g.treeFormats key]
  | .dangling _ false => [g.danglingFormats 0]
  | _ => []

/-- The name of a declaration swallows no tag behind it. -/
def NameEndsClean (g : Graph) (key : DeclKey) : Prop :=
  ∀ d ∈ g.declaration? key, ¬ Swallows d.name

/--
Nothing that a command shows of a project interferes with its tags: a report needs a project whose
name has no tag, and a tree a declaration whose name swallows none.
-/
def Harmless (g : Graph) : Command → Prop
  | .resolve _ false =>
    (∀ p ∈ g.project? 0, Markup.tags p.name = []) ∧ ∀ key ∈ g.classesOf 0, NameEndsClean g key
  | .hierarchy _ name false => ∀ key ∈ classNamed? g name, NameEndsClean g key
  | _ => True

theorem rendered_answer_json (value : Option Json) (items : Option (List Item)) :
    Emission.rendered (answer .human true value items).emissions = [] := by
  cases value <;> rfl

theorem rendered_answer (value : Option Json) (items : List Item) :
    Emission.rendered (answer .human false value (some items)).emissions = items := by
  change Emission.rendered (items.flatMap (Console.showItem .human)) = items
  induction items with
  | nil => rfl
  | cons item items ih => exact congrArg (item :: ·) ih

/-- All declarations of the first project can be laid out. -/
structure Presentable (g : Graph) : Prop where
  project : ∃ p, g.project? 0 = some p
  found : ∀ name key, g.find? (.project 0) (dottedParts name) = some key →
    key ∈ g.declarationsOf 0
  portrays : ∀ key ∈ g.declarationsOf 0, ∃ d, g.Portrays key d

variable {g : Graph}

theorem Presentable.portrays_classNamed? (h : Presentable g) {name : String} {key : DeclKey}
    (hkey : classNamed? g name = some key) : ∃ d, g.Portrays key d :=
  h.portrays key (h.found name key (Option.filter_eq_some_iff.mp hkey).1)

theorem Presentable.portrays_classesOf (h : Presentable g) {key : DeclKey}
    (hkey : key ∈ g.classesOf 0) : ∃ d, g.Portrays key d :=
  h.portrays key (Graph.mem_classesOf.mp hkey).1

theorem exists_mapM_tree? {keys : List DeclKey} (h : ∀ key ∈ keys, ∃ d, g.Portrays key d) :
    ∃ trees, keys.mapM g.tree? = some trees ∧
      trees.map Tree.labels = keys.map fun key => (g.treeFormats key).map Format.markup := by
  induction keys with
  | nil => exact ⟨[], rfl, rfl⟩
  | cons key keys ih =>
    rw [List.forall_mem_cons] at h
    obtain ⟨d, hd⟩ := h.1
    obtain ⟨t, ht, hlabels⟩ := hd.exists_tree?
    obtain ⟨ts, hts, hrest⟩ := ih h.2
    exact ⟨t :: ts, by simp [List.mapM_cons, ht, hts], by simp [hlabels, hrest]⟩

/-- What a command lays out for a human has the markup of its formats. -/
theorem Presentable.markups_onProject (h : Presentable g) (command : Command) :
    (Emission.rendered (onProject .human command g).emissions).map Item.markups =
      (formats g command).map (·.map Format.markup) := by
  cases command with
  | resolve file json =>
    cases json with
    | true =>
      rw [onProject, resolve, rendered_answer_json]
      rfl
    | false =>
      obtain ⟨p, hp⟩ := h.project
      obtain ⟨trees, htrees, hlabels⟩ :=
        exists_mapM_tree? fun key (hkey : key ∈ g.classesOf 0) => h.portrays_classesOf hkey
      have hitems : g.projectItems? 0 =
          some ((g.coverage 0).table p.name :: trees.map .tree) := by
        simp [Graph.projectItems?, hp, htrees]
      have hmarkups : (trees.map Item.tree).map Item.markups = trees.map Tree.labels := by
        rw [List.map_map]
        rfl
      rw [onProject, resolve, hitems, rendered_answer, List.map_cons, Coverage.markups_table,
        hmarkups, hlabels, formats, hp]
      simp
  | hierarchy file name json =>
    have hfound : (g.find? (.project 0) (dottedParts name)).filter
        (fun key => (g.declaration? key).any (·.isClassLike)) = classNamed? g name := rfl
    rw [onProject, hierarchy, hfound, formats]
    cases hkey : classNamed? g name with
    | none => simp [Console.showError, Emission.rendered, Item.markups, errorFormat, Format.markup,
        Piece.markup]
    | some key =>
      obtain ⟨d, hd⟩ := h.portrays_classNamed? hkey
      obtain ⟨t, ht, hlabels⟩ := hd.exists_tree?
      cases json with
      | true =>
        simp only [rendered_answer_json]
        rfl
      | false =>
        simp only [ht, Option.map_some, rendered_answer]
        simpa [Item.markups] using hlabels
  | dangling file json =>
    cases json with
    | true =>
      rw [onProject, dangling, rendered_answer_json]
      rfl
    | false =>
      rw [onProject, dangling, rendered_answer, List.map_singleton,
        Graph.markups_danglingItem]
      rfl
  | version => rfl

/-- The tags of a human are those of the program if and only if nothing interferes. -/
theorem Presentable.tags_iff (h : Presentable g) (command : Command) :
    (∀ fs ∈ formats g command, ∀ f ∈ fs, Markup.tags f.markup = f.tags) ↔
      Harmless g command := by
  have htree : ∀ key, (∃ d, g.Portrays key d) →
      ((∀ f ∈ g.treeFormats key, Markup.tags f.markup = f.tags) ↔ NameEndsClean g key) := by
    rintro key ⟨d, hd⟩
    rw [hd.tags_iff, NameEndsClean, hd.declaration]
    simp
  cases command with
  | resolve file json =>
    cases json with
    | true => exact iff_of_true (List.forall_mem_nil _) trivial
    | false =>
      obtain ⟨p, hp⟩ := h.project
      have htitle : (titleFormat p.name).tags = [] := rfl
      rw [formats, Harmless, hp, List.forall_mem_cons, List.forall_mem_map]
      refine and_congr ?_ (forall₂_congr fun key hkey => htree key (h.portrays_classesOf hkey))
      rw [List.forall_mem_cons, and_iff_left (g.coverage 0).tags_bodyFormats, Option.map_some,
        Option.getD_some, tags_titleFormat, htitle]
      simp
  | hierarchy file name json =>
    rw [formats]
    cases hkey : classNamed? g name with
    | none =>
      refine iff_of_true ?_ ?_
      · simp [tags_errorFormat]
      · cases json <;> simp [Harmless, hkey]
    | some key =>
      cases json with
      | true => exact iff_of_true (List.forall_mem_nil _) trivial
      | false =>
        rw [Harmless, hkey]
        simpa using htree key (h.portrays_classNamed? hkey)
  | dangling file json =>
    cases json with
    | true => exact iff_of_true (List.forall_mem_nil _) trivial
    | false =>
      refine iff_of_true ?_ trivial
      simpa [formats] using g.tags_danglingFormats 0
  | version => exact iff_of_true (List.forall_mem_nil _) trivial

/-! ## Command lines -/

/-- After a run over a described project, each of its declarations can be laid out. -/
theorem presentable_of_resolved {source : String} {spec : Description} {g r : Graph} {t : Tally}
    (hadopt : Graph.empty.adopt source spec = .ok g)
    (hresolved : Resolved g 0 (g.declarationsOf 0) r t) : Presentable r := by
  have ha := Graph.adopt_spec hadopt
  refine ⟨?_, fun name key hkey => ?_, fun key hkey => ?_⟩
  · obtain ⟨p, hp, -⟩ := ha.project
    exact ⟨p, by rw [hresolved.alike.project?_eq]; exact hp⟩
  · rw [hresolved.alike.find?_eq] at hkey
    rw [hresolved.alike.declarationsOf_eq]
    exact ha.encloses.mem_of_find? (Or.inl rfl) hkey
  · rw [hresolved.alike.declarationsOf_eq] at hkey
    obtain ⟨i, s, hs, rfl⟩ := ha.mem_declarationsOf.mp hkey
    obtain ⟨d, hd, hdescribes⟩ := Graph.adopt_describes hadopt hs
    obtain ⟨d', hd', hbare⟩ := hresolved.alike.exists_declaration hd
    have hkind : d'.kind = d.kind := Declaration.eq_of_bare_eq (·.kind) (fun _ => rfl) hbare
    have hname : d'.name = d.name := Declaration.eq_of_bare_eq (·.name) (fun _ => rfl) hbare
    refine ⟨d', hd', ?_, fun l hl htarget => ?_⟩
    · rw [hkind]
      exact Kind.exists_lowerName? hdescribes.kind
    · have hlevels := hresolved.levelsAt_eq ha.loaded hkey hd
      rw [Graph.levelsAt, hd', Option.bind_some] at hlevels
      rw [hlevels] at hl
      split at hl
      · rcases List.mem_append.mp hl with hside | hl
        · cases (Hierarchy.isTarget_of_mem_side hside).symm.trans htarget
        · rcases List.mem_cons.mp hl with rfl | hside
          · exact hname.symm
          · cases (Hierarchy.isTarget_of_mem_side hside).symm.trans htarget
      · cases hl

/--
For every project file that is accepted and every command that shows it to a human, what is laid out
is markup of the formats of the command. Each of its texts has exactly the tags that the program
wrote, if and only if the name of the project has no tag where a report shows it, and no
declaration of which a tree is shown has a name that swallows one.
-/
theorem run_tags (help : Option String) {env : Environment} {tree : FileTree}
    {arguments tokens : List String} {options : Global} {name : CommandName} {command : Command}
    {s : Surroundings} {file : String} {bytes : List UInt8} {g : Graph}
    (hparse : parse arguments = some (.command options name tokens))
    (hcommand : invocation? name tokens = some (.run command))
    (hs : surroundings env tree options = .ok s) (haudience : s.audience = .human)
    (hfile : command.file? = some file)
    (hexists : s.tree.find (Path.normalize file) = .file bytes)
    (hload : Graph.empty.loadFile (Path.normalize file)
      (s.findAfter (.loading (Path.normalize file)) (Path.normalize file)) = .ok g) :
    ∃ r t, Pipeline.plainRun g 0 = (.ok t, r) ∧
      (Emission.rendered (run help env tree arguments).emissions).map Item.markups =
        (formats r command).map (·.map Format.markup) ∧
      ((∀ fs ∈ formats r command, ∀ f ∈ fs, Markup.tags f.markup = f.tags) ↔
        Harmless r command) := by
  obtain ⟨spec, r, t, hadopt, hrun, hresolved, hloaded⟩ := loadResolved_of_loadFile hload
  have hpresent := presentable_of_resolved hadopt hresolved
  have hemissions : run help env tree arguments = onProject .human command r := by
    simp only [run, hparse, hs, hcommand]
    rw [execute_eq_onFile hfile, onFile]
    simp only [hexists, hloaded, haudience]
  exact ⟨r, t, hrun, by rw [hemissions, hpresent.markups_onProject], hpresent.tags_iff command⟩

/-- A human asks for a document of two classes. -/
def watched : Surroundings where
  audience := .human
  sinks := logEffects unset { human := true }
  tree := (Surroundings.holding ((Json.classes false).print .compact)).tree

theorem run_tags_classes :
    ∃ g r t, Pipeline.plainRun g 0 = (.ok t, r) ∧
      (Emission.rendered (run none unset watched.tree
        ["--human", "resolve", "model.json"]).emissions).map Item.markups =
          (formats r (.resolve "model.json" false)).map (·.map Format.markup) ∧
      ((∀ fs ∈ formats r (.resolve "model.json" false), ∀ f ∈ fs,
          Markup.tags f.markup = f.tags) ↔ Harmless r (.resolve "model.json" false)) := by
  have halike : (Surroundings.holding ((Json.classes false).print .compact)).Alike watched :=
    ⟨rfl, fun _ _ => rfl⟩
  obtain ⟨⟨bytes, hbytes⟩, hholds⟩ := Surroundings.offers_classes false
  rw [← halike.findAfter_eq] at hholds
  have hload := Graph.loadFile_eq_loadJson hholds Graph.empty "model.json"
  have hparse : parse ["--human", "resolve", "model.json"] =
      some (.command { human := true } .resolve ["model.json"]) := by decide
  have hcommand : invocation? .resolve ["model.json"] =
      some (.run (.resolve "model.json" false)) := by decide
  have hloaded : Graph.empty.loadJson "model.json" (.classes false) = .ok _ :=
    eq_ok_getD (by decide +kernel) .empty
  exact ⟨_, run_tags none hparse hcommand rfl rfl rfl hbytes (hload.trans hloaded)⟩

/--
The name of a project puts its own tags in the title of its report. A name that ends in three
backslashes takes away the end of its own emphasis.
-/
theorem run_foreignTags :
    let titled : Json := .object [("name", .string "[red]x")]
    let slashed : Json := .object [("declarations", .array
      [.object [("id", .int 1), ("name", .string "A\\\\\\"), ("kind", .string "class")]])]
    let shown (v : Json) (arguments : List String) :=
      (Emission.rendered (run none unset (Surroundings.holding (v.print .compact)).tree
        arguments).emissions).map fun item => item.markups.map Markup.tags
    (shown titled ["--human", "resolve", "model.json"]).map (·.take 1) = [[["red"]]] ∧
      (titleFormat "[red]x").tags = [] ∧
      shown slashed ["--human", "hierarchy", "model.json", "A\\\\\\"] =
        [[["bold", "dim", "/dim"], ["bold cyan"]]] := by
  decide +kernel

end CommandLine

end Lineage
