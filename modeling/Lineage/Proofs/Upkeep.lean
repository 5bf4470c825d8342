import Lineage.Proofs.Engines
import Lineage.Proofs.Swept
import Mathlib.Data.List.Induction

/-!
# Events in any order

Whatever events reach a resolver, in any order and number and on behalf of any runs, declarations
that await no hierarchy are in order, and what was there before an event is there behind it.
-/

namespace Lineage

/-! ## Declarations in order -/

/-- No run has added anything, or the implementers are sorted and the chain is that of now. -/
def Declaration.Tidy (d : Declaration) (key : DeclKey) : Prop :=
  (d.hierarchy = none ∧ d.extendedBy = none ∧ d.implementedBy = none) ∨
    (∀ ts, d.implementedBy = some ts →
        AllNamed ts ∧ ts.Pairwise fun a b => nameKey a ≤ nameKey b) ∧
      d.levels? = some (d.levelsOf (d.chain key))

theorem Declaration.tidy_of_bare {d : Declaration} (hd : d.bare = d) (key : DeclKey) :
    d.Tidy key := by
  rw [← hd]
  exact Or.inl ⟨rfl, rfl, rfl⟩

theorem Declaration.tidy_resolved (d : Declaration) (key : DeclKey)
    (implementers extenders : List Reference) :
    (d.resolved key implementers extenders true).Tidy key := by
  refine Or.inr ⟨fun ts hts => ?_, rfl⟩
  rw [implementedBy_resolved] at hts
  have hts' := congrArg (Option.getD · []) hts
  simp only [getD_nonempty?, Option.getD_some] at hts'
  subst hts'
  constructor
  · intro t ht
    obtain ⟨r, -, rfl⟩ := List.mem_map.mp ht
    rfl
  · exact List.pairwise_map.mpr (pairwise_mergeSort_ascending Reference.name implementers)

theorem Swept.exists_tidy {g g' : Graph} {project : ProjectKey} {done fresh : List DeclKey}
    {pending : Worklist} (hs : Swept g project done fresh g' pending) (h : g.Loaded project)
    {key : DeclKey} (hkey : key ∈ g.declarationsOf project) (hnot : key ∉ pending) :
    ∃ d, g'.declaration? key = some d ∧ d.Tidy key := by
  obtain ⟨d, hd, hbare⟩ := h.declaration key hkey
  have hfresh : ¬ g.awaited project fresh key := fun ha => hnot (hs.mem_pending.mpr ha)
  have hd' := hs.declaration key hkey
  rw [hd, Option.map_some, Graph.received_eq_nil (Or.inl rfl) hfresh,
    Graph.received_eq_nil (Or.inr rfl) hfresh, Declaration.gain_nil] at hd'
  refine ⟨_, hd', ?_⟩
  by_cases hdone : g.awaited project done key
  · rw [hdone]
    exact Declaration.tidy_resolved d key _ _
  · rw [Graph.received_eq_nil (Or.inl rfl) hdone, Graph.received_eq_nil (Or.inr rfl) hdone,
      Bool.eq_false_iff.mpr hdone, ← Declaration.gain_eq_resolved hbare]
    exact Declaration.tidy_of_bare hbare key

/-! ## Nothing is lost -/

/-- Links that are set stay, extenders are only appended, and implementers are only gained. -/
structure Graph.Develops (g g' : Graph) : Prop where
  links : ∀ link target : Nat, g.links[link]? = some (some target) →
    g'.links[link]? = some (some target)
  extendedBy : ∀ key d, g.declaration? key = some d → ∀ ts, d.extendedBy = some ts →
    ∃ d' more, g'.declaration? key = some d' ∧ d'.extendedBy = some (ts ++ more)
  implementedBy : ∀ key d, g.declaration? key = some d → ∀ ts, d.implementedBy = some ts →
    ∃ d' us, g'.declaration? key = some d' ∧ d'.implementedBy = some us ∧ ts.Subperm us

namespace Graph.Develops

variable {g g' g'' : Graph}

theorem refl (g : Graph) : g.Develops g where
  links _ _ h := h
  extendedBy _ d hd ts hts := ⟨d, [], hd, by rw [hts, List.append_nil]⟩
  implementedBy _ d hd ts hts := ⟨d, ts, hd, hts, List.Subperm.refl ts⟩

theorem trans (h : g.Develops g') (h' : g'.Develops g'') : g.Develops g'' where
  links link target hl := h'.links link target (h.links link target hl)
  extendedBy key d hd ts hts := by
    obtain ⟨d', more, hd', hts'⟩ := h.extendedBy key d hd ts hts
    obtain ⟨d'', more', hd'', hts''⟩ := h'.extendedBy key d' hd' _ hts'
    exact ⟨d'', more ++ more', hd'', by rw [hts'', List.append_assoc]⟩
  implementedBy key d hd ts hts := by
    obtain ⟨d', us, hd', hus, hsub⟩ := h.implementedBy key d hd ts hts
    obtain ⟨d'', vs, hd'', hvs, hsub'⟩ := h'.implementedBy key d' hd' us hus
    exact ⟨d'', vs, hd'', hvs, hsub.trans hsub'⟩

end Graph.Develops

theorem Delivered.develops {g : Graph} {project : ProjectKey} {keys : List DeclKey} {s s' : Sweep}
    (hd : Delivered g project keys s s') (hs : g.Grown project s.graph)
    (hkeys : ∀ key ∈ keys, key ∈ g.declarationsOf project) : s.graph.Develops s'.graph where
  links link target hl := by
    by_cases hmem : ∃ m ∈ g.mentions keys, m.2.link? = some link
    · obtain ⟨m, hm, he⟩ := hmem
      obtain ⟨hkey, hr⟩ := Graph.mem_mentions.mp hm
      -- A link that is set leads to what its reference names, and it is set to that again.
      rcases hs.held m.1 (hkeys m.1 hkey) m.2 hr link he with hheld | hheld
      · rw [hl] at hheld
        cases hheld
      · rw [hd.settled m.1 hkey m.2 hr link he, ← hheld, hl]
    · rw [hd.untouched link fun m hm he => hmem ⟨m, hm, he⟩, hl]
  extendedBy key d hdecl ts hts := by
    have hdecl' := hd.declaration key
    rw [hdecl, Option.map_some] at hdecl'
    exact ⟨_, _, hdecl', Declaration.extendedBy_gain hts _ _⟩
  implementedBy key d hdecl ts hts := by
    have hdecl' := hd.declaration key
    rw [hdecl, Option.map_some] at hdecl'
    exact ⟨_, _, hdecl', Declaration.implementedBy_gain hts _ _,
      (List.sublist_append_left ts _).subperm⟩

theorem Graph.Chained.develops {g g' : Graph} {keys : List DeclKey} (h : Chained g keys g')
    (hsort : ∀ key ∈ keys, g.Sortable key) : g.Develops g' where
  links link target hl := by
    rw [h.links]
    exact hl
  extendedBy key d hd ts hts := by
    have hd' := h.declaration key
    rw [hd, Option.map_some] at hd'
    refine ⟨_, [], hd', ?_⟩
    rw [List.append_nil, ← hts]
    split <;> rfl
  implementedBy key d hd ts hts := by
    have hd' := h.declaration key
    rw [hd, Option.map_some] at hd'
    by_cases hkey : key ∈ keys
    · rw [if_pos hkey] at hd'
      refine ⟨_, Declaration.sortByName ts, hd', ?_, ?_⟩
      · rw [Declaration.chained, hts, Option.map_some]
      · exact (Declaration.sortByName_perm (hsort key hkey d hd ts hts)).symm.subperm
    · rw [if_neg hkey] at hd'
      exact ⟨_, ts, hd', hts, List.Subperm.refl ts⟩

/-- Every declaration of a project that awaits no hierarchy is in order. -/
def Graph.TidyBut (g : Graph) (project : ProjectKey) (pending : Worklist) : Prop :=
  ∀ key ∈ g.declarationsOf project, key ∉ pending → ∃ d, g.declaration? key = some d ∧ d.Tidy key

theorem Swept.tidyBut {g g' : Graph} {project : ProjectKey} {done fresh : List DeclKey}
    {pending : Worklist} (hs : Swept g project done fresh g' pending) (h : g.Loaded project) :
    g'.TidyBut project pending := by
  intro key hkey hnot
  rw [hs.alike.declarationsOf_eq] at hkey
  exact hs.exists_tidy h hkey hnot

/-! ## One event -/

def Sweep.signal (project : ProjectKey) (s : Sweep) : Pipeline.Signal → Sweep
  | .declaration key => s.deliver project key
  | .finish => s.finish

namespace Swept

variable {g : Graph} {project : ProjectKey} {done fresh : List DeclKey} {s : Sweep}

theorem signal (hs : Swept g project done fresh s.graph s.pending) (h : g.Loaded project)
    (e : Pipeline.Signal) (he : ∀ key, e = .declaration key → key ∈ g.declarationsOf project) :
    ∃ done' fresh', Swept g project done' fresh' (s.signal project e).graph
      (s.signal project e).pending := by
  cases e with
  | declaration key =>
    have hkey := he key rfl
    exact ⟨done, fresh ++ [key], hs.deliver h (Sweep.deliver_spec h (hs.grown h) hkey)
      (by simpa using hkey)⟩
  | finish => exact ⟨done ++ fresh, [], hs.finish h⟩

theorem develops_signal (hs : Swept g project done fresh s.graph s.pending) (h : g.Loaded project)
    (e : Pipeline.Signal) (he : ∀ key, e = .declaration key → key ∈ g.declarationsOf project) :
    s.graph.Develops (s.signal project e).graph := by
  cases e with
  | declaration key =>
    have hkey := he key rfl
    exact (Sweep.deliver_spec h (hs.grown h) hkey).develops (hs.grown h) (by simpa using hkey)
  | finish => exact (hs.chained h).2.develops (hs.sortable h)

end Swept

namespace Pipeline

variable {υ : Type}

/-! ## Events on behalf of several runs -/

def addRuns (project : ProjectKey) (count : Nat) : Action υ Unit :=
  (List.replicate count project).forM fun project => modify (·.addRun project)

/-- Fires signals on a new engine, each on behalf of one of several runs over a project. -/
def signalRuns (react : Reactions υ) (project : ProjectKey) {count : Nat}
    (events : List (Fin count × Signal)) : Action υ EngineKey := do
  let engine ← newEngine []
  let first := (← get).runs.size
  addRuns project count
  events.forM fun e => signal react engine (first + e.1) e.2
  return engine

/--
Signals on behalf of several runs without a listener of a user: who awaits a hierarchy in the end,
or a fault, and the graph they leave.
-/
def plainEvents (g : Graph) (project : ProjectKey) {count : Nat}
    (events : List (Fin count × Signal)) : Except Fault Worklist × Graph :=
  let (outcome, w) :=
    (signalRuns silent project events).run.run ({ graph := g, user := () } : World Unit)
  (outcome.map (pendingOf w), w.graph)

def RunsOver (project : ProjectKey) (w : World υ) : Prop :=
  ∀ (run : RunKey) (r : Run), w.runs[run]? = some r → r.project = project

theorem RunsOver.addRun {project : ProjectKey} {w : World υ} (h : RunsOver project w) :
    RunsOver project (w.addRun project) := by
  intro run r hr
  rw [World.addRun, Array.getElem?_push] at hr
  split at hr
  · obtain rfl := Option.some.inj hr
    rfl
  · exact h run r hr

theorem reaches_addRuns {engine : EngineKey} {plugin : PluginKey} {project : ProjectKey}
    {w : World υ} {pending : Worklist} (hl : Listens engine plugin w pending)
    (hruns : RunsOver project w) (count : Nat) :
    ∃ w', Reaches (addRuns project count) w () w' ∧ Listens engine plugin w' pending ∧
      RunsOver project w' ∧ w'.runs.size = w.runs.size + count ∧ w'.graph = w.graph := by
  induction count generalizing w with
  | zero => exact ⟨w, reaches_pure () w, hl, hruns, rfl, rfl⟩
  | succ count ih =>
    obtain ⟨w', hreach, hl', hruns', hsize, hgraph⟩ := ih (hl.addRun project) hruns.addRun
    refine ⟨w', (reaches_modify _ w).bind hreach, hl', hruns', ?_, hgraph⟩
    rw [hsize, World.addRun, Array.size_push]
    omega

/-- An engine that listens on behalf of runs over one project, and has swept it up to a point. -/
structure Attends (g : Graph) (project : ProjectKey) (engine : EngineKey) (plugin : PluginKey)
    (w : World υ) (pending : Worklist) : Prop where
  listens : Listens engine plugin w pending
  runs : RunsOver project w
  swept : ∃ done fresh, Swept g project done fresh w.graph pending

section Attend

variable {g : Graph} {project : ProjectKey} {engine : EngineKey} {plugin : PluginKey}
variable {w w' : World υ} {pending : Worklist}

/-- What an event leaves is attended as what it met was. -/
theorem Attends.of_fired (ha : Attends g project engine plugin w pending) {run : RunKey}
    {s : Sweep} (hf : Fired engine plugin run project w w' s)
    (hs : ∃ done fresh, Swept g project done fresh s.graph s.pending) :
    Attends g project engine plugin w' s.pending where
  listens := hf.listens
  runs other r hr := by
    -- The run of the event has counted and is over the same project, the others are as before.
    by_cases hother : other = run
    · subst hother
      rw [hf.counted] at hr
      obtain rfl := Option.some.inj hr
      rfl
    · rw [hf.keeps.others other hother] at hr
      exact ha.runs other r hr
  swept := by
    rw [hf.graph]
    exact hs

theorem Attends.reaches_signal (ha : Attends g project engine plugin w pending)
    (h : g.Loaded project) {run : RunKey} (hrun : run < w.runs.size) (e : Signal)
    (he : ∀ key, e = .declaration key → key ∈ g.declarationsOf project) :
    ∃ w' pending', Reaches (signal silent engine run e) w () w' ∧
      Attends g project engine plugin w' pending' ∧ w'.runs.size = w.runs.size ∧
      w.graph.Develops w'.graph ∧ (e = .finish → pending' = []) := by
  obtain ⟨done, fresh, hswept⟩ := ha.swept
  let s : Sweep := ⟨w.graph, pending, w.runs[run].tally⟩
  have hs : Swept g project done fresh s.graph s.pending := hswept
  have hr : w.runs[run]? = some ⟨project, s.tally⟩ := by
    rw [Array.getElem?_eq_getElem hrun, ← ha.runs run _ (Array.getElem?_eq_getElem hrun)]
  have hserves : Serves engine plugin run project w s := ha.listens.serves hr
  obtain ⟨w', hreach, hserves'⟩ : ∃ w', Reaches (Pipeline.signal silent engine run e) w () w' ∧
      Serves engine plugin run project w' (s.signal project e) := by
    cases e with
    | declaration key => exact reaches_fire_declaration silent hserves key
    | finish => exact reaches_fire_finish silent hserves (hs.chained h).1
  have hkeeps := (confined_signal engine e).keeps hreach
  have hfired := ha.listens.fired hserves' hkeeps
  refine ⟨w', _, hreach, ha.of_fired hfired (hs.signal h e he), hkeeps.size, ?_, ?_⟩
  · rw [hserves'.handles.graph]
    exact hs.develops_signal h e he
  · rintro rfl
    rfl

/-! ## All events -/

theorem Attends.reaches_events (ha : Attends g project engine plugin w pending)
    (h : g.Loaded project) {first count : Nat} (hcount : w.runs.size = first + count)
    (events : List (Fin count × Signal))
    (hevents : ∀ e ∈ events, ∀ key, e.2 = .declaration key → key ∈ g.declarationsOf project) :
    ∃ w' pending', Reaches (events.forM fun e => signal silent engine (first + e.1) e.2) w () w' ∧
      Attends g project engine plugin w' pending' ∧ w'.runs.size = w.runs.size ∧
      w.graph.Develops w'.graph ∧
      ∀ e, events.getLast? = some e → e.2 = .finish → pending' = [] := by
  induction events using List.reverseRecOn with
  | nil => exact ⟨w, pending, reaches_pure () w, ha, rfl, .refl _, by simp⟩
  | append_singleton events e ih =>
    obtain ⟨w₁, pending₁, hreach, ha₁, hsize, hdevelops, -⟩ :=
      ih fun e' he' => hevents e' (List.mem_append_left _ he')
    have hrun : first + e.1 < w₁.runs.size := by omega
    obtain ⟨w₂, pending₂, hreach₂, ha₂, hsize₂, hdevelops₂, hfinish⟩ :=
      ha₁.reaches_signal h hrun e.2 (hevents e (by simp))
    have hlast : Reaches ([e].forM fun e => signal silent engine (first + e.1) e.2) w₁ () w₂ :=
      hreach₂.bind (reaches_pure () w₂)
    refine ⟨w₂, pending₂, hreach.forM_append hlast, ha₂, hsize₂.trans hsize,
      hdevelops.trans hdevelops₂, fun e' he' => ?_⟩
    rw [List.getLast?_concat] at he'
    obtain rfl := Option.some.inj he'
    exact hfinish

/-- The events follow the start of an engine and of the runs. -/
theorem plainEvents_eq {count : Nat} {events : List (Fin count × Signal)} {w₀ w₁ w₂ : World Unit}
    (hengine : Reaches (newEngine []) { graph := g, user := () } engine w₀)
    (hruns : Reaches (addRuns project count) w₀ () w₁)
    (hevents : Reaches (events.forM fun e => signal silent engine (w₀.runs.size + e.1) e.2)
      w₁ () w₂) :
    plainEvents g project events = (.ok (pendingOf w₂ engine), w₂.graph) := by
  have hreach : Reaches (signalRuns silent project events) { graph := g, user := () } engine w₂ :=
    hengine.bind ((reaches_get w₀).bind (hruns.bind (hevents.bind (reaches_pure engine w₂))))
  rw [plainEvents, hreach]
  rfl

end Attend

/--
After any events on behalf of any runs over a described project, whoever awaits no hierarchy is in
order, and after an end all are. More events lose nothing of what the first have come to.
-/
theorem plainEvents_tidy {g₀ g : Graph} {source : String} {spec : Description}
    (h : g₀.adopt source spec = .ok g) {count : Nat} {events more : List (Fin count × Signal)}
    (hevents : ∀ e ∈ events ++ more, ∀ key, e.2 = .declaration key →
      key ∈ g.declarationsOf g₀.projects.size) :
    ∃ pending g₁ pending' g₂,
      plainEvents g g₀.projects.size events = (.ok pending, g₁) ∧
      plainEvents g g₀.projects.size (events ++ more) = (.ok pending', g₂) ∧
      g₁.TidyBut g₀.projects.size pending ∧
      (∀ e, events.getLast? = some e → e.2 = .finish → g₁.TidyBut g₀.projects.size []) ∧
      g₁.Develops g₂ := by
  have hloaded := (Graph.adopt_spec h).loaded
  obtain ⟨w₀, hengine, hl₀, hgraph₀, hruns₀⟩ := reaches_firstEngine g
  have hover : RunsOver g₀.projects.size w₀ := by
    intro run r hr
    rw [hruns₀] at hr
    simp at hr
  obtain ⟨w₁, hruns, hl₁, hover₁, hsize₁, hgraph₁⟩ := reaches_addRuns hl₀ hover count
  have hswept : Swept g g₀.projects.size [] [] w₁.graph [] := by
    rw [hgraph₁, hgraph₀]
    exact Swept.start hloaded
  have ha₁ : Attends g g₀.projects.size 0 0 w₁ [] := ⟨hl₁, hover₁, [], [], hswept⟩
  obtain ⟨w₂, pending₂, hreach₂, ha₂, hsize₂, -, hfinish⟩ := ha₁.reaches_events hloaded hsize₁
    events fun e he => hevents e (List.mem_append_left _ he)
  obtain ⟨w₃, pending₃, hreach₃, ha₃, -, hdevelops, -⟩ := ha₂.reaches_events hloaded
    (hsize₂.trans hsize₁) more fun e he => hevents e (List.mem_append_right _ he)
  obtain ⟨done, fresh, hswept₂⟩ := ha₂.swept
  have htidy := hswept₂.tidyBut hloaded
  refine ⟨_, _, _, _, plainEvents_eq hengine hruns hreach₂,
    plainEvents_eq hengine hruns (hreach₂.forM_append hreach₃), ?_, ?_, hdevelops⟩
  · have hpending := ha₂.listens.pendingOf_eq
    rwa [← hpending] at htidy
  · intro e he hend
    rwa [hfinish e he hend] at htidy

theorem plainEvents_tidy_sample :
    ∃ g, Graph.empty.adopt "sample" Description.sample = .ok g ∧
      ∃ pending g₁ pending' g₂,
        plainEvents g 0 [((0 : Fin 2), .declaration 2), (1, .finish)] = (.ok pending, g₁) ∧
        plainEvents g 0 ([((0 : Fin 2), .declaration 2), (1, .finish)] ++
          [(1, .declaration 0), (0, .declaration 2)]) = (.ok pending', g₂) ∧
        g₁.TidyBut 0 pending ∧
        (∀ e, [((0 : Fin 2), Signal.declaration 2), (1, .finish)].getLast? = some e →
          e.2 = .finish → g₁.TidyBut 0 []) ∧
        g₁.Develops g₂ := by
  obtain ⟨g, h⟩ := Graph.exists_adopt_sample
  have hperm : (g.declarationsOf 0).Perm [0, 1, 2] := (Graph.adopt_spec h).declarationsOf_perm
  have hevents : ∀ e ∈ [((0 : Fin 2), Signal.declaration 2), (1, .finish)] ++
      [(1, .declaration 0), (0, .declaration 2)], ∀ key, e.2 = .declaration key →
        key ∈ g.declarationsOf 0 := by
    intro e he key hkey
    rw [hperm.mem_iff]
    simp only [List.cons_append, List.nil_append, List.mem_cons, List.not_mem_nil, or_false] at he
    rcases he with rfl | rfl | rfl | rfl <;> simp_all
  have htidy := plainEvents_tidy h hevents
  exact ⟨g, h, htidy⟩

end Pipeline

end Lineage
