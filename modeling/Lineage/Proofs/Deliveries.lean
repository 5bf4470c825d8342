import Lineage.Proofs.Arena
import Lineage.Proofs.BackEdges
import Lineage.Proofs.Delivery
import Lineage.Proofs.References
import Lineage.Proofs.Steps
import Lineage.Proofs.StoredChains

/-!
# Deliveries

Listeners may register declarations while a run goes on. Which declarations the run delivers is
settled once the listeners of its first event have returned: those that are registered then, each
once, in ascending order of their ids.
-/

namespace Lineage

/-! ## Growing projects -/

/-- A project stays indexed, and its ids keep leading to the same declarations. -/
structure Graph.Grows (project : ProjectKey) (g g' : Graph) : Prop where
  indexed : g.Indexed project → g'.Indexed project
  holds : Graph.Holds project g g'

namespace Graph.Grows

variable {project : ProjectKey} {g g' g'' : Graph}

theorem refl (g : Graph) : Grows project g g :=
  ⟨id, fun _ _ h => h⟩

theorem trans (h : Grows project g g') (h' : Grows project g' g'') : Grows project g g'' :=
  ⟨h'.indexed ∘ h.indexed, fun id key hkey => h'.holds id key (h.holds id key hkey)⟩

theorem register (g : Graph) (other : ProjectKey) (key : DeclKey) (symbol : Option Int) :
    Grows project g (g.register other key symbol).2 :=
  ⟨fun h => h.register other key symbol, holds_register g other key symbol⟩

/-- What keeps ids and the tables of projects lets every project grow. -/
theorem of_keepsIds (hids : g.KeepsIds g') (hprojects : g'.projects = g.projects) :
    Grows project g g' := by
  have htables : (g'.project? project).map Project.tables =
      (g.project? project).map Project.tables := by rw [project?, project?, hprojects]
  exact ⟨fun h => h.of_keepsIds hids htables, .of_tables htables⟩

theorem of_alike (h : Alike g g') : Grows project g g' := by
  refine of_keepsIds (fun key id _ hkey => ?_) h.projects
  rw [← hkey]
  exact h.map_eq Declaration.id (fun _ => rfl) key

theorem create (g : Graph) (other : ProjectKey) (name : String) (kind : Kind)
    (parent : Option Scope) (symbol : Option Int) :
    Grows project g (g.create other name kind parent symbol).2 :=
  (of_keepsIds (.add g _) rfl).trans (.register _ other _ symbol)

end Graph.Grows

/-! ## Listeners -/

/-- What a listener does: it makes, changes and registers declarations, and keeps a state. -/
inductive Chore (σ : Type)
  | done
  | declare (d : Declaration) (next : Chore σ)
  | edit (key : DeclKey) (f : Declaration → Declaration) (next : Chore σ)
  | register (project : ProjectKey) (key : DeclKey) (symbol : Option Int)
    (next : Except Refusal DeclKey → Chore σ)
  | create (project : ProjectKey) (name : String) (kind : Kind) (parent : Option Scope)
    (symbol : Option Int) (next : Except Refusal DeclKey → Chore σ)
  | keep (f : Graph → σ → σ) (next : Chore σ)
  | look (next : Graph → σ → Chore σ)

/-- The graph and the state that a listener leaves; what it changes keeps its id. -/
def Chore.perform {σ : Type} (g : Graph) (kept : σ) : Chore σ → Graph × σ
  | .done => (g, kept)
  | .declare d next => next.perform (g.add d) kept
  | .edit key f next => next.perform (g.modify key fun d => { f d with id := d.id }) kept
  | .register project key symbol next =>
    let (registered, g') := g.register project key symbol
    (next registered).perform g' kept
  | .create project name kind parent symbol next =>
    let (created, g') := g.create project name kind parent symbol
    (next created).perform g' kept
  | .keep f next => next.perform g (f g kept)
  | .look next => (next g kept).perform g kept

theorem Chore.grows {σ : Type} (project : ProjectKey) (c : Chore σ) (g : Graph) (kept : σ) :
    Graph.Grows project g (c.perform g kept).1 := by
  induction c generalizing g kept with
  | done => exact .refl g
  | declare d next ih => exact (Graph.Grows.of_keepsIds (.add g d) rfl).trans (ih _ _)
  | edit key f next ih =>
    have hedited : Graph.Grows project g (g.modify key fun d => { f d with id := d.id }) := by
      refine .of_keepsIds (fun k id _ hk => ?_) rfl
      rw [Graph.declaration?_modify]
      split
      · rw [Option.map_map, ← hk]
        rfl
      · exact hk
    exact hedited.trans (ih _ _)
  | register other key symbol next ih =>
    exact (Graph.Grows.register g other key symbol).trans (ih _ _ _)
  | create other name kind parent symbol next ih =>
    exact (Graph.Grows.create g other name kind parent symbol).trans (ih _ _ _)
  | keep f next ih => exact ih _ _
  | look next ih => exact ih _ _ _ _

/-- The state of listeners beside the calls that they have had. -/
structure Told (σ : Type) where
  kept : σ
  told : List (String × Occurrence)

namespace Pipeline

variable {υ σ : Type}

/-- Listeners that do chores, and tell what they were called with. -/
def choring (code : String → Occurrence → Chore σ) : Reactions (Told σ) := fun label occurrence =>
  modify fun w =>
    let (graph, kept) := (code label occurrence).perform w.graph w.user.kept
    { w with graph := graph, user := ⟨kept, w.user.told ++ [(label, occurrence)]⟩ }

/-! ## What calls leave -/

/-- What a call leaves: all engines and runs, the number of deliveries, and a project that grows. -/
structure Spares (project : ProjectKey) (run : RunKey) (w w' : World υ) : Prop where
  engines : w'.engines = w.engines
  size : w'.runs.size = w.runs.size
  resolved : (w'.tally run).declarationsResolved = (w.tally run).declarationsResolved
  grows : Graph.Grows project w.graph w'.graph

variable {project : ProjectKey} {run : RunKey} {engine : EngineKey}

instance : IsPreorder (World υ) (Spares project run) where
  refl w := ⟨rfl, rfl, rfl, .refl w.graph⟩
  trans _ _ _ h h' := ⟨h'.engines.trans h.engines, h'.size.trans h.size,
    h'.resolved.trans h.resolved, h.grows.trans h'.grows⟩

namespace Spares

variable {w w' : World υ}

theorem setGraph (h : Spares project run w w') {g : Graph}
    (hg : Graph.Grows project w'.graph g) : Spares project run w { w' with graph := g } :=
  ⟨h.engines, h.size, h.resolved, h.grows.trans hg⟩

theorem setPending (h : Spares project run w w') (plugin : PluginKey) (pending : Worklist) :
    Spares project run w (w'.setPending plugin pending) :=
  ⟨h.engines, h.size, h.resolved, h.grows⟩

theorem modifyTally (h : Spares project run w w') {f : Tally → Tally}
    (hf : (f (w'.tally run)).declarationsResolved = (w'.tally run).declarationsResolved) :
    Spares project run w (w'.modifyTally run f) := by
  refine ⟨h.engines, ?_, ?_, h.grows⟩
  · rw [World.modifyTally, Array.size_modify, h.size]
  · rw [tally_modifyTally, ← h.resolved, ← hf]
    cases hr : w'.runs[run]? with
    | none =>
      rw [World.tally, hr] at hf ⊢
      exact hf.symm
    | some r => rw [World.tally, hr]; rfl

end Spares

theorem spares_linkDeclaration (plugin : PluginKey) (key : DeclKey) :
    Moves (Spares project run) (linkDeclaration plugin run key : Action υ Unit) := by
  refine moves_modify fun w => ?_
  split
  · next p r hp hr =>
    have hgraph : Spares project run w
        { w with graph := (Linking.declaration r.project key (w.linking run)).graph } :=
      .setGraph (refl_of _ w) (.of_alike (Linking.alike_declaration r.project key (w.linking run)))
    have hlinked : Spares project run w (w.link run (Linking.declaration r.project key)) :=
      hgraph.modifyTally (f := fun _ => (Linking.declaration r.project key (w.linking run)).tally)
        (Linking.declarationsResolved_declaration r.project key (w.linking run))
    refine .modifyTally (.setPending (hlinked.setGraph ?_) plugin _) rfl
    exact .of_alike (Graph.alike_addBackEdges p.pending)
  · exact refl_of _ w

theorem spares_finishRun (plugin : PluginKey) :
    Moves (Spares project run) (finishRun plugin run : Action υ Unit) := by
  refine moves_get_bind fun w => ?_
  split
  · exact refl_of _ w
  · next p hp =>
    have hstored : Spares project run w { w with graph := (w.graph.storeChains p.pending).1 } :=
      .setGraph (refl_of _ w) (.of_alike (Graph.alike_storeChains p.pending w.graph))
    simp only
    split
    · exact (hstored.modifyTally rfl).setPending plugin []
    · exact hstored

theorem spares_call (code : String → Occurrence → Chore σ) {occurrence : Occurrence}
    (h : occurrence.run = run) (callback : Callback) :
    Moves (Spares project run) (call (choring code) occurrence callback) := by
  subst h
  have hreact : ∀ label, Moves (Spares project occurrence.run)
      (choring code label occurrence) := fun label =>
    moves_modify fun w => ⟨rfl, rfl, rfl, Chore.grows project _ _ _⟩
  exact moves_call hreact spares_linkDeclaration spares_finishRun callback

/-! ## What listeners are told -/

def toldBy (occurrence : Occurrence) : Callback → List (String × Occurrence)
  | .user label => [(label, occurrence)]
  | .link _ => []
  | .finish _ => []

def toldOf (w : World υ) (engine : EngineKey) (event : String) (occurrence : Occurrence) :
    List (String × Occurrence) :=
  (callbacksOf w engine event).flatMap (toldBy occurrence)

section Reached

variable {code : String → Occurrence → Chore σ} {w w' : World (Told σ)}

theorem told_call {occurrence : Occurrence} {callback : Callback}
    (h : Reaches (call (choring code) occurrence callback) w () w') :
    w'.user.told = w.user.told ++ toldBy occurrence callback := by
  cases callback with
  | user label =>
    cases h
    rfl
  | link plugin =>
    unfold call at h
    simp only at h
    split at h
    · rw [((moves_linkDeclaration plugin _ _).of_reaches h).user, toldBy, List.append_nil]
    · cases h
    · cases h
  | finish plugin =>
    unfold call at h
    simp only at h
    split at h
    · rw [((moves_finishRun plugin _).of_reaches h).user, toldBy, List.append_nil]
    · cases h

theorem told_forM {occurrence : Occurrence} {callbacks : List Callback}
    (h : Reaches (callbacks.forM (call (choring code) occurrence)) w () w') :
    w'.user.told = w.user.told ++ callbacks.flatMap (toldBy occurrence) := by
  induction callbacks generalizing w with
  | nil =>
    cases h
    simp
  | cons callback callbacks ih =>
    obtain ⟨_, v, hfirst, hrest⟩ := Reaches.of_bind h
    rw [ih hrest, told_call hfirst, List.append_assoc]
    rfl

theorem told_fire {event : String} {occurrence : Occurrence}
    (h : Reaches (fire (choring code) engine event occurrence) w () w') :
    w'.user.told = w.user.told ++ toldOf w engine event occurrence := by
  obtain ⟨_, _, hget, h⟩ := Reaches.of_bind h
  cases hget
  exact told_forM h

end Reached

theorem spares_fire (code : String → Occurrence → Chore σ) (event : String)
    {occurrence : Occurrence} (h : occurrence.run = run) :
    Moves (Spares project run) (fire (choring code) engine event occurrence) :=
  moves_fire (spares_call code h) engine event

/-! ## Deliveries -/

/-- What a part of a run leaves: engines, runs, a growing project, what it has counted and told. -/
structure Went (project : ProjectKey) (run : RunKey) (count : Nat)
    (told : List (String × Occurrence)) (w w' : World (Told σ)) : Prop where
  engines : w'.engines = w.engines
  size : w'.runs.size = w.runs.size
  resolved : (w'.tally run).declarationsResolved = (w.tally run).declarationsResolved + count
  grows : Graph.Grows project w.graph w'.graph
  told : w'.user.told = w.user.told ++ told

theorem Went.trans {count count' : Nat} {told told' : List (String × Occurrence)}
    {w w' w'' : World (Told σ)} (h : Went project run count told w w')
    (h' : Went project run count' told' w' w'') :
    Went project run (count + count') (told ++ told') w w'' where
  engines := h'.engines.trans h.engines
  size := h'.size.trans h.size
  resolved := by rw [h'.resolved, h.resolved, Nat.add_assoc]
  grows := h.grows.trans h'.grows
  told := by rw [h'.told, h.told, List.append_assoc]

section Reached

variable {code : String → Occurrence → Chore σ} {w w' : World (Told σ)}

theorem toldOf_congr (h : w'.engines = w.engines) (engine : EngineKey) (event : String)
    (occurrence : Occurrence) :
    toldOf w' engine event occurrence = toldOf w engine event occurrence := by
  rw [toldOf, toldOf, callbacksOf, callbacksOf, h]

theorem went_fire {event : String} {occurrence : Occurrence} (hrun : occurrence.run = run)
    (h : Reaches (fire (choring code) engine event occurrence) w () w') :
    Went project run 0 (toldOf w engine event occurrence) w w' := by
  have hspares : Spares project run w w' := (spares_fire code event hrun).of_reaches h
  exact ⟨hspares.engines, hspares.size, hspares.resolved, hspares.grows, told_fire h⟩

theorem went_deliver {key : DeclKey} (hrun : run < w.runs.size)
    (h : Reaches (deliver (choring code) engine run key) w () w') :
    Went project run 1 (toldOf w engine Event.declaration ⟨run, some (.declaration key)⟩) w w' := by
  obtain ⟨_, v, hfire, hcount⟩ := Reaches.of_bind h
  have hwent : Went project run 0 _ w v := went_fire rfl hfire
  have hcounted : Went project run 1 [] v w' := by
    cases hcount
    have hlt : run < v.runs.size := hwent.size ▸ hrun
    refine ⟨rfl, Array.size_modify, ?_, .refl _, (List.append_nil _).symm⟩
    change ((v.modifyTally run _).tally run).declarationsResolved = _
    rw [tally_modifyTally, World.tally, Array.getElem?_eq_getElem hlt]
    rfl
  simpa using hwent.trans hcounted

theorem went_forM_deliver {keys : List DeclKey} (hrun : run < w.runs.size)
    (h : Reaches (keys.forM (deliver (choring code) engine run)) w () w') :
    Went project run keys.length (keys.flatMap fun key =>
      toldOf w engine Event.declaration ⟨run, some (.declaration key)⟩) w w' := by
  induction keys generalizing w with
  | nil =>
    cases h
    exact ⟨rfl, rfl, rfl, .refl _, by simp⟩
  | cons key keys ih =>
    obtain ⟨_, v, hfirst, hrest⟩ := Reaches.of_bind h
    have hfirst : Went project run 1 _ w v := went_deliver hrun hfirst
    have hrest := hfirst.trans (ih (hfirst.size ▸ hrun) hrest)
    simp only [toldOf_congr hfirst.engines] at hrest
    rw [List.length_cons, Nat.add_comm]
    exact hrest

/-- How a run goes: its first event, the deliveries that are due then, and its last event. -/
theorem runOver_stages {project : ProjectKey} {run : RunKey}
    (h : Reaches (runOver (choring code) engine project) w run w') :
    run = w.runs.size ∧ ∃ w₁ w₂,
      Reaches (fire (choring code) engine Event.begin ⟨run, none⟩) (w.addRun project) () w₁ ∧
      Reaches ((w₁.graph.declarationsOf project).forM (deliver (choring code) engine run))
        w₁ () w₂ ∧
      Reaches (fire (choring code) engine Event.finish ⟨run, none⟩) w₂ () w' := by
  obtain ⟨_, _, hget, h⟩ := Reaches.of_bind h
  cases hget
  obtain ⟨_, _, hadd, h⟩ := Reaches.of_bind h
  cases hadd
  obtain ⟨_, w₁, hbegin, h⟩ := Reaches.of_bind h
  obtain ⟨_, _, hget, h⟩ := Reaches.of_bind h
  cases hget
  obtain ⟨_, w₂, hdeliver, h⟩ := Reaches.of_bind h
  obtain ⟨_, w₃, hfinish, h⟩ := Reaches.of_bind h
  obtain ⟨hrun, rfl⟩ := Reaches.of_pure h
  subst hrun
  exact ⟨rfl, w₁, w₂, hbegin, hdeliver, hfinish⟩

end Reached

/-! ## Failures -/

/-- A callback of an event fails, after those before it have returned. -/
def Interrupts (react : Reactions υ) (engine : EngineKey) (event : String)
    (occurrence : Occurrence) (w : World υ) (callback : Callback) (fault : Fault) : Prop :=
  ∃ before after v, callbacksOf w engine event = before ++ callback :: after ∧
    Reaches (before.forM (call react occurrence)) w () v ∧
    Fails (call react occurrence callback) v fault

/-- A run from a world comes to fire an event, in the world that all before it has left. -/
inductive Fires (react : Reactions υ) (engine : EngineKey) (project : ProjectKey) (w : World υ) :
    String → Occurrence → World υ → Prop
  | begin : Fires react engine project w Event.begin ⟨w.runs.size, none⟩ (w.addRun project)
  | declaration {w₁ v : World υ} {done rest : List DeclKey} {key : DeclKey} :
    Reaches (fire react engine Event.begin ⟨w.runs.size, none⟩) (w.addRun project) () w₁ →
    w₁.graph.declarationsOf project = done ++ key :: rest →
    Reaches (done.forM (deliver react engine w.runs.size)) w₁ () v →
    Fires react engine project w Event.declaration ⟨w.runs.size, some (.declaration key)⟩ v
  | finish {w₁ w₂ : World υ} :
    Reaches (fire react engine Event.begin ⟨w.runs.size, none⟩) (w.addRun project) () w₁ →
    Reaches ((w₁.graph.declarationsOf project).forM (deliver react engine w.runs.size)) w₁ () w₂ →
    Fires react engine project w Event.finish ⟨w.runs.size, none⟩ w₂

theorem Fails.of_fire {react : Reactions υ} {event : String} {occurrence : Occurrence}
    {w : World υ} {fault : Fault} (h : Fails (fire react engine event occurrence) w fault) :
    ∃ callback, Interrupts react engine event occurrence w callback fault := by
  rcases Fails.of_bind h with ⟨_, hget⟩ | ⟨_, _, hget, hcalls⟩
  · cases hget
  · cases hget
    obtain ⟨before, callback, after, v, hcallbacks, hbefore, hfails⟩ := Fails.of_forM hcalls
    exact ⟨callback, before, after, v, hcallbacks, hbefore, hfails⟩

theorem Fails.of_runOver {react : Reactions υ} {w : World υ} {fault : Fault}
    (h : Fails (runOver react engine project) w fault) :
    ∃ event occurrence v, Fires react engine project w event occurrence v ∧
      Fails (fire react engine event occurrence) v fault := by
  rcases Fails.of_bind h with ⟨_, hget⟩ | ⟨_, _, hget, h⟩
  · cases hget
  cases hget
  rcases Fails.of_bind h with ⟨_, hadd⟩ | ⟨_, _, hadd, h⟩
  · cases hadd
  cases hadd
  rcases Fails.of_bind h with hbegin | ⟨_, w₁, hbegin, h⟩
  · exact ⟨_, _, _, .begin, hbegin⟩
  rcases Fails.of_bind h with ⟨_, hget⟩ | ⟨_, _, hget, h⟩
  · cases hget
  cases hget
  rcases Fails.of_bind h with hdeliver | ⟨_, w₂, hdeliver, h⟩
  · obtain ⟨done, key, rest, v, hkeys, hdone, hfails⟩ := Fails.of_forM hdeliver
    rcases Fails.of_bind hfails with hdeclaration | ⟨_, _, -, _, hcount⟩
    · exact ⟨_, _, v, .declaration hbegin hkeys hdone, hdeclaration⟩
    · cases hcount
  rcases Fails.of_bind h with hfinish | ⟨_, _, -, _, hpure⟩
  · exact ⟨_, _, w₂, .finish hbegin hdeliver, hfinish⟩
  · cases hpure

section Failed

variable {code : String → Occurrence → Chore σ} {w v : World (Told σ)} {fault : Fault}

theorem not_fails_user {occurrence : Occurrence} {label : String} :
    ¬ Fails (call (choring code) occurrence (.user label)) v fault := by
  rintro ⟨w', h⟩
  cases h

theorem not_fails_link {plugin : PluginKey} {key : DeclKey} :
    ¬ Fails (call (choring code) ⟨run, some (.declaration key)⟩ (.link plugin)) v fault := by
  rintro ⟨w', h⟩
  cases h

/-- A run fires its events at the engine that it started with. -/
theorem Fires.engines_eq {event : String} {occurrence : Occurrence}
    (h : Fires (choring code) engine project w event occurrence v) : v.engines = w.engines := by
  have hrun : w.runs.size < (w.addRun project).runs.size := by simp [World.addRun]
  cases h with
  | begin => rfl
  | declaration hbegin _ hdone =>
    have hwent : Went project w.runs.size 0 _ (w.addRun project) _ := went_fire rfl hbegin
    have hdelivered : Went project w.runs.size _ _ _ v :=
      went_forM_deliver (hwent.size ▸ hrun) hdone
    exact hdelivered.engines.trans hwent.engines
  | finish hbegin hdeliver =>
    have hwent : Went project w.runs.size 0 _ (w.addRun project) _ := went_fire rfl hbegin
    have hdelivered : Went project w.runs.size _ _ _ v :=
      went_forM_deliver (hwent.size ▸ hrun) hdeliver
    exact hdelivered.engines.trans hwent.engines

end Failed

/-! ## Runs -/

/--
A run over an indexed project tells its listeners of its first event, then of each declaration that
is registered once those have returned, each once and in ascending order of the ids, and then of its
last event, whatever is registered meanwhile. It counts these declarations. It fails only where a
callback of a plugin does that it calls, and never in linking a declaration that it delivers.
-/
theorem runOver_delivers (code : String → Occurrence → Chore σ) (engine : EngineKey)
    {w : World (Told σ)} (h : w.graph.Indexed project) :
    (∃ w₁ w', Reaches (fire (choring code) engine Event.begin ⟨w.runs.size, none⟩)
        (w.addRun project) () w₁ ∧
      Reaches (runOver (choring code) engine project) w w.runs.size w' ∧
      (∀ key, key ∈ w₁.graph.declarationsOf project ↔
        ∃ id, w₁.graph.byId? project id = some key) ∧
      (w₁.graph.declarationsOf project).Pairwise w₁.graph.IdBelow ∧
      w'.user.told = w.user.told ++ (toldOf w engine Event.begin ⟨w.runs.size, none⟩ ++
        (w₁.graph.declarationsOf project).flatMap (fun key =>
          toldOf w engine Event.declaration ⟨w.runs.size, some (.declaration key)⟩) ++
        toldOf w engine Event.finish ⟨w.runs.size, none⟩) ∧
      (w'.tally w.runs.size).declarationsResolved = (w₁.graph.declarationsOf project).length ∧
      Graph.Holds project w₁.graph w'.graph ∧ w'.graph.Indexed project) ∨
    ∃ fault event occurrence v callback,
      Fails (runOver (choring code) engine project) w fault ∧
      Fires (choring code) engine project w event occurrence v ∧
      Interrupts (choring code) engine event occurrence v callback fault ∧
      callback ∈ callbacksOf w engine event ∧ (∀ label, callback ≠ .user label) ∧
      (event = Event.declaration → ∀ plugin, callback ≠ .link plugin) := by
  rcases reaches_or_fails (runOver (choring code) engine project) w with
    ⟨run, w', hreach⟩ | ⟨fault, hfails⟩
  · obtain ⟨rfl, w₁, w₂, hbegin, hdeliver, hfinish⟩ := runOver_stages hreach
    have hrun : w.runs.size < (w.addRun project).runs.size := by simp [World.addRun]
    have hwent₁ : Went project w.runs.size 0 _ (w.addRun project) w₁ := went_fire rfl hbegin
    have hwent₂ : Went project w.runs.size _ _ w₁ w₂ :=
      went_forM_deliver (hwent₁.size ▸ hrun) hdeliver
    have hwent₃ : Went project w.runs.size 0 _ w₂ w' := went_fire rfl hfinish
    have hwent := (hwent₁.trans hwent₂).trans hwent₃
    have hindexed₁ := hwent₁.grows.indexed h
    have hgrows := hwent₂.grows.trans hwent₃.grows
    simp only [toldOf_congr hwent₁.engines,
      toldOf_congr (hwent₂.engines.trans hwent₁.engines)] at hwent
    have hsame : (w.addRun project).engines = w.engines := rfl
    simp only [toldOf_congr hsame] at hwent
    refine .inl ⟨w₁, w', hbegin, hreach, hindexed₁.mem_declarationsOf,
      hindexed₁.pairwise_idBelow, hwent.told, ?_, hgrows.holds, hgrows.indexed hindexed₁⟩
    have hfresh : ((w.addRun project).tally w.runs.size).declarationsResolved = 0 := by
      simp [World.tally, World.addRun]
    rw [hwent.resolved, hfresh]
    omega
  · obtain ⟨event, occurrence, v, hfires, hevent⟩ := Fails.of_runOver hfails
    obtain ⟨callback, hinterrupts⟩ := Fails.of_fire hevent
    obtain ⟨before, after, u, hcallbacks, -, hcall⟩ := id hinterrupts
    refine .inr ⟨fault, event, occurrence, v, callback, hfails, hfires, hinterrupts, ?_, ?_, ?_⟩
    · rw [callbacksOf, ← hfires.engines_eq, ← callbacksOf, hcallbacks]
      exact List.mem_append_right _ List.mem_cons_self
    · rintro label rfl
      exact not_fails_user hcall
    · rintro hdeclaration plugin rfl
      cases hfires with
      | begin => exact absurd hdeclaration (by decide)
      | declaration => exact not_fails_link hcall
      | finish => exact absurd hdeclaration (by decide)

/-- Listeners of which one registers a declaration of id 0, and one another at each delivery. -/
def growing : String → Occurrence → Chore Unit
  | "begin", _ =>
    .declare { id := 0, name := "late", kind := .classOrInterface } <|
      .look fun g _ => .register 0 (g.declarations.size - 1) none fun _ => .done
  | "each", _ => .create 0 "more" .classOrInterface none none fun _ => .done
  | _, _ => .done

def growingListeners : Listeners Callback :=
  [⟨Event.begin, .ofInt 0, .user "begin"⟩, ⟨Event.declaration, .ofInt 0, .user "each"⟩,
    ⟨Event.finish, .ofInt 0, .user "end"⟩]

/-- A project with one declaration, of id 1, and an engine with these listeners. -/
def grownWorld : World (Told Unit) where
  graph := ((Graph.empty.addProject "sample").create 0 "early" .classOrInterface none none).2
  engines := #[{ listeners := growingListeners }]
  user := ⟨(), []⟩

/-- What the first event has added is delivered, and what the deliveries add is not. -/
theorem runOver_delivers_growing :
    grownWorld.graph.Indexed 0 ∧ ∃ w', Reaches (runOver (choring growing) 0 0) grownWorld 0 w' ∧
      w'.user.told = [("begin", ⟨0, none⟩), ("each", ⟨0, some (.declaration 1)⟩),
        ("each", ⟨0, some (.declaration 0)⟩), ("end", ⟨0, none⟩)] ∧
      (w'.tally 0).declarationsResolved = 2 ∧ w'.graph.declarationsOf 0 = [1, 0, 2, 3] := by
  have hempty : (Graph.empty.addProject "sample").Indexed 0 :=
    ⟨_, rfl, ⟨.nil, Int.le_refl 1, nofun⟩⟩
  have hindexed : grownWorld.graph.Indexed 0 := (Graph.Grows.create ..).indexed hempty
  refine ⟨hindexed, ?_⟩
  rcases runOver_delivers growing 0 hindexed with
    ⟨w₁, w', hbegin, hreach, -, -, htold, hresolved, -, -⟩ |
    ⟨_, _, _, _, _, -, -, -, hmem, hother, -⟩
  · have hkeys : w₁.graph.declarationsOf 0 = [1, 0] := by
      obtain rfl := congrArg Prod.snd hbegin
      decide +kernel
    refine ⟨w', hreach, ?_, ?_, ?_⟩
    · rw [htold, hkeys]
      rfl
    · rw [hkeys] at hresolved
      exact hresolved
    · obtain rfl := congrArg Prod.snd hreach
      decide +kernel
  · obtain ⟨l, hl, rfl⟩ := List.mem_map.mp hmem
    have hall : ∀ m ∈ growingListeners, ∃ label, m.callback = .user label := by
      simp [growingListeners]
    obtain ⟨label, hlabel⟩ := hall l (List.mem_filter.mp hl).1
    exact absurd hlabel (hother label)

end Pipeline

end Lineage
