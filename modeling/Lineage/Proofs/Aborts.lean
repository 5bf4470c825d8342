import Lineage.Proofs.Carried
import Lineage.Proofs.Watching

/-!
# Runs that break off

A listener may fail at any event, which ends the run there. Two engines with the same listeners, of
which one has kept a worklist, do alike at every event: both go on, or both fail and leave the
project of the run in one state.
-/

namespace Lineage.Pipeline

variable {υ β : Type}

/-! ## Actions that do alike -/

section Alike

variable {rel : Bool → World υ → World υ → Prop} {before between after : Bool}

/--
How two actions end in worlds that are related at some stage: with the same fault at any stage, or
both well at the stage that is due.
-/
inductive Ends (rel : Bool → World υ → World υ → Prop) (due : Bool) :
    Except Fault PUnit × World υ → Except Fault PUnit × World υ → Prop
  | failed {w v : World υ} (fault : Fault) (stage : Bool) (h : rel stage w v) :
      Ends rel due (.error fault, w) (.error fault, v)
  | done {w v : World υ} (h : rel due w v) : Ends rel due (.ok ⟨⟩, w) (.ok ⟨⟩, v)

/-- Two actions end alike in any worlds that are related at one stage. -/
def Alike (rel : Bool → World υ → World υ → Prop) (before after : Bool)
    (x y : Action υ PUnit) : Prop :=
  ∀ w v, rel before w v → Ends rel after (x.run.run w) (y.run.run v)

theorem Alike.of_reaches {x y : Action υ PUnit}
    (h : ∀ w v, rel before w v → ∃ w' v', Reaches x w ⟨⟩ w' ∧ Reaches y v ⟨⟩ v' ∧ rel after w' v') :
    Alike rel before after x y := by
  intro w v hrel
  obtain ⟨w', v', hx, hy, hrel'⟩ := h w v hrel
  rw [hx, hy]
  exact .done hrel'

theorem Alike.bind {x y : Action υ PUnit} {f f' : PUnit → Action υ PUnit}
    (hx : Alike rel before between x y) (hf : Alike rel between after (f ⟨⟩) (f' ⟨⟩)) :
    Alike rel before after (x >>= f) (y >>= f') := by
  intro w v hrel
  have hfirst := hx w v hrel
  rw [ExceptT.run_bind, StateT.run_bind, ExceptT.run_bind, StateT.run_bind]
  generalize x.run.run w = p at hfirst ⊢
  generalize y.run.run v = q at hfirst ⊢
  cases hfirst with
  | failed fault stage h => exact .failed fault stage h
  | done h => exact hf _ _ h

theorem Alike.get_bind {f f' : World υ → Action υ PUnit}
    (h : ∀ w v, rel before w v → Ends rel after ((f w).run.run w) ((f' v).run.run v)) :
    Alike rel before after (get >>= f) (get >>= f') :=
  h

theorem Alike.forM {bs : List β} {f f' : β → Action υ PUnit}
    (h : ∀ b ∈ bs, Alike rel before before (f b) (f' b)) :
    Alike rel before before (bs.forM f) (bs.forM f') := by
  induction bs with
  | nil => exact .of_reaches fun w v hrel => ⟨w, v, reaches_pure _ w, reaches_pure _ v, hrel⟩
  | cons b bs ih =>
    rw [List.forall_mem_cons] at h
    exact h.1.bind (ih h.2)

theorem Alike.forM_append {bs cs : List β} {f f' : β → Action υ PUnit}
    (hb : Alike rel before between (bs.forM f) (bs.forM f'))
    (hc : Alike rel between after (cs.forM f) (cs.forM f')) :
    Alike rel before after ((bs ++ cs).forM f) ((bs ++ cs).forM f') := by
  rw [forM_append_eq_bind, forM_append_eq_bind]
  exact hb.bind hc

end Alike

/-! ## Two worlds -/

/--
A run of an engine whose resolver has kept a worklist, beside a run of a new engine with the same
listeners. It is a stage of the runs whether the worklists have been flushed.
-/
structure Beside (g : Graph) (project : ProjectKey) (carried : Worklist) (before : Graph)
    (e : Engine) (run fresh : RunKey) (flushed : Bool) (w v : World υ) : Prop where
  engines : w.engines = #[e] ∧ v.engines = #[e]
  user : w.user = v.user
  sweeps : ∃ s t, Handles 0 run project w s ∧ Handles 0 fresh project v t ∧
    Carries g project carried before flushed s t ∧ (flushed = true → t.pending = [])

section Events

variable {g before : Graph} {project : ProjectKey} {carried : Worklist} {e : Engine}
variable {run fresh : RunKey} {stage after : Bool} {watch : Watch υ}

theorem run_watching (watch : Watch υ) (label : String) (occurrence : Occurrence) {w : World υ}
    {r : Run} (h : w.runs[occurrence.run]? = some r) :
    (watching watch label occurrence).run.run w =
      ((watch label (sight w occurrence r.project) w.user).1,
        { w with user := (watch label (sight w occurrence r.project) w.user).2 }) := by
  have hproject : Reaches (projectOf occurrence.run) w r.project w := by
    refine (reaches_get w).bind ?_
    rw [h]
    exact reaches_pure r.project w
  have hof : ∀ (outcome : Except Fault Unit) (w : World υ),
      (MonadExcept.ofExcept outcome : Action υ Unit).run.run w = (outcome, w) := by
    rintro (_ | _) w <;> rfl
  rw [watching, ExceptT.run_bind, StateT.run_bind, hproject]
  exact hof _ _

/-- A listener sees the same in both worlds, and so does the same. -/
theorem alike_watching (h : g.Loaded project) (label : String) (subject : Option Subject) :
    Alike (Beside g project carried before e run fresh) stage stage
      (watching watch label ⟨run, subject⟩) (watching watch label ⟨fresh, subject⟩) := by
  rintro w v ⟨hengines, huser, s, t, hs, ht, hc, hcleared⟩
  have hsight : sight w ⟨run, subject⟩ project = sight v ⟨fresh, subject⟩ project := by
    simp only [sight, World.tally, hs.graph, ht.graph, hs.run, ht.run, hc.view_eq h,
      Option.map_some, Option.getD_some, hc.tally]
    rfl
  rw [run_watching watch label ⟨run, subject⟩ hs.run,
    run_watching watch label ⟨fresh, subject⟩ ht.run, hsight, huser]
  generalize watch label (sight v ⟨fresh, subject⟩ project) v.user = r
  have hrel : Beside g project carried before e run fresh stage
      { w with user := r.2 } { v with user := r.2 } :=
    ⟨hengines, rfl, s, t, ⟨hs.graph, hs.plugin, hs.run⟩, ⟨ht.graph, ht.plugin, ht.run⟩, hc,
      hcleared⟩
  cases houtcome : r.1 with
  | error fault => exact .failed fault stage hrel
  | ok _ => exact .done hrel

section Resolver

variable (h : g.Loaded project) (hf : carried.Foreign g project before)
include h hf

theorem alike_linkDeclaration {key : DeclKey} (hkey : key ∈ g.declarationsOf project) :
    Alike (Beside (υ := υ) g project carried before e run fresh) false false
      (linkDeclaration 0 run key) (linkDeclaration 0 fresh key) := by
  refine .of_reaches ?_
  rintro w v ⟨hengines, huser, s, t, hs, ht, hc, -⟩
  obtain ⟨w', hw, hs', hwengines, hwuser⟩ := reaches_linkDeclaration hs key
  obtain ⟨v', hv, ht', hvengines, hvuser⟩ := reaches_linkDeclaration ht key
  refine ⟨w', v', hw, hv, ⟨hwengines.trans hengines.1, hvengines.trans hengines.2⟩, ?_,
    _, _, hs', ht', hc.deliver h hf hkey, nofun⟩
  rw [hwuser, hvuser, huser]

omit h in
theorem alike_finishRun : Alike (Beside (υ := υ) g project carried before e run fresh) stage true
    (finishRun 0 run) (finishRun 0 fresh) := by
  refine .of_reaches ?_
  rintro w v ⟨hengines, huser, s, t, hs, ht, hc, -⟩
  obtain ⟨hsfinishes, htfinishes, hc'⟩ := hc.finish hf
  obtain ⟨w', hw, hs', hwengines, hwuser⟩ := reaches_finishRun hs hsfinishes
  obtain ⟨v', hv, ht', hvengines, hvuser⟩ := reaches_finishRun ht htfinishes
  refine ⟨w', v', hw, hv, ⟨hwengines.trans hengines.1, hvengines.trans hengines.2⟩, ?_,
    _, _, hs', ht', hc', fun _ => rfl⟩
  rw [hwuser, hvuser, huser]

end Resolver

/-! ## Events -/

theorem alike_fire {react : Reactions υ} {event : String} {subject : Option Subject}
    (hcalls : Alike (Beside g project carried before e run fresh) stage after
      ((e.listeners.callbacks event).forM (call react ⟨run, subject⟩))
      ((e.listeners.callbacks event).forM (call react ⟨fresh, subject⟩))) :
    Alike (Beside g project carried before e run fresh) stage after
      (fire react 0 event ⟨run, subject⟩) (fire react 0 event ⟨fresh, subject⟩) := by
  refine .get_bind fun w v hrel => ?_
  simp only [hrel.engines.1, hrel.engines.2]
  exact hcalls w v hrel

variable (h : g.Loaded project) (hf : carried.Foreign g project before) (he : Hears e)
include h he

theorem alike_fire_begin : Alike (Beside g project carried before e run fresh) false false
    (fire (watching watch) 0 Event.begin ⟨run, none⟩)
    (fire (watching watch) 0 Event.begin ⟨fresh, none⟩) := by
  refine alike_fire (.forM fun c hc => ?_)
  obtain ⟨label, rfl⟩ := he.onBegin c hc
  exact alike_watching h label none

include hf

theorem alike_deliver {key : DeclKey} (hkey : key ∈ g.declarationsOf project) :
    Alike (Beside g project carried before e run fresh) false false
      (deliver (watching watch) 0 run key) (deliver (watching watch) 0 fresh key) := by
  have hfire : Alike (Beside g project carried before e run fresh) false false
      (fire (watching watch) 0 Event.declaration ⟨run, some (.declaration key)⟩)
      (fire (watching watch) 0 Event.declaration ⟨fresh, some (.declaration key)⟩) := by
    refine alike_fire (.forM fun c hc => ?_)
    rcases he.onDeclaration c hc with rfl | ⟨label, rfl⟩
    · exact alike_linkDeclaration h hf hkey
    · exact alike_watching h label _
  refine hfire.bind (.of_reaches ?_)
  rintro w v ⟨hengines, huser, s, t, hs, ht, hc, -⟩
  exact ⟨_, _, reaches_modify _ w, reaches_modify _ v, hengines, huser, _, _,
    hs.countDeclaration, ht.countDeclaration, hc.countDeclaration, nofun⟩

/-- Listeners may come before the resolver and behind it, and it flushes in between. -/
theorem alike_fire_finish : Alike (Beside g project carried before e run fresh) false true
    (fire (watching watch) 0 Event.finish ⟨run, none⟩)
    (fire (watching watch) 0 Event.finish ⟨fresh, none⟩) := by
  obtain ⟨ahead, behind, hcallbacks, hahead⟩ := List.eq_append_cons_of_mem he.ends
  refine alike_fire ?_
  have hfinish := he.onFinish
  rw [hcallbacks] at hfinish ⊢
  refine .forM_append (.forM fun c hc => ?_) ((alike_finishRun hf).bind (.forM fun c hc => ?_))
  · rcases hfinish c (List.mem_append_left _ hc) with rfl | ⟨label, rfl⟩
    · exact absurd hc hahead
    · exact alike_watching h label none
  · rcases hfinish c (List.mem_append_right _ (List.mem_cons_of_mem _ hc)) with rfl | ⟨label, rfl⟩
    · exact alike_finishRun hf
    · exact alike_watching h label none

end Events

/-! ## Runs -/

def events (react : Reactions υ) (engine : EngineKey) (run : RunKey) (project : ProjectKey) :
    Action υ PUnit := do
  fire react engine Event.begin ⟨run, none⟩
  ((← get).graph.declarationsOf project).forM (deliver react engine run)
  fire react engine Event.finish ⟨run, none⟩

theorem callOver_eq (react : Reactions υ) (engine : EngineKey) (project : ProjectKey)
    (w : World υ) : callOver react engine project w =
      let r := (events react engine w.runs.size project).run.run (w.addRun project)
      (r.1.map fun _ => r.2.tally w.runs.size, r.2) := by
  have hrun : (runOver react engine project).run.run w =
      ((events react engine w.runs.size project) >>= fun _ => pure w.runs.size).run.run
        (w.addRun project) := by
    simp only [events, bind_assoc]
    rfl
  rw [callOver, hrun, ExceptT.run_bind, StateT.run_bind]
  rcases (events react engine w.runs.size project).run.run (w.addRun project) with ⟨_ | _, w'⟩
  all_goals rfl

theorem alike_events {g before : Graph} {project : ProjectKey} {carried : Worklist} {e : Engine}
    {run fresh : RunKey} (watch : Watch υ) (h : g.Loaded project)
    (hf : carried.Foreign g project before) (he : Hears e) :
    Alike (Beside g project carried before e run fresh) false true
      (events (watching watch) 0 run project) (events (watching watch) 0 fresh project) := by
  refine (alike_fire_begin h he).bind (.get_bind fun w v hrel => ?_)
  obtain ⟨s, t, hs, ht, hc, -⟩ := hrel.sweeps
  -- Neither graph has lost or gained a declaration, so that both runs deliver the same ones.
  rw [hs.graph, ht.graph, hc.grown.alike.declarationsOf_eq, hc.fresh.alike.declarationsOf_eq]
  have hall : Alike (Beside g project carried before e run fresh) false false
      ((g.declarationsOf project).forM (deliver (watching watch) 0 run))
      ((g.declarationsOf project).forM (deliver (watching watch) 0 fresh)) :=
    .forM fun key hkey => alike_deliver h hf he hkey
  exact hall.bind (alike_fire_finish h hf he) w v hrel

end Lineage.Pipeline
