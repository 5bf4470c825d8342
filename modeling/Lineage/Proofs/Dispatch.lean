import Lineage.Proofs.Aborts
import Lineage.Proofs.ListenerOrder
import Lineage.Proofs.Steps

/-!
# Dispatch

What a user does with an engine: it registers and removes listeners, fires events and works on what
it keeps in between; its listeners do the same while an event is fired. If every call is noted down,
an event that is fired calls what the notes say at that moment, whatever happens until it is over.
-/

namespace Lineage

/-- The state of a user beside the calls of an engine that have been made. -/
structure Noted (σ : Type) where
  kept : σ
  made : List (Request Callback)

/-- What a user does: calls of an engine, and work of its own in between. -/
inductive Program (σ : Type)
  | done
  | on (l : Listener Callback) (next : Program σ)
  | off (event : String) (callback : Callback) (next : Program σ)
  | trigger (event : String) (occurrence : Occurrence) (next : Program σ)
  | work (f : Graph → σ → Graph × σ) (next : Program σ)
  | look (next : Graph → σ → Program σ)

namespace Pipeline

variable {υ σ : Type}

/-! ## Programs -/

abbrev Dispatch (σ : Type) := Reactions (Noted σ) → String → Occurrence → Action (Noted σ) Unit

def note (r : Request Callback) : Action (Noted σ) Unit :=
  modify fun w => { w with user := { w.user with made := w.user.made ++ [r] } }

def perform (engine : EngineKey) (trigger : String → Occurrence → Action (Noted σ) Unit) :
    Program σ → Action (Noted σ) Unit
  | .done => return
  | .on l next => do
    subscribe engine l.event l.callback l.priority
    note (.on l)
    perform engine trigger next
  | .off event callback next => do
    unsubscribe engine event callback
    note (.off event callback)
    perform engine trigger next
  | .trigger event occurrence next => do
    trigger event occurrence
    perform engine trigger next
  | .work f next => do
    modify fun w =>
      let (graph, kept) := f w.graph w.user.kept
      { w with graph := graph, user := { w.user with kept := kept } }
    perform engine trigger next
  | .look next => do
    let w ← get
    perform engine trigger (next w.graph w.user.kept)

/-- Listeners that perform programs, which may fire events again up to a depth. -/
def reactions (engine : EngineKey) (dispatch : Dispatch σ)
    (code : String → Occurrence → Program σ) : Nat → Reactions (Noted σ)
  | 0, _, _ => throw (.rejected "maximum recursion depth exceeded")
  | depth + 1, label, occurrence =>
    perform engine (dispatch (reactions engine dispatch code depth)) (code label occurrence)

def execute (engine : EngineKey) (dispatch : Dispatch σ) (code : String → Occurrence → Program σ)
    (depth : Nat) (program : Program σ) : Action (Noted σ) Unit :=
  perform engine (dispatch (reactions engine dispatch code depth)) program

def fromEngine (engine : EngineKey) : Dispatch σ := fun react event occurrence =>
  fire react engine event occurrence

/-- Calls what is to be called after the calls that have been noted down. -/
def fromNotes : Dispatch σ := fun react event occurrence => do
  let w ← get
  (Listeners.served w.user.made event).forM (call react occurrence)

/-! ## Faithful engines -/

/-- The listeners of an engine are those that the noted calls leave. -/
def Faithful (engine : EngineKey) (w : World (Noted σ)) : Prop :=
  ∃ e, w.engines[engine]? = some e ∧ e.listeners = Listeners.replay w.user.made

/-- Two worlds are one, and an engine of it is faithful. -/
def OneFaithful (engine : EngineKey) (_stage : Bool) (w v : World (Noted σ)) : Prop :=
  w = v ∧ Faithful engine w

/-- Two actions do the same with a faithful engine, and it stays faithful. -/
abbrev Agree (engine : EngineKey) (x y : Action (Noted σ) PUnit) : Prop :=
  Alike (OneFaithful engine) true true x y

variable {engine : EngineKey}

theorem Faithful.congr {w w' : World (Noted σ)} (h : Faithful engine w)
    (hengines : w'.engines = w.engines) (hmade : w'.user.made = w.user.made) :
    Faithful engine w' := by
  obtain ⟨e, he, hlisteners⟩ := h
  exact ⟨e, by rw [hengines, he], by rw [hmade, hlisteners]⟩

theorem Faithful.callbacksOf_eq {w : World (Noted σ)} (h : Faithful engine w) (event : String) :
    callbacksOf w engine event = Listeners.served w.user.made event := by
  obtain ⟨e, he, hlisteners⟩ := h
  rw [callbacksOf, he, Option.map_some, Option.getD_some, hlisteners]
  rfl

theorem Faithful.request {w : World (Noted σ)} (h : Faithful engine w) (r : Request Callback) :
    Faithful engine { w.modifyEngine engine fun c =>
      { c with listeners := c.listeners.request r } with
        user := { w.user with made := w.user.made ++ [r] } } := by
  obtain ⟨e, he, hlisteners⟩ := h
  refine ⟨{ e with listeners := e.listeners.request r }, ?_, ?_⟩
  · simp [World.modifyEngine, Array.getElem?_modify, he]
  · rw [Listeners.replay_concat, hlisteners]

/-! ## Steps of a user -/

theorem agree_pure : Agree engine (pure ⟨⟩ : Action (Noted σ) PUnit) (pure ⟨⟩) :=
  .of_reaches fun w v h => ⟨w, v, reaches_pure _ w, reaches_pure _ v, h⟩

theorem agree_throw (fault : Fault) :
    Agree engine (throw fault : Action (Noted σ) PUnit) (throw fault) :=
  fun _ _ h => .failed fault true h

theorem agree_perform {trigger trigger' : String → Occurrence → Action (Noted σ) Unit}
    (h : ∀ event occurrence, Agree engine (trigger event occurrence) (trigger' event occurrence))
    (program : Program σ) :
    Agree engine (perform engine trigger program) (perform engine trigger' program) := by
  induction program with
  | done => exact agree_pure
  | on l next ih =>
    rintro w v ⟨rfl, hw⟩
    exact ih _ _ ⟨rfl, hw.request (.on l)⟩
  | off event callback next ih =>
    rintro w v ⟨rfl, hw⟩
    exact ih _ _ ⟨rfl, hw.request (.off event callback)⟩
  | trigger event occurrence next ih => exact (h event occurrence).bind ih
  | work f next ih =>
    rintro w v ⟨rfl, hw⟩
    exact ih _ _ ⟨rfl, hw.congr rfl rfl⟩
  | look next ih =>
    rintro w v ⟨rfl, hw⟩
    exact ih _ _ _ _ ⟨rfl, hw⟩

/-! ## Dispatch -/

theorem agree_of_undisturbed {x : Action (Noted σ) Unit} (h : Moves Undisturbed x) :
    Agree engine x x := by
  rintro w v ⟨rfl, hw⟩
  have hmoved := h w
  have hfaithful := hw.congr hmoved.engines (congrArg Noted.made hmoved.user)
  generalize x.run.run w = outcome at hfaithful
  obtain ⟨fault | ⟨⟩, w'⟩ := outcome
  · exact .failed fault true ⟨rfl, hfaithful⟩
  · exact .done ⟨rfl, hfaithful⟩

section React

variable {react react' : Reactions (Noted σ)}
  (h : ∀ label occurrence, Agree engine (react label occurrence) (react' label occurrence))
include h

theorem agree_call (occurrence : Occurrence) (callback : Callback) :
    Agree engine (call react occurrence callback) (call react' occurrence callback) := by
  cases callback with
  | user label => exact h label occurrence
  | link plugin =>
    unfold call
    simp only
    split
    · exact agree_of_undisturbed (moves_linkDeclaration plugin _ _)
    · exact agree_throw _
    · exact agree_throw _
  | finish plugin =>
    unfold call
    simp only
    split
    · exact agree_of_undisturbed (moves_finishRun plugin _)
    · exact agree_throw _

/-- An event of a faithful engine calls what the notes say. -/
theorem agree_dispatch (event : String) (occurrence : Occurrence) :
    Agree engine (fromEngine engine react event occurrence)
      (fromNotes react' event occurrence) := by
  refine Alike.get_bind fun w v hw => ?_
  obtain ⟨rfl, hw⟩ := hw
  have hcallbacks := hw.callbacksOf_eq event
  rw [callbacksOf] at hcallbacks
  rw [hcallbacks]
  exact Alike.forM (fun c _ => agree_call h occurrence c) _ _ ⟨rfl, hw⟩

end React

theorem agree_reactions (code : String → Occurrence → Program σ) (depth : Nat) (label : String)
    (occurrence : Occurrence) :
    Agree engine (reactions engine (fromEngine engine) code depth label occurrence)
      (reactions engine fromNotes code depth label occurrence) := by
  induction depth generalizing label occurrence with
  | zero => exact agree_throw _
  | succ depth ih => exact agree_perform (agree_dispatch ih) _

theorem agree_execute (code : String → Occurrence → Program σ) (depth : Nat)
    (program : Program σ) :
    Agree engine (execute engine (fromEngine engine) code depth program)
      (execute engine fromNotes code depth program) :=
  agree_perform (agree_dispatch (agree_reactions code depth)) program

theorem Agree.run_eq {x y : Action (Noted σ) PUnit} (h : Agree engine x y)
    {w : World (Noted σ)} (hw : Faithful engine w) : x.run.run w = y.run.run w := by
  have hends := h w w ⟨rfl, hw⟩
  generalize x.run.run w = p at hends ⊢
  generalize y.run.run w = q at hends ⊢
  cases hends with
  | failed fault stage h => rw [h.1]
  | done h => rw [h.1]

/-! ## New engines -/

/-- The listeners of an engine are those that some calls leave. -/
def Replays (engine : EngineKey) (w : World υ) : Prop :=
  ∃ built e, w.engines[engine]? = some e ∧ e.listeners = Listeners.replay built

/-- If listeners were what some calls leave, they still are. -/
def StillReplays (engine : EngineKey) (w w' : World υ) : Prop :=
  Replays engine w → Replays engine w'

instance : IsPreorder (World υ) (StillReplays engine) where
  refl _ := id
  trans _ _ _ h h' := h' ∘ h

theorem moves_subscribe (event : String) (callback : Callback) (priority : Priority) :
    Moves (StillReplays engine) (subscribe engine event callback priority : Action υ Unit) := by
  refine moves_modify fun w => ?_
  rintro ⟨built, e, he, hlisteners⟩
  refine ⟨built ++ [.on ⟨event, priority, callback⟩],
    { e with listeners := e.listeners.subscribe event callback priority }, ?_, ?_⟩
  · simp [World.modifyEngine, Array.getElem?_modify, he]
  · rw [Listeners.replay_concat, hlisteners]
    rfl

theorem moves_attach (name : String) (kind : PluginClass) :
    Moves (StillReplays engine) (attach engine name kind : Action υ Unit) := by
  unfold attach
  refine moves_get.bind fun w => (moves_modify fun w => id).bind fun _ => ?_
  have hknown : Moves (StillReplays engine) (modify fun v : World υ =>
      v.modifyEngine engine fun c =>
        { c with plugins := c.plugins ++ [(name, w.plugins.size)] }) := by
    refine moves_modify fun v => ?_
    rintro ⟨built, e, he, hlisteners⟩
    refine ⟨built, { e with plugins := e.plugins ++ [(name, w.plugins.size)] }, ?_, hlisteners⟩
    simp [World.modifyEngine, Array.getElem?_modify, he]
  simp only
  split
  · refine (moves_setting _).bind fun v => (moves_priorityOf v).bind fun priority => ?_
    exact (moves_subscribe _ _ _).bind fun _ => (moves_subscribe _ _ _).bind fun _ => hknown
  · exact hknown

/-- A new engine listens as if it had been called to. -/
theorem replays_newEngine {disabled : List String} {w w' : World υ}
    (h : Reaches (newEngine disabled) w engine w') : Replays engine w' := by
  obtain ⟨_, _, hget, h⟩ := Reaches.of_bind h
  cases hget
  obtain ⟨_, w₁, hset, h⟩ := Reaches.of_bind h
  cases hset
  obtain ⟨_, w₂, hattach, hpure⟩ := Reaches.of_bind h
  obtain ⟨hengine, rfl⟩ := Reaches.of_pure hpure
  subst hengine
  have hall : ∀ e : String × PluginClass, Moves (StillReplays w.engines.size)
      (attach w.engines.size e.1 e.2 : Action υ Unit) := fun e => moves_attach e.1 e.2
  exact (moves_forM hall _).of_reaches hattach ⟨[], {}, Array.getElem?_push_size, rfl⟩

/-- The world of a user that knows which calls its engine has had. -/
def noting (w : World (Noted σ)) (made : List (Request Callback)) : World (Noted σ) :=
  { w with user := { w.user with made := made } }

/--
Whatever a user and its listeners do with a new engine, each event calls what the calls until then
leave: their standing registrations for it, each once, by descending priority and in their own
order among equal priorities. A removal takes away all registrations of a callback for an event,
and nothing else.
-/
theorem execute_dispatches {disabled : List String} {w w' : World (Noted σ)}
    (h : Reaches (newEngine disabled) w engine w') :
    (∃ built, ∀ code depth program,
      (execute engine (fromEngine engine) code depth program).run.run (noting w' built) =
        (execute engine fromNotes code depth program).run.run (noting w' built)) ∧
    (∀ (made : List (Request Callback)) event, ∃ entries : List (Nat × Listener Callback),
      Listeners.served made event = entries.map (·.2.callback) ∧
      (∀ time l, (time, l) ∈ entries ↔ Listeners.Stands made time l ∧ l.event = event) ∧
      entries.Nodup ∧ entries.Pairwise Listeners.Precedes) ∧
    ∀ (made : List (Request Callback)) event other callback,
      Listeners.served (made ++ [.off event callback]) other =
        if other = event then (Listeners.served made other).filter (· ≠ callback)
        else Listeners.served made other := by
  obtain ⟨built, e, he, hlisteners⟩ := replays_newEngine h
  refine ⟨⟨built, fun code depth program => ?_⟩, Listeners.exists_served,
    Listeners.served_concat_off⟩
  exact (agree_execute code depth program).run_eq ⟨e, he, hlisteners⟩

/-- A listener that hands over to another one while it is called; both tell that they were. -/
def handingOver : String → Occurrence → Program (List String)
  | "first", _ =>
    .work (fun g told => (g, told ++ ["first"])) <|
      .off "tick" (.user "first") <| .on ⟨"tick", .ofInt 0, .user "second"⟩ .done
  | label, _ => .work (fun g told => (g, told ++ [label])) .done

/-- Two listeners, the first of them registered twice and handing over, and two events. -/
def twoTicks : Program (List String) :=
  .on ⟨"tick", .ofInt 0, .user "first"⟩ <| .on ⟨"tick", .ofInt (-1), .user "last"⟩ <|
  .on ⟨"tick", .ofInt 0, .user "first"⟩ <| .trigger "tick" ⟨0, none⟩ <|
  .trigger "tick" ⟨0, none⟩ .done

/-- The first event calls the first listener twice, the second one what it has handed over to. -/
theorem execute_dispatches_twoTicks :
    let start : World (Noted (List String)) := { graph := .empty, user := ⟨[], []⟩ }
    let w := ((newEngine []).run.run start).2
    Reaches (newEngine []) start 0 w ∧
    (∃ built, (execute 0 (fromEngine 0) handingOver 1 twoTicks).run.run (noting w built) =
      (execute 0 fromNotes handingOver 1 twoTicks).run.run (noting w built)) ∧
    ((execute 0 (fromEngine 0) handingOver 1 twoTicks).run.run (noting w [])).2.user.kept =
      ["first", "first", "last", "second", "second", "last"] := by
  intro start w
  have hnew : Reaches (newEngine []) start 0 w := rfl
  obtain ⟨⟨built, hrun⟩, -, -⟩ := execute_dispatches hnew
  exact ⟨hnew, ⟨built, hrun handingOver 1 twoTicks⟩, by decide +kernel⟩

end Pipeline

end Lineage
