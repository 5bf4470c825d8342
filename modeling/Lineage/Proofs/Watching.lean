import Lineage.Proofs.Engines
import Lineage.Proofs.ListenerOrder
import Lineage.Proofs.Neighbours

/-!
# Watching listeners

Listeners of a user that watch a run: at an event they see what it is about, how the project of the
run stands and what has been counted, they keep a state of their own, and they may fail, which ends
the run. They do not change what they see.
-/

namespace Lineage

/-- What a listener sees at an event. -/
structure Sight where
  subject : Option Subject
  project : View
  tally : Tally

/-- What listeners do, by label: they go by what they see and by what they have kept. -/
abbrev Watch (υ : Type) := String → Sight → υ → Except Fault Unit × υ

namespace Pipeline

variable {υ : Type}

/-- What is seen at an event of a run; how many hierarchies there are is not. -/
def sight (w : World υ) (occurrence : Occurrence) (project : ProjectKey) : Sight where
  subject := occurrence.subject
  project := w.graph.view project
  tally := { w.tally occurrence.run with hierarchiesBuilt := 0 }

def watching (watch : Watch υ) : Reactions υ := fun label occurrence => do
  let project ← projectOf occurrence.run
  let w ← get
  let r := watch label (sight w occurrence project) w.user
  set { w with user := r.2 }
  MonadExcept.ofExcept r.1

/-! ## Calls -/

/-- Runs an engine over a project: the tally of the run or what made it fail, and the world. -/
def callOver (react : Reactions υ) (engine : EngineKey) (project : ProjectKey) (w : World υ) :
    Except Fault Tally × World υ :=
  let (outcome, w) := (runOver react engine project).run.run w
  (outcome.map w.tally, w)

/-- The world behind calls over some projects in order, of which any may have failed. -/
def afterCalls (react : Reactions υ) (engine : EngineKey) (w : World υ)
    (projects : List ProjectKey) : World υ :=
  projects.foldl (fun w project => (callOver react engine project w).2) w

/-! ## Engines with listeners -/

def newEngineWith (extras : List (Listener String)) : Action υ EngineKey := do
  let engine ← newEngine []
  extras.forM fun l => subscribe engine l.event (.user l.callback) l.priority
  return engine

/-- A world with an engine that was made for a graph. -/
def served (extras : List (Listener String)) (g : Graph) (user : υ) : World υ :=
  ((newEngineWith extras).run.run { graph := g, user := user }).2

/-- The first engine of all before a user has registered anything. -/
def resolving : Engine where
  listeners := [⟨Event.declaration, .ofInt 0, .link 0⟩, ⟨Event.finish, .ofInt 0, .finish 0⟩]
  plugins := [("type", 0)]

def hear (e : Engine) (l : Listener String) : Engine :=
  { e with listeners := e.listeners.subscribe l.event (.user l.callback) l.priority }

/-- A world with one engine, which has one resolver. -/
def housing (e : Engine) (g : Graph) (user : υ) : World υ where
  graph := g
  engines := #[e]
  plugins := #[{ kind := .resolver, engine := 0 }]
  user := user

/-- Which listeners an engine has does not hang on its graph. -/
theorem served_eq (extras : List (Listener String)) (g : Graph) (user : υ) :
    served extras g user = housing (extras.foldl hear resolving) g user := by
  have hextras : ∀ e : Engine, Reaches (extras.forM fun l =>
      subscribe 0 l.event (.user l.callback) l.priority) (housing e g user) ()
        (housing (extras.foldl hear e) g user) := by
    induction extras with
    | nil => exact fun e => reaches_pure () _
    | cons l extras ih => exact fun e => (reaches_modify _ _).bind (ih (hear e l))
  have hmade : Reaches (newEngine []) { graph := g, user := user } 0
    (housing resolving g user) := rfl
  have hreach : Reaches (newEngineWith extras) { graph := g, user := user } 0
      (housing (extras.foldl hear resolving) g user) :=
    hmade.bind ((hextras resolving).bind (reaches_pure _ _))
  rw [served, hreach]

end Pipeline

/-! ## Who hears an event -/

namespace Listeners

/-- An event calls what it called, and what has been registered for it. -/
theorem mem_callbacks_subscribe {κ : Type} {ls : Listeners κ} {event other : String}
    {callback c : κ} {priority : Priority} :
    c ∈ (ls.subscribe other callback priority).callbacks event ↔
      (other = event ∧ c = callback) ∨ c ∈ ls.callbacks event := by
  rw [callbacks, callbacks, subscribe, List.mem_map, List.mem_map]
  simp only [List.mem_filter, (add_perm _ ls).mem_iff, List.mem_cons, beq_iff_eq]
  constructor
  · rintro ⟨l, ⟨rfl | hl, he⟩, rfl⟩
    · exact Or.inl ⟨he, rfl⟩
    · exact Or.inr ⟨l, ⟨hl, he⟩, rfl⟩
  · rintro (⟨he, rfl⟩ | ⟨l, ⟨hl, he⟩, rfl⟩)
    · exact ⟨_, ⟨Or.inl rfl, he⟩, rfl⟩
    · exact ⟨l, ⟨Or.inr hl, he⟩, rfl⟩

end Listeners

namespace Pipeline

/-- An engine whose listeners are the first resolver of all and a user. -/
structure Hears (e : Engine) : Prop where
  onBegin : ∀ c ∈ e.listeners.callbacks Event.begin, ∃ label, c = .user label
  onDeclaration : ∀ c ∈ e.listeners.callbacks Event.declaration,
    c = .link 0 ∨ ∃ label, c = .user label
  onFinish : ∀ c ∈ e.listeners.callbacks Event.finish, c = .finish 0 ∨ ∃ label, c = .user label
  ends : .finish 0 ∈ e.listeners.callbacks Event.finish
  resolver : e.plugins.lookup "type" = some 0

theorem hears_resolving : Hears resolving where
  onBegin _ hc := absurd hc List.not_mem_nil
  onDeclaration _ hc := Or.inl (List.mem_singleton.mp hc)
  onFinish _ hc := Or.inl (List.mem_singleton.mp hc)
  ends := List.mem_singleton.mpr rfl
  resolver := rfl

/-- One more listener of the user makes no difference. -/
theorem Hears.hear {e : Engine} (h : Hears e) (l : Listener String) : Hears (hear e l) := by
  refine ⟨fun c hc => ?_, fun c hc => ?_, fun c hc => ?_, ?_, h.resolver⟩
  · rcases Listeners.mem_callbacks_subscribe.mp hc with ⟨-, rfl⟩ | hc
    · exact ⟨_, rfl⟩
    · exact h.onBegin c hc
  · rcases Listeners.mem_callbacks_subscribe.mp hc with ⟨-, rfl⟩ | hc
    · exact Or.inr ⟨_, rfl⟩
    · exact h.onDeclaration c hc
  · rcases Listeners.mem_callbacks_subscribe.mp hc with ⟨-, rfl⟩ | hc
    · exact Or.inr ⟨_, rfl⟩
    · exact h.onFinish c hc
  · exact Listeners.mem_callbacks_subscribe.mpr (Or.inr h.ends)

theorem hears_foldl_hear {e : Engine} (h : Hears e) (extras : List (Listener String)) :
    Hears (extras.foldl Pipeline.hear e) := by
  induction extras generalizing e with
  | nil => exact h
  | cons l extras ih => exact ih (h.hear l)

end Pipeline

end Lineage
