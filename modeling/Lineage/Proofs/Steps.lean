import Lineage.Proofs.Sweep
import Mathlib.Order.Defs.Unbundled

/-!
# Actions that move worlds

What holds between the worlds before and after each step of an action holds between those before and
after the whole, whether it succeeds or fails.
-/

namespace Lineage.Pipeline

variable {υ α β : Type}

theorem Reaches.of_bind {x : Action υ α} {f : α → Action υ β} {w w'' : World υ} {b : β}
    (h : Reaches (x >>= f) w b w'') : ∃ a w', Reaches x w a w' ∧ Reaches (f a) w' b w'' := by
  rw [Reaches, ExceptT.run_bind, StateT.run_bind] at h
  cases hr : x.run.run w with
  | mk outcome w' =>
    rw [hr] at h
    cases outcome with
    | error fault => cases h
    | ok a => exact ⟨a, w', hr, h⟩

theorem Reaches.of_pure {a b : α} {w w' : World υ} (h : Reaches (pure a) w b w') :
    b = a ∧ w' = w := by
  obtain ⟨hvalue, hworld⟩ := Prod.mk.inj h
  exact ⟨(Except.ok.inj hvalue).symm, hworld.symm⟩

/-- Whatever an action comes to, the world that it leaves is related to the one before. -/
def Moves (R : World υ → World υ → Prop) (x : Action υ α) : Prop :=
  ∀ w, R w (x.run.run w).2

variable {R : World υ → World υ → Prop}

theorem Moves.of_reaches {x : Action υ α} (hx : Moves R x) {w w' : World υ} {a : α}
    (h : Reaches x w a w') : R w w' := by
  have hmoved := hx w
  rw [h] at hmoved
  exact hmoved

theorem moves_modify {f : World υ → World υ} (hf : ∀ w, R w (f w)) :
    Moves R (modify f : Action υ PUnit) :=
  hf

theorem moves_get_bind {f : World υ → Action υ β} (hf : ∀ w, R w ((f w).run.run w).2) :
    Moves R (get >>= f) :=
  hf

variable [IsPreorder (World υ) R]

theorem moves_pure (a : α) : Moves R (pure a : Action υ α) :=
  fun w => refl_of R w

theorem moves_throw (fault : Fault) : Moves R (throw fault : Action υ α) :=
  fun w => refl_of R w

theorem moves_get : Moves R (get : Action υ (World υ)) :=
  fun w => refl_of R w

theorem Moves.bind {x : Action υ α} {f : α → Action υ β} (hx : Moves R x)
    (hf : ∀ a, Moves R (f a)) : Moves R (x >>= f) := by
  intro w
  have hfirst := hx w
  rw [ExceptT.run_bind, StateT.run_bind]
  cases hr : x.run.run w with
  | mk outcome w' =>
    rw [hr] at hfirst
    cases outcome with
    | error fault => exact hfirst
    | ok a => exact trans_of R hfirst (hf a w')

theorem moves_forM {f : β → Action υ PUnit} (hf : ∀ b, Moves R (f b)) (bs : List β) :
    Moves R (bs.forM f) := by
  induction bs with
  | nil => exact moves_pure _
  | cons b bs ih => exact (hf b).bind fun _ => ih

/-! ## Settings -/

theorem moves_setting (key : String) : Moves R (setting key : Action υ Json) := by
  refine moves_get.bind fun w => ?_
  split
  · exact moves_pure _
  · exact moves_throw _

/-- The priority that a setting denotes does not depend on the world. -/
theorem exists_run_priorityOf (value : Json) : ∃ outcome : Except Fault Priority,
    ∀ w : World υ, (priorityOf value).run.run w = (outcome, w) := by
  unfold priorityOf
  split
  · exact ⟨_, fun _ => rfl⟩
  · exact ⟨_, fun _ => rfl⟩
  · split
    · exact ⟨_, fun _ => rfl⟩
    · exact ⟨_, fun _ => rfl⟩
  · exact ⟨_, fun _ => rfl⟩

theorem moves_priorityOf (value : Json) : Moves R (priorityOf value : Action υ Priority) := by
  obtain ⟨outcome, hrun⟩ := exists_run_priorityOf (υ := υ) value
  intro w
  rw [hrun]
  exact refl_of R w

/-! ## Events -/

section Events

variable {react : Reactions υ} {occurrence : Occurrence}

theorem moves_call (hreact : ∀ label, Moves R (react label occurrence))
    (hlink : ∀ plugin key, Moves R (linkDeclaration plugin occurrence.run key))
    (hfinish : ∀ plugin, Moves R (finishRun plugin occurrence.run)) (callback : Callback) :
    Moves R (call react occurrence callback) := by
  cases callback with
  | user label => exact hreact label
  | link plugin =>
    unfold call
    simp only
    split
    · exact hlink plugin _
    · exact moves_throw _
    · exact moves_throw _
  | finish plugin =>
    unfold call
    simp only
    split
    · exact hfinish plugin
    · exact moves_throw _

theorem moves_fire (hcall : ∀ callback, Moves R (call react occurrence callback))
    (engine : EngineKey) (event : String) : Moves R (fire react engine event occurrence) :=
  moves_get_bind fun w => moves_forM hcall _ w

end Events

/-! ## Failures -/

def Fails (x : Action υ α) (w : World υ) (fault : Fault) : Prop :=
  ∃ w', x.run.run w = (.error fault, w')

theorem reaches_or_fails (x : Action υ α) (w : World υ) :
    (∃ a w', Reaches x w a w') ∨ ∃ fault, Fails x w fault := by
  cases hr : x.run.run w with
  | mk outcome w' =>
    cases outcome with
    | error fault => exact .inr ⟨fault, w', hr⟩
    | ok a => exact .inl ⟨a, w', hr⟩

theorem Fails.of_bind {x : Action υ α} {f : α → Action υ β} {w : World υ} {fault : Fault}
    (h : Fails (x >>= f) w fault) :
    Fails x w fault ∨ ∃ a w', Reaches x w a w' ∧ Fails (f a) w' fault := by
  obtain ⟨w'', h⟩ := h
  rw [ExceptT.run_bind, StateT.run_bind] at h
  cases hr : x.run.run w with
  | mk outcome w' =>
    rw [hr] at h
    cases outcome with
    | error fault' =>
      obtain rfl := Except.error.inj (Prod.mk.inj h).1
      exact .inl ⟨w', hr⟩
    | ok a => exact .inr ⟨a, w', hr, w'', h⟩

/-- Where actions in a row fail, one of them does, after those before it have succeeded. -/
theorem Fails.of_forM {f : β → Action υ PUnit} {bs : List β} {w : World υ} {fault : Fault}
    (h : Fails (bs.forM f) w fault) :
    ∃ before b after v, bs = before ++ b :: after ∧ Reaches (before.forM f) w ⟨⟩ v ∧
      Fails (f b) v fault := by
  induction bs generalizing w with
  | nil =>
    obtain ⟨w', h⟩ := h
    cases h
  | cons b bs ih =>
    rcases Fails.of_bind h with hfirst | ⟨_, w', hreach, hrest⟩
    · exact ⟨[], b, bs, w, rfl, reaches_pure _ w, hfirst⟩
    · obtain ⟨before, c, after, v, rfl, hbefore, hfails⟩ := ih hrest
      exact ⟨b :: before, c, after, v, rfl, hreach.bind hbefore, hfails⟩

/-! ## Plugins -/

/-- Worlds with the same engines and the same user. -/
structure Undisturbed (w w' : World υ) : Prop where
  engines : w'.engines = w.engines
  user : w'.user = w.user

theorem moves_linkDeclaration (plugin : PluginKey) (run : RunKey) (key : DeclKey) :
    Moves Undisturbed (linkDeclaration plugin run key : Action υ Unit) :=
  moves_modify fun w => by split <;> exact ⟨rfl, rfl⟩

theorem moves_finishRun (plugin : PluginKey) (run : RunKey) :
    Moves Undisturbed (finishRun plugin run : Action υ Unit) := by
  refine moves_get_bind fun w => ?_
  split
  · exact ⟨rfl, rfl⟩
  · simp only
    split <;> exact ⟨rfl, rfl⟩

end Lineage.Pipeline
