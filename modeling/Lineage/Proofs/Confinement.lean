import Lineage.Proofs.Steps

/-!
# What events leave alone

An event that is fired on behalf of a run may change the graph, worklists and the tally of that run.
Engines, plugin classes, settings and all other runs stay as they are, whether the event succeeds or
not.
-/

namespace Lineage

variable {υ α : Type}

/-- Worlds that differ at most in the graph, in worklists and in one run. -/
structure World.Keeps (run : RunKey) (w w' : World υ) : Prop where
  engines : w'.engines = w.engines
  registry : w'.registry = w.registry
  settings : w'.settings = w.settings
  size : w'.runs.size = w.runs.size
  others : ∀ other ≠ run, w'.runs[other]? = w.runs[other]?

namespace World.Keeps

variable {run : RunKey} {w w' w'' : World υ}

theorem refl (w : World υ) : w.Keeps run w :=
  ⟨rfl, rfl, rfl, rfl, fun _ _ => rfl⟩

theorem trans (h : w.Keeps run w') (h' : w'.Keeps run w'') : w.Keeps run w'' where
  engines := h'.engines.trans h.engines
  registry := h'.registry.trans h.registry
  settings := h'.settings.trans h.settings
  size := h'.size.trans h.size
  others other hne := (h'.others other hne).trans (h.others other hne)

theorem setGraph (h : w.Keeps run w') (g : Graph) : w.Keeps run { w' with graph := g } :=
  ⟨h.engines, h.registry, h.settings, h.size, h.others⟩

theorem setPending (h : w.Keeps run w') (plugin : PluginKey) (pending : Worklist) :
    w.Keeps run (w'.setPending plugin pending) :=
  ⟨h.engines, h.registry, h.settings, h.size, h.others⟩

theorem modifyTally (h : w.Keeps run w') (f : Tally → Tally) :
    w.Keeps run (w'.modifyTally run f) where
  engines := h.engines
  registry := h.registry
  settings := h.settings
  size := by
    rw [World.modifyTally, Array.size_modify]
    exact h.size
  others other hne := by
    rw [World.modifyTally, Array.getElem?_modify, if_neg hne.symm]
    exact h.others other hne

end World.Keeps

namespace Pipeline

/-! ## Events -/

def Confined (run : RunKey) (x : Action υ α) : Prop :=
  ∀ w : World υ, w.Keeps run (x.run.run w).2

variable {run : RunKey}

instance : IsPreorder (World υ) (World.Keeps run) where
  refl := World.Keeps.refl
  trans _ _ _ := World.Keeps.trans

theorem Confined.keeps {x : Action υ α} (hx : Confined run x) {w w' : World υ} {a : α}
    (h : Reaches x w a w') : w.Keeps run w' :=
  Moves.of_reaches hx h

theorem confined_linkDeclaration (plugin : PluginKey) (key : DeclKey) :
    Confined run (linkDeclaration plugin run key : Action υ Unit) := by
  refine moves_modify fun w => ?_
  split
  · exact (((World.Keeps.refl w).setGraph _).modifyTally _).setGraph _
      |>.setPending plugin _ |>.modifyTally _
  · exact World.Keeps.refl w

theorem confined_finishRun (plugin : PluginKey) :
    Confined run (finishRun plugin run : Action υ Unit) := by
  refine moves_get_bind fun w => ?_
  split
  · exact World.Keeps.refl w
  · simp only
    split
    · exact ((World.Keeps.refl w).setGraph _).modifyTally _ |>.setPending plugin []
    · exact (World.Keeps.refl w).setGraph _

theorem confined_fire (engine : EngineKey) (event : String) {occurrence : Occurrence}
    (h : occurrence.run = run) :
    Confined run (fire silent engine event occurrence : Action υ Unit) := by
  subst h
  refine moves_fire (fun callback => ?_) engine event
  exact moves_call (fun _ => moves_pure ()) confined_linkDeclaration confined_finishRun callback

theorem confined_deliver (engine : EngineKey) (key : DeclKey) :
    Confined run (deliver silent engine run key : Action υ Unit) :=
  Moves.bind (confined_fire engine _ rfl) fun _ =>
    moves_modify fun w => (World.Keeps.refl w).modifyTally _

theorem confined_signal (engine : EngineKey) (s : Signal) :
    Confined run (signal silent engine run s : Action υ Unit) := by
  cases s with
  | declaration key => exact confined_fire engine _ rfl
  | finish => exact confined_fire engine _ rfl

end Pipeline

end Lineage
