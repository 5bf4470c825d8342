import Lineage.Pipeline.Priority

/-!
# Listeners

The registrations of an event source, kept in the order in which they are served: by descending
priority, and in the order of registration among equal priorities.
-/

namespace Lineage

/-- A callback that was registered for an event. -/
structure Listener (κ : Type) where
  event : String
  priority : Priority
  callback : κ

/-- All registrations of an event source, in the order in which they are served. -/
abbrev Listeners (κ : Type) := List (Listener κ)

namespace Listeners

variable {κ : Type}

/-- Registers a listener behind all those of the same or a higher priority. -/
def add (l : Listener κ) : Listeners κ → Listeners κ
  | [] => [l]
  | m :: ms => if m.priority.below l.priority then l :: m :: ms else m :: add l ms

def subscribe (ls : Listeners κ) (event : String) (callback : κ) (priority : Priority) :
    Listeners κ :=
  add ⟨event, priority, callback⟩ ls

def unsubscribe [DecidableEq κ] (ls : Listeners κ) (event : String) (callback : κ) : Listeners κ :=
  ls.filter fun l => !(l.event == event && l.callback == callback)

def callbacks (ls : Listeners κ) (event : String) : List κ :=
  (ls.filter (·.event == event)).map (·.callback)

end Listeners

end Lineage
