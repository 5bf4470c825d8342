import Lineage.Key

/-!
# Worklists

The declarations that await their hierarchy: a set in the order of insertion.
-/

namespace Lineage

/-- Declarations in the order in which they were first added. -/
abbrev Worklist := List DeclKey

namespace Worklist

def add (w : Worklist) (key : DeclKey) : Worklist :=
  if key ∈ w then w else w ++ [key]

def addAll (w : Worklist) (keys : List DeclKey) : Worklist :=
  keys.foldl add w

theorem mem_add {w : Worklist} {key other : DeclKey} :
    other ∈ w.add key ↔ other ∈ w ∨ other = key := by
  unfold add
  split
  · exact ⟨Or.inl, fun h => h.elim id fun e => e ▸ ‹_›⟩
  · simp

theorem nodup_add {w : Worklist} (h : w.Nodup) (key : DeclKey) : (w.add key).Nodup := by
  unfold add
  split
  · exact h
  · next hk =>
    rw [List.nodup_append]
    exact ⟨h, by simp, fun a ha b hb e => hk (by simp at hb; exact hb ▸ e ▸ ha)⟩

end Worklist

end Lineage
