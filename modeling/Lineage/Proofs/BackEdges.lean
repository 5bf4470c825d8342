import Lineage.BackEdge
import Lineage.Description.Load
import Lineage.Proofs.Frame

/-!
# Adding back edges

A class or interface leaves as many references to itself with a declaration as the tops of its types
are linked to it. Nothing else about any declaration changes.
-/

namespace Lineage

/-! ## Growing lists -/

/-- A list of types behind which references were appended; without any it stays as it was. -/
def TypeExpr.grow (held : Option (List TypeExpr)) : List Reference → Option (List TypeExpr)
  | [] => held
  | r :: rs => some (held.getD [] ++ (r :: rs).map .reference)

namespace TypeExpr

theorem getD_grow (held : Option (List TypeExpr)) (rs : List Reference) :
    (grow held rs).getD [] = held.getD [] ++ rs.map .reference := by
  cases rs with
  | nil => simp [grow]
  | cons r rs => rfl

theorem grow_grow (held : Option (List TypeExpr)) (rs qs : List Reference) :
    grow (grow held rs) qs = grow held (rs ++ qs) := by
  cases rs with
  | nil => rfl
  | cons r rs =>
    cases qs with
    | nil => simp [grow]
    | cons q qs => simp [grow]

theorem grow_none (rs : List Reference) : grow none rs = nonempty? (rs.map .reference) := by
  cases rs <;> rfl

theorem grow_some (ts : List TypeExpr) (rs : List Reference) :
    grow (some ts) rs = some (ts ++ rs.map .reference) := by
  cases rs with
  | nil => simp [grow]
  | cons r rs => rfl

end TypeExpr

namespace Declaration

def gain (d : Declaration) (implementers extenders : List Reference) : Declaration :=
  { d with
    implementedBy := TypeExpr.grow d.implementedBy implementers
    extendedBy := TypeExpr.grow d.extendedBy extenders }

@[simp] theorem gain_nil (d : Declaration) : d.gain [] [] = d :=
  rfl

theorem gain_gain (d : Declaration) (is es js fs : List Reference) :
    (d.gain is es).gain js fs = d.gain (is ++ js) (es ++ fs) := by
  simp only [gain, TypeExpr.grow_grow]

theorem extendedBy_gain {d : Declaration} {ts : List TypeExpr} (h : d.extendedBy = some ts)
    (is es : List Reference) : (d.gain is es).extendedBy = some (ts ++ es.map .reference) := by
  rw [gain, h, TypeExpr.grow_some]

theorem implementedBy_gain {d : Declaration} {ts : List TypeExpr} (h : d.implementedBy = some ts)
    (is es : List Reference) : (d.gain is es).implementedBy = some (ts ++ is.map .reference) := by
  rw [gain, h, TypeExpr.grow_some]

/-! ## What a declaration leaves -/

/--
The references to `d`, known by `key`, that it leaves with `target` when the tops of its types lead
to `targets`.
-/
def edges (d : Declaration) (key : DeclKey) (targets : List DeclKey) (target : DeclKey) :
    List Reference :=
  if d.isClassLike then List.replicate (targets.count target) (.toDeclaration d.name key) else []

/-- Who awaits a hierarchy once a declaration has left its back edges. -/
def awaiting (d : Declaration) (key : DeclKey) (implemented extended : List DeclKey) :
    List DeclKey :=
  if d.isClassLike then key :: implemented ++ extended else []

def edgeCount (d : Declaration) (implemented extended : List DeclKey) : Nat :=
  if d.isClassLike then implemented.length + extended.length else 0

end Declaration

namespace Graph

private theorem iterate_gain (implementers extenders : List Reference) (n : Nat)
    (d : Declaration) : (·.gain implementers extenders)^[n] d =
      d.gain (List.replicate n implementers).flatten (List.replicate n extenders).flatten := by
  induction n with
  | zero => rfl
  | succ n ih =>
    rw [Function.iterate_succ_apply', ih, Declaration.gain_gain, List.replicate_succ',
      List.replicate_succ', List.flatten_append, List.flatten_append, List.flatten_singleton,
      List.flatten_singleton]

/-- Leaving a reference with several declarations leaves it with each as often as it occurs. -/
theorem declaration?_foldl_addImplementer (source : Reference) (targets : List DeclKey) (g : Graph)
    (target : DeclKey) :
    (targets.foldl (addImplementer source) g).declaration? target =
      (g.declaration? target).map (·.gain (List.replicate (targets.count target) source) []) := by
  have hfold := declaration?_foldl_modify (·.gain [source] []) targets g target
  simp only [funext (iterate_gain [source] [] _), List.flatten_replicate_singleton,
    List.flatten_replicate_nil] at hfold
  exact hfold

theorem declaration?_foldl_addExtender (source : Reference) (targets : List DeclKey) (g : Graph)
    (target : DeclKey) :
    (targets.foldl (addExtender source) g).declaration? target =
      (g.declaration? target).map (·.gain [] (List.replicate (targets.count target) source)) := by
  have hfold := declaration?_foldl_modify (·.gain [] [source]) targets g target
  simp only [funext (iterate_gain [] [source] _), List.flatten_replicate_singleton,
    List.flatten_replicate_nil] at hfold
  exact hfold

/-! ## The contribution of a declaration -/

section Contribution

variable {g : Graph} {key : DeclKey} {d : Declaration} (pending : Worklist)

theorem declaration?_addBackEdges (hd : g.declaration? key = some d) (target : DeclKey) :
    (g.addBackEdges pending key).graph.declaration? target =
      (g.declaration? target).map (·.gain (d.edges key (g.targets d.implementedTypes) target)
        (d.edges key (g.targets d.extendedTypes) target)) := by
  unfold addBackEdges Declaration.edges
  simp only [hd]
  split
  · rw [declaration?_foldl_addExtender, declaration?_foldl_addImplementer, Option.map_map]
    rfl
  · simp

private theorem links_foldl {f : Graph → DeclKey → Graph} (hf : ∀ g k, (f g k).links = g.links)
    (ks : List DeclKey) (g : Graph) : (ks.foldl f g).links = g.links := by
  induction ks generalizing g with
  | nil => rfl
  | cons k ks ih => rw [List.foldl_cons, ih, hf]

theorem links_addBackEdges : (g.addBackEdges pending key).graph.links = g.links := by
  unfold addBackEdges
  split
  · rfl
  · next d _ =>
    split
    · exact (links_foldl (f := addExtender (.toDeclaration d.name key)) (fun _ _ => rfl) _ _).trans
        (links_foldl (f := addImplementer (.toDeclaration d.name key)) (fun _ _ => rfl) _ _)
    · rfl

private theorem alike_foldl {f : Graph → DeclKey → Graph} (hf : ∀ g k, Alike g (f g k))
    (ks : List DeclKey) (g : Graph) : Alike g (ks.foldl f g) := by
  induction ks generalizing g with
  | nil => exact Alike.refl g
  | cons k ks ih => exact (hf g k).trans (ih _)

theorem alike_addBackEdges : Alike g (g.addBackEdges pending key).graph := by
  unfold addBackEdges
  split
  · exact Alike.refl g
  · split
    · refine (alike_foldl (fun g k => ?_) _ _).trans (alike_foldl (fun g k => ?_) _ _)
      · exact Alike.modify g k fun _ _ => rfl
      · exact Alike.modify g k fun _ _ => rfl
    · exact Alike.refl g

theorem pending_addBackEdges (hd : g.declaration? key = some d) :
    (g.addBackEdges pending key).pending =
      pending.addAll
        (d.awaiting key (g.targets d.implementedTypes) (g.targets d.extendedTypes)) := by
  unfold addBackEdges Declaration.awaiting
  simp only [hd]
  split <;> rfl

theorem added_addBackEdges (hd : g.declaration? key = some d) :
    (g.addBackEdges pending key).added =
      d.edgeCount (g.targets d.implementedTypes) (g.targets d.extendedTypes) := by
  unfold addBackEdges Declaration.edgeCount
  simp only [hd]
  split <;> rfl

end Contribution

end Graph

/-! ## Worklists -/

namespace Worklist

theorem addAll_append (w : Worklist) (keys more : List DeclKey) :
    w.addAll (keys ++ more) = (w.addAll keys).addAll more :=
  List.foldl_append

theorem mem_addAll {w : Worklist} {keys : List DeclKey} {other : DeclKey} :
    other ∈ w.addAll keys ↔ other ∈ w ∨ other ∈ keys := by
  induction keys generalizing w with
  | nil => simp [addAll]
  | cons key keys ih =>
    rw [addAll, List.foldl_cons, ← addAll, ih, mem_add, List.mem_cons, or_assoc]

theorem nodup_addAll {w : Worklist} (h : w.Nodup) (keys : List DeclKey) :
    (w.addAll keys).Nodup := by
  induction keys generalizing w with
  | nil => exact h
  | cons key keys ih => exact ih (nodup_add h key)

end Worklist

end Lineage
