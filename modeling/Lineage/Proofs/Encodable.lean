import Lineage.Report
import Lineage.Proofs.Hierarchies
import Lineage.Proofs.Realization

/-!
# JSON forms after a run

Whatever a run leaves of a described project can be written as JSON: no place in its types is empty,
and each reference leads to a declaration of the project or nowhere.
-/

namespace Lineage

/-- A described list has a description for each of its members. -/
theorem exists_of_mem_of_forall₂ {α β : Type} {R : α → β → Prop} {xs : List α} {ys : List β}
    (h : List.Forall₂ R xs ys) {y : β} (hy : y ∈ ys) : ∃ x, R x y := by
  induction h with
  | nil => cases hy
  | @cons x y' xs ys hhead _ ih =>
    rcases List.mem_cons.mp hy with rfl | hy
    · exact ⟨x, hhead⟩
    · exact ih hy

theorem Lists.exists_of_mem {α β : Type} {R : α → β → Prop} {items : List α}
    {built : Option (List β)} (h : Lists R items built) {b : β} (hb : b ∈ built.getD []) :
    ∃ a, R a b := by
  rw [Lists] at h
  generalize nonempty? items = described at h
  cases h with
  | none => cases hb
  | some h => exact exists_of_mem_of_forall₂ h hb

/-- Where each member has a result, the list of all results exists. -/
theorem exists_mapM {α β : Type} {f : α → Option β} {xs : List α}
    (h : ∀ x ∈ xs, ∃ y, f x = some y) : ∃ ys, xs.mapM f = some ys := by
  induction xs with
  | nil => exact ⟨[], rfl⟩
  | cons x xs ih =>
    rw [List.forall_mem_cons] at h
    obtain ⟨y, hy⟩ := h.1
    obtain ⟨ys, hys⟩ := ih h.2
    exact ⟨y :: ys, by simp [List.mapM_cons, hy, hys]⟩

namespace Graph

variable {g : Graph}

/-! ## Types -/

def Writes (g : Graph) (t : TypeExpr) : Prop :=
  ∃ v, g.encodeType? t = some v

theorem exists_encodeTypes? {ts : List TypeExpr} (h : ∀ t ∈ ts, g.Writes t) :
    ∃ vs, g.encodeTypes? ts = some vs := by
  induction ts with
  | nil => exact ⟨[], rfl⟩
  | cons t ts ih =>
    rw [List.forall_mem_cons] at h
    obtain ⟨v, hv⟩ := h.1
    obtain ⟨vs, hvs⟩ := ih h.2
    exact ⟨v :: vs, by simp [encodeTypes?, hv, hvs]⟩

theorem writes_reference {r : Reference} (h : (g.shownId? r).isSome) :
    g.Writes (.reference r) := by
  obtain ⟨shown, hshown⟩ := Option.isSome_iff_exists.mp h
  exact ⟨_, by rw [encodeType?, hshown]; rfl⟩

theorem writes_applied {r : Reference} {arguments : List TypeExpr} (h : (g.shownId? r).isSome)
    (harguments : ∀ t ∈ arguments, g.Writes t) : g.Writes (.applied r arguments) := by
  obtain ⟨shown, hshown⟩ := Option.isSome_iff_exists.mp h
  obtain ⟨items, hitems⟩ := exists_encodeTypes? harguments
  cases arguments with
  | nil => exact ⟨_, by rw [encodeType?, hshown]; rfl⟩
  | cons t ts => exact ⟨_, by simp only [encodeType?, hshown, hitems]; rfl⟩

/-- What has a described shape has a JSON form, if its references show where they lead. -/
theorem writes_of_describes {P : Reference → Prop} {s : TypeEntry} {t : TypeExpr}
    (hs : s.Describes P t) (hshown : ∀ r ∈ t.references, (g.shownId? r).isSome) :
    g.Writes t := by
  have hparts : ∀ {ss : List TypeEntry} {ts : List TypeExpr},
      List.Forall₂ (TypeEntry.Describes P) ss ts →
      (∀ t ∈ ts, ∀ s : TypeEntry, s.Describes P t →
        (∀ r ∈ t.references, (g.shownId? r).isSome) → g.Writes t) →
      (∀ r ∈ TypeExpr.referencesOf ts, (g.shownId? r).isSome) → ∀ t ∈ ts, g.Writes t := by
    intro ss ts hall ih hshown t ht
    obtain ⟨s, hs⟩ := exists_of_mem_of_forall₂ hall ht
    exact ih t ht s hs fun r hr => hshown r (TypeExpr.references_subset_referencesOf ht hr)
  induction t using TypeExpr.induction_children generalizing s with
  | reference r => exact writes_reference (hshown r (by simp [TypeExpr.references]))
  | applied r ts ih =>
    rw [TypeExpr.references, List.forall_mem_cons] at hshown
    cases hs with
    | applied _ _ hall =>
      exact writes_applied hshown.1 (hparts hall (fun t ht s => ih t ht) hshown.2)
  | tuple ts ih =>
    cases hs with
    | tuple hall =>
      obtain ⟨vs, hvs⟩ := exists_encodeTypes? (hparts hall (fun t ht s => ih t ht) hshown)
      exact ⟨_, by rw [encodeType?, hvs]; rfl⟩
  | union ts ih =>
    cases hs with
    | union hall =>
      obtain ⟨vs, hvs⟩ := exists_encodeTypes? (hparts hall (fun t ht s => ih t ht) hshown)
      exact ⟨_, by rw [encodeType?, hvs]; rfl⟩
  | intrinsic name => exact ⟨_, rfl⟩
  | literal value => exact ⟨_, rfl⟩
  | unknown name => exact ⟨_, rfl⟩
  | blank => cases hs

/-! ## Declarations -/

theorem exists_encodeList? {types : Option (List TypeExpr)} (name : String)
    (h : ∀ t ∈ types.getD [], g.Writes t) : ∃ ms, g.encodeList? name types = some ms := by
  unfold encodeList?
  split
  · exact ⟨[], rfl⟩
  · obtain ⟨vs, hvs⟩ := exists_encodeTypes? h
    exact ⟨_, by rw [hvs]; rfl⟩

theorem exists_encodeDeclaration? {d : Declaration}
    (hextended : ∀ t ∈ d.extendedTypes.getD [], g.Writes t)
    (hextenders : ∀ t ∈ d.extendedBy.getD [], g.Writes t)
    (himplemented : ∀ t ∈ d.implementedTypes.getD [], g.Writes t)
    (himplementers : ∀ t ∈ d.implementedBy.getD [], g.Writes t) :
    ∃ v, g.encodeDeclaration? d = some v := by
  obtain ⟨_, hextended⟩ := exists_encodeList? "extended_types" hextended
  obtain ⟨_, hextenders⟩ := exists_encodeList? "extended_by" hextenders
  obtain ⟨_, himplemented⟩ := exists_encodeList? "implemented_types" himplemented
  obtain ⟨_, himplementers⟩ := exists_encodeList? "implemented_by" himplementers
  exact ⟨_, by
    simp only [encodeDeclaration?, hextended, hextenders, himplemented, himplementers]; rfl⟩

end Graph

/-! ## Resolved projects -/

namespace Resolved

variable {g g' : Graph} {project : ProjectKey} {keys : List DeclKey} {t : Tally}

/-- A reference of the project shows a declaration of the project, or nothing. -/
theorem isSome_shownId? (h : Resolved g project keys g' t) (hloaded : g.Loaded project)
    {key : DeclKey} (hkey : key ∈ g.declarationsOf project) {r : Reference}
    (hr : r ∈ g.referencesAt key) : (g'.shownId? r).isSome := by
  rw [Graph.shownId?, h.settled hloaded hkey r hr]
  cases hnamed : g.named? project (.declaration key) r with
  | none => rfl
  | some target =>
    obtain ⟨d, hd, -⟩ := h.exists_resolved hloaded (hloaded.closed key hkey r hr target hnamed)
    obtain ⟨d', hd', -⟩ := h.alike.exists_declaration hd
    simp [hd']

/-- What a declaration has received shows the declarations that it came from. -/
theorem writes_received (h : Resolved g project keys g' t)
    {types : Declaration → Option (List TypeExpr)} {target : DeclKey} {r : Reference}
    (hr : r ∈ g.received project types keys target) : g'.Writes (.reference r) := by
  obtain ⟨key, -, hedge⟩ := List.mem_flatMap.mp hr
  obtain ⟨d, hd, -, rfl, -⟩ := Graph.mem_edges hedge
  obtain ⟨d', hd', -⟩ := h.alike.exists_declaration hd
  refine Graph.writes_reference ?_
  simp [Graph.shownId?, Graph.target?, Reference.target?, Reference.toDeclaration, hd']

/-- A declaration has a JSON form if the types that it was loaded with have shapes. -/
theorem exists_encode? (h : Resolved g project keys g' t) (hloaded : g.Loaded project)
    {key : DeclKey} (hkey : key ∈ g.declarationsOf project) {P : Reference → Prop}
    {s : DeclarationEntry} {d : Declaration} (hd : g.declaration? key = some d)
    (hs : s.Describes P d) : ∃ v, g'.encode? key = some v := by
  obtain ⟨d₀, hd₀, -, hd'⟩ := h.exists_resolved hloaded hkey
  obtain rfl := Option.some.inj (hd.symm.trans hd₀)
  have hbare := Declaration.bare_resolved d key
    (g.received project Declaration.implementedTypes keys key)
    (g.received project Declaration.extendedTypes keys key) (g.awaited project keys key)
  have hvisited : ∀ {types : Declaration → Option (List TypeExpr)} {entries : List TypeEntry},
      Declaration.Visited types → Lists (TypeEntry.Describes P) entries (types d) →
      ∀ t ∈ (types d).getD [], g'.Writes t := by
    intro types entries hv hlists t ht
    obtain ⟨entry, hentry⟩ := hlists.exists_of_mem ht
    refine Graph.writes_of_describes hentry fun r hr => h.isSome_shownId? hloaded hkey ?_
    rw [Graph.referencesAt, hd]
    exact TypeExpr.references_subset_referencesOf (hv.visited d t ht) hr
  rw [Graph.encode?, hd', Option.bind_some]
  apply Graph.exists_encodeDeclaration?
  · rw [Declaration.eq_of_bare_eq Declaration.extendedTypes (fun _ => rfl) hbare]
    exact hvisited Declaration.visited_extendedTypes hs.extendedTypes
  · rw [Declaration.extendedBy_resolved, getD_nonempty?, List.forall_mem_map]
    exact fun r hr => h.writes_received hr
  · rw [Declaration.eq_of_bare_eq Declaration.implementedTypes (fun _ => rfl) hbare]
    exact hvisited Declaration.visited_implementedTypes hs.implementedTypes
  · rw [Declaration.implementedBy_resolved, getD_nonempty?, List.forall_mem_map]
    exact fun r hr => h.writes_received (List.mem_mergeSort.mp hr)

end Resolved

namespace Graph

/-- After a run over a described project, it and each of its declarations can be written. -/
theorem exists_encodings {g₀ g g' : Graph} {source : String} {spec : Description} {t : Tally}
    (h : g₀.adopt source spec = .ok g)
    (hresolved : Resolved g g₀.projects.size (g.declarationsOf g₀.projects.size) g' t) :
    (∀ key ∈ g'.declarationsOf g₀.projects.size, ∃ v, g'.encode? key = some v) ∧
      ∃ v, g'.encodeProject? g₀.projects.size = some v := by
  have ha := adopt_spec h
  have hwritten : ∀ key ∈ g'.declarationsOf g₀.projects.size, ∃ v, g'.encode? key = some v := by
    intro key hkey
    rw [hresolved.alike.declarationsOf_eq] at hkey
    obtain ⟨i, s, hs, rfl⟩ := ha.mem_declarationsOf.mp hkey
    obtain ⟨d, hd, hdescribes⟩ := adopt_describes h hs
    exact hresolved.exists_encode? ha.loaded hkey hd hdescribes
  obtain ⟨classes, hclasses⟩ := exists_mapM fun key (hkey : key ∈ g'.classesOf g₀.projects.size) =>
    hwritten key (mem_classesOf.mp hkey).1
  obtain ⟨p, hp, -⟩ := ha.project
  rw [← hresolved.alike.project?_eq] at hp
  exact ⟨hwritten, _, by simp only [encodeProject?, hp, hclasses]; rfl⟩

end Graph

end Lineage
