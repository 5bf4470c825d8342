import Lineage.Proofs.Realization
import Lineage.Proofs.Renaming
import Mathlib.Data.List.Pairwise
import Mathlib.Data.List.Perm.Subperm

/-!
# Permuted descriptions

The declarations of a description may come in any order. Another order is adopted as well, and if
no name and no symbol number is ambiguous it makes the same project: each declaration is renamed to
the one that is built from the same entry.
-/

namespace Lineage

/-! ## Descriptions -/

/-- No two declarations of one parent share a name, and no two carry one symbol number. -/
structure Description.Unambiguous (spec : Description) : Prop where
  siblings : spec.declarations.Pairwise fun s e => s.parent = e.parent → s.name ≠ e.name
  symbols : spec.declarations.Pairwise fun s e => s.symbol.isSome → s.symbol ≠ e.symbol

namespace Description.Unambiguous

variable {spec : Description} (h : spec.Unambiguous)
include h

theorem eq_of_name {s e : DeclarationEntry} (hs : s ∈ spec.declarations)
    (he : e ∈ spec.declarations) (hparent : s.parent = e.parent) (hname : s.name = e.name) :
    s = e := by
  have : Std.Symm fun s e : DeclarationEntry => s.parent = e.parent → s.name ≠ e.name :=
    ⟨fun _ _ h hp hn => h hp.symm hn.symm⟩
  by_contra hne
  exact h.siblings.forall hs he hne hparent hname

theorem eq_of_symbol {s e : DeclarationEntry} {symbol : Int} (hs : s ∈ spec.declarations)
    (he : e ∈ spec.declarations) (hsymbol : s.symbol = some symbol)
    (hother : e.symbol = some symbol) : s = e := by
  have : Std.Symm fun s e : DeclarationEntry => s.symbol.isSome → s.symbol ≠ e.symbol :=
    ⟨fun _ _ h hp hn => h (hn ▸ hp) hn.symm⟩
  by_contra hne
  exact h.symbols.forall hs he hne (by simp [hsymbol]) (hsymbol.trans hother.symm)

end Description.Unambiguous

/-! ## Forests -/

theorem Forest.IsForest.perm {all entries : List DeclarationEntry} (h : IsForest all)
    (hperm : all.Perm entries) : IsForest entries where
  entries.nonneg s hs := h.entries.nonneg s (hperm.mem_iff.mpr hs)
  entries.distinct := (hperm.map (·.id)).nodup_iff.mp h.entries.distinct
  entries.kinds s hs := h.entries.kinds s (hperm.mem_iff.mpr hs)
  parents s hs parent hparent := by
    obtain ⟨hne, hmem⟩ := h.parents s (hperm.mem_iff.mpr hs) parent hparent
    exact ⟨hne, (hperm.map (·.id)).mem_iff.mp hmem⟩
  acyclic id hcycle := by
    refine h.acyclic id (Relation.TransGen.mono (fun a b hab => ?_) id id hcycle)
    obtain ⟨s, hs, hid, hparent⟩ := hab
    exact ⟨s, hperm.mem_iff.mpr hs, hid, hparent⟩

/-- Whatever order its declarations come in, a description is adopted. -/
theorem Graph.exists_adopt_perm {g₀ g : Graph} {source : String} {spec spec' : Description}
    (h : g₀.adopt source spec = .ok g) (hperm : spec.declarations.Perm spec'.declarations)
    (g₁ : Graph) (source' : String) : ∃ g', g₁.adopt source' spec' = .ok g' := by
  obtain ⟨kinds, hc⟩ := Forest.exists_check_iff.mpr ((isForest_of_adopt h).perm hperm)
  rcases adopt_of_check_eq_ok hc g₁ source' with ⟨-, hok⟩ | ⟨⟨s, hs, hlong⟩, -⟩
  · exact hok
  · exact absurd (writable_of_adopt h s (hperm.mem_iff.mpr hs)) hlong

/-! ## Counterparts -/

/--
Where the declaration that stands at a key is found when its description is reordered; every other
key stays.
-/
def counterpart (base : Nat) (all entries : List DeclarationEntry) (key : Nat) : Nat :=
  if key < base then key
  else ((all[key - base]?).map fun s => base + entries.findIdx (·.id == s.id)).getD key

section Counterpart

variable {base : Nat} {all entries : List DeclarationEntry}
  (hdistinct : (all.map (·.id)).Nodup) (hperm : all.Perm entries)
include hdistinct hperm

theorem exists_counterpart (base : Nat) {i : Nat} {s : DeclarationEntry} (hs : all[i]? = some s) :
    ∃ j, entries[j]? = some s ∧ counterpart base all entries (base + i) = base + j := by
  have hmem := hperm.mem_iff.mp (List.mem_of_getElem? hs)
  have hlt : entries.findIdx (·.id == s.id) < entries.length :=
    List.findIdx_lt_length_of_exists ⟨s, hmem, by simp⟩
  have hid : entries[entries.findIdx (·.id == s.id)].id = s.id := by
    simpa using List.findIdx_getElem (w := hlt)
  have hsame := List.inj_on_of_nodup_map ((hperm.map (·.id)).nodup_iff.mp hdistinct)
    (List.getElem_mem hlt) hmem hid
  refine ⟨entries.findIdx (·.id == s.id), ?_, ?_⟩
  · rw [List.getElem?_eq_getElem hlt, hsame]
  · rw [counterpart, if_neg (by omega), Nat.add_sub_cancel_left, hs]
    rfl

theorem counterpart_injective : Function.Injective (counterpart base all entries) := by
  -- Keys of the description go to such keys, all others stay.
  have hcases : ∀ key, (∃ i s j, all[i]? = some s ∧ entries[j]? = some s ∧ key = base + i ∧
      counterpart base all entries key = base + j) ∨
      (¬ (base ≤ key ∧ key < base + all.length) ∧ counterpart base all entries key = key) := by
    intro key
    by_cases hkey : base ≤ key ∧ key < base + all.length
    · obtain ⟨i, rfl⟩ := Nat.exists_eq_add_of_le hkey.1
      have hi : i < all.length := by omega
      obtain ⟨j, hj, hc⟩ := exists_counterpart hdistinct hperm base (List.getElem?_eq_getElem hi)
      exact Or.inl ⟨i, _, j, List.getElem?_eq_getElem hi, hj, rfl, hc⟩
    · refine Or.inr ⟨hkey, ?_⟩
      rw [counterpart]
      split
      · rfl
      · rw [List.getElem?_eq_none (by omega)]
        rfl
  intro key other heq
  rcases hcases key with ⟨i, s, j, hs, hj, rfl, hc⟩ | ⟨hkey, hc⟩
  · rcases hcases other with ⟨i', s', j', hs', hj', rfl, hc'⟩ | ⟨hother, hc'⟩
    · obtain rfl : j = j' := by omega
      obtain rfl := Option.some.inj (hj.symm.trans hj')
      have hi := (List.getElem?_inj (List.getElem?_eq_some_iff.mp hs).1 hdistinct.of_map).mp
        (hs.trans hs'.symm)
      rw [hi]
    · have hlt := (List.getElem?_eq_some_iff.mp hj).1
      rw [← hperm.length_eq] at hlt
      omega
  · rcases hcases other with ⟨i', s', j', hs', hj', rfl, hc'⟩ | ⟨hother, hc'⟩
    · have hlt := (List.getElem?_eq_some_iff.mp hj').1
      rw [← hperm.length_eq] at hlt
      omega
    · rw [← hc, ← hc', heq]

end Counterpart

/-! ## Projects of permuted descriptions -/

namespace Graph

section Permuted

variable {g₀ g g' : Graph} {spec spec' : Description}

/-- The renaming from a project to that of a description in another order. -/
def reordering (g₀ : Graph) (spec spec' : Description) : DeclKey → DeclKey :=
  counterpart g₀.declarations.size spec.declarations spec'.declarations

variable (h : Adopted g₀ spec g) (h' : Adopted g₀ spec' g')
  (hf : Forest.IsForest spec.declarations)
  (hperm : spec.declarations.Perm spec'.declarations)
include h h' hf hperm

theorem byId?_reordering {s : DeclarationEntry} (hs : s ∈ spec.declarations) :
    g'.byId? g₀.projects.size s.id =
      (g.byId? g₀.projects.size s.id).map (reordering g₀ spec spec') := by
  obtain ⟨i, hi⟩ := List.getElem?_of_mem hs
  obtain ⟨j, hj, hkey⟩ := exists_counterpart hf.entries.distinct hperm g₀.declarations.size hi
  rw [h.byId?_eq hi, h'.byId?_eq hj, Option.map_some, reordering, hkey]

theorem scopeOf?_reordering {s : DeclarationEntry} (hs : s ∈ spec.declarations) :
    g'.scopeOf? g₀.projects.size s.parent = (g.scopeOf? g₀.projects.size s.parent).map
      (.rename (reordering g₀ spec spec')) := by
  cases hparent : s.parent with
  | none => rfl
  | some parent =>
    obtain ⟨-, hdescribed⟩ := hf.parents s hs parent hparent
    obtain ⟨e, he, rfl⟩ := List.mem_map.mp hdescribed
    rw [scopeOf?, scopeOf?, byId?_reordering h h' hf hperm he, Option.map_map, Option.map_map]
    rfl

/-- The children of a scope are the same in some order. -/
theorem childrenOf_reordering (hf' : Forest.IsForest spec'.declarations) {scope : Scope}
    (hscope : scope.Within g₀.projects.size (g.declarationsOf g₀.projects.size)) :
    (g'.childrenOf (scope.rename (reordering g₀ spec spec'))).Perm
      ((g.childrenOf scope).map (reordering g₀ spec spec')) := by
  obtain ⟨parent, hparent, hparent'⟩ : ∃ parent,
      g.scopeOf? g₀.projects.size parent = some scope ∧ g'.scopeOf? g₀.projects.size parent =
        some (scope.rename (reordering g₀ spec spec')) := by
    rcases hscope with rfl | ⟨key, hkey, rfl⟩
    · exact ⟨none, rfl, rfl⟩
    · obtain ⟨i, s, hs, rfl⟩ := h.mem_declarationsOf.mp hkey
      have hid := byId?_reordering h h' hf hperm (List.mem_of_getElem? hs)
      rw [h.byId?_eq hs, Option.map_some] at hid
      exact ⟨some s.id, by rw [scopeOf?, h.byId?_eq hs]; rfl, by rw [scopeOf?, hid]; rfl⟩
  have hentries : (spec.declarations.filter (·.parent == parent)).map
        (fun s => g'.byId? g₀.projects.size s.id) =
      ((g.childrenOf scope).map some).map (Option.map (reordering g₀ spec spec')) := by
    rw [h.map_childrenOf hf.parents hparent, List.map_map]
    exact List.map_congr_left fun s hs =>
      byId?_reordering h h' hf hperm (List.mem_of_mem_filter hs)
  have hsome : ((g'.childrenOf (scope.rename (reordering g₀ spec spec'))).map some).Perm
      (((g.childrenOf scope).map (reordering g₀ spec spec')).map some) := by
    rw [h'.map_childrenOf hf'.parents hparent']
    refine ((hperm.symm.filter _).map _).trans (.of_eq ?_)
    rw [hentries, List.map_map, List.map_map]
    rfl
  exact (List.map_perm_map_iff fun _ _ => Option.some.inj).mp hsome

/-- In the order of their ids the declarations are the same. -/
theorem declarationsOf_reordering (hids : ∀ key ∈ g.declarationsOf g₀.projects.size,
    (g'.declaration? (reordering g₀ spec spec' key)).map (·.id) =
      (g.declaration? key).map (·.id)) :
    g'.declarationsOf g₀.projects.size =
      (g.declarationsOf g₀.projects.size).map (reordering g₀ spec spec') := by
  have hinjective : Function.Injective (reordering g₀ spec spec') :=
    counterpart_injective hf.entries.distinct hperm
  have hsubset : (g.declarationsOf g₀.projects.size).map (reordering g₀ spec spec') ⊆
      g'.declarationsOf g₀.projects.size := fun key hkey => by
    obtain ⟨k, hk, rfl⟩ := List.mem_map.mp hkey
    obtain ⟨i, s, hs, rfl⟩ := h.mem_declarationsOf.mp hk
    obtain ⟨j, hj, hc⟩ := exists_counterpart hf.entries.distinct hperm g₀.declarations.size hs
    exact h'.mem_declarationsOf.mpr ⟨j, s, hj, hc⟩
  have hlength : (g'.declarationsOf g₀.projects.size).length ≤
      ((g.declarationsOf g₀.projects.size).map (reordering g₀ spec spec')).length := by
    rw [List.length_map, h.declarationsOf_perm.length_eq, h'.declarationsOf_perm.length_eq,
      List.length_range', List.length_range', hperm.length_eq]
  have hpermuted := (List.subperm_of_subset (h.loaded.nodup.map hinjective)
    hsubset).perm_of_length_le hlength
  refine (hpermuted.eq_of_pairwise ?_ ?_ h'.pairwise_idBelow).symm
  · exact fun a b _ _ hlt hlt' => absurd hlt' hlt.asymm
  · rw [List.pairwise_map]
    refine h.pairwise_idBelow.imp_of_mem fun {a b} ha hb hlt => ?_
    obtain ⟨d, e, hd, he, hlt⟩ := hlt
    have hda := hids a ha
    have heb := hids b hb
    rw [hd, Option.map_some] at hda
    rw [he, Option.map_some] at heb
    obtain ⟨d', hd', hid⟩ := Option.map_eq_some_iff.mp hda
    obtain ⟨e', he', hid'⟩ := Option.map_eq_some_iff.mp heb
    exact ⟨d', e', hd', he', by rw [hid, hid']; exact hlt⟩

end Permuted

section Adopted

variable {g₀ g g' : Graph} {source source' : String} {spec spec' : Description}
  (h : g₀.adopt source spec = .ok g) (h' : g₀.adopt source' spec' = .ok g')
  (hperm : spec.declarations.Perm spec'.declarations)
include h

/-- In an adopted project siblings have different names if the description is unambiguous. -/
theorem siblingsApart_of_adopt (hone : spec.Unambiguous) :
    g.SiblingsApart g₀.projects.size := by
  have ha := adopt_spec h
  have hf := isForest_of_adopt h
  intro scope hscope key hkey other hother hname
  obtain ⟨i, s, hs, rfl⟩ := ha.mem_declarationsOf.mp (ha.encloses.children scope hscope key hkey)
  obtain ⟨j, e, he, rfl⟩ :=
    ha.mem_declarationsOf.mp (ha.encloses.children scope hscope other hother)
  rw [ha.childrenOf_eq hscope] at hkey hother
  have hsparent := of_decide_eq_true (List.mem_filter.mp hkey).2
  have heparent := of_decide_eq_true (List.mem_filter.mp hother).2
  rw [ha.parentOf?_eq hf.parents hs] at hsparent
  rw [ha.parentOf?_eq hf.parents he] at heparent
  obtain ⟨d, hd, -, hdname, -⟩ := ha.declaration i s hs
  obtain ⟨d', hd', -, hdname', -⟩ := ha.declaration j e he
  simp only [scopeName?, hd, hd', Option.map_some, Option.some.injEq, hdname, hdname'] at hname
  have hsame := hone.eq_of_name (List.mem_of_getElem? hs) (List.mem_of_getElem? he)
    (ha.scopeOf?_inj hsparent heparent) hname
  have hkeys := ha.byId?_eq he
  rw [← hsame, ha.byId?_eq hs] at hkeys
  exact Option.some.inj hkeys

include h' hperm

theorem bySymbol?_reordering (hone : spec.Unambiguous) (symbol : Int) :
    g'.bySymbol? g₀.projects.size symbol =
      (g.bySymbol? g₀.projects.size symbol).map (reordering g₀ spec spec') := by
  have ha := adopt_spec h
  have ha' := adopt_spec h'
  have hlast : spec.lastCarrying? symbol = spec'.lastCarrying? symbol := by
    refine List.find?_eq_find?_of_perm ?_ ?_
    · exact (List.reverse_perm _).trans (hperm.trans (List.reverse_perm _).symm)
    · rintro s ⟨hs, hsymbol⟩ e ⟨he, hother⟩
      exact hone.eq_of_symbol (List.mem_reverse.mp hs) (List.mem_reverse.mp he)
        (by simpa using hsymbol) (by simpa using hother)
  rw [ha.bySymbol?_eq, ha'.bySymbol?_eq, ← hlast]
  cases hfind : spec.lastCarrying? symbol with
  | none => rfl
  | some s =>
    have hs := List.mem_reverse.mp (List.mem_of_find?_eq_some hfind)
    exact byId?_reordering ha ha' (isForest_of_adopt h) hperm hs

/-- Reordering an unambiguous description renames the project and changes nothing else. -/
theorem renamed_of_perm (hname : spec'.name = spec.name) (hone : spec.Unambiguous) :
    Renamed (reordering g₀ spec spec') g₀.projects.size g g' := by
  have ha := adopt_spec h
  have ha' := adopt_spec h'
  have hf := isForest_of_adopt h
  have hf' := isForest_of_adopt h'
  have hkey : ∀ {i : Nat} {s : DeclarationEntry}, spec.declarations[i]? = some s →
      ∃ j, spec'.declarations[j]? = some s ∧
        reordering g₀ spec spec' (g₀.declarations.size + i) = g₀.declarations.size + j :=
    fun hs => exists_counterpart hf.entries.distinct hperm _ hs
  have hdeclaration : ∀ key ∈ g.declarationsOf g₀.projects.size, ∃ d e,
      g.declaration? key = some d ∧ g'.declaration? (reordering g₀ spec spec' key) = some e ∧
      d.Same (Reference.Follows (reordering g₀ spec spec') (g.declarationsOf g₀.projects.size)
        g g') e := fun key hmem => by
    obtain ⟨i, s, hs, rfl⟩ := ha.mem_declarationsOf.mp hmem
    obtain ⟨j, hj, hc⟩ := hkey hs
    obtain ⟨d, hd, hshape⟩ := adopt_describes h hs
    obtain ⟨e, he, hshape'⟩ := adopt_describes h' hj
    refine ⟨d, e, hd, by rw [hc, he], DeclarationEntry.same_of_describes ?_ hshape hshape'⟩
    intro name symbol r q hr hq
    exact ⟨hq.name.trans hr.name.symm, hq.symbol.trans hr.symbol.symm,
      Or.inl ⟨hr.property, hq.property⟩⟩
  refine ⟨counterpart_injective hf.entries.distinct hperm, ?_, ?_, ?_,
    bySymbol?_reordering h h' hperm hone, hdeclaration, ?_, ?_⟩
  · rw [adopt_size h, adopt_size h', hperm.length_eq]
  · rw [adopt_name h, adopt_name h', hname]
  · refine declarationsOf_reordering ha ha' hf hperm fun key hmem => ?_
    obtain ⟨d, e, hd, he, hsame⟩ := hdeclaration key hmem
    rw [hd, he, Option.map_some, Option.map_some, hsame.id]
  · intro key hmem
    obtain ⟨i, s, hs, rfl⟩ := ha.mem_declarationsOf.mp hmem
    obtain ⟨j, hj, hc⟩ := hkey hs
    rw [hc, ha'.parentOf?_eq hf'.parents hj, ha.parentOf?_eq hf.parents hs]
    exact scopeOf?_reordering ha ha' hf hperm (List.mem_of_getElem? hs)
  · exact fun scope hscope => childrenOf_reordering ha ha' hf hperm hf' hscope

end Adopted

end Graph

end Lineage
