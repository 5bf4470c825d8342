import Lineage.Proofs.Neighbours
import Lineage.Proofs.Received

/-!
# Carried worklists

A resolver that has kept a worklist from other projects does to a project what a new one does. At
its end it also builds the hierarchies that it has kept, and counts them.
-/

namespace Lineage

/-! ## Worklists -/

namespace Worklist

/-- What is left of a kept worklist: nothing once it has been flushed. -/
def unflushed (carried : Worklist) (flushed : Bool) : Worklist :=
  if flushed then [] else carried

theorem mem_unflushed {carried : Worklist} {flushed : Bool} {key : DeclKey} :
    key ∈ carried.unflushed flushed ↔ flushed = false ∧ key ∈ carried := by
  cases flushed <;> simp [unflushed]

/-- Declarations that are none of the first are added behind them. -/
theorem addAll_append_left {first w : Worklist} {keys : List DeclKey}
    (h : ∀ key ∈ keys, key ∉ first) : addAll (first ++ w) keys = first ++ addAll w keys := by
  induction keys generalizing w with
  | nil => rfl
  | cons key keys ih =>
    rw [List.forall_mem_cons] at h
    have hadd : add (first ++ w) key = first ++ add w key := by
      simp only [add, List.mem_append, h.1, false_or]
      split
      · rfl
      · rw [List.append_assoc]
    rw [addAll, List.foldl_cons, hadd, ← addAll, ih h.2]
    rfl

end Worklist

def Tally.plus (t : Tally) (hierarchies : Nat) : Tally :=
  { t with hierarchiesBuilt := t.hierarchiesBuilt + hierarchies }

/-! ## Frames -/

theorem Graph.edges_eq_nil {g : Graph} {project : ProjectKey} (h : g.Loaded project)
    {types : Declaration → Option (List TypeExpr)}
    (htypes : types = Declaration.implementedTypes ∨ types = Declaration.extendedTypes)
    {key target : DeclKey} (hkey : key ∈ g.declarationsOf project)
    (htarget : target ∉ g.declarationsOf project) : g.edges project types key target = [] :=
  List.eq_nil_iff_forall_not_mem.mpr fun _ hr =>
    htarget (h.mem_of_mem_awaiting hkey (mem_awaiting_of_mem_edges htypes hr))

theorem Delivered.declaration_eq {g : Graph} {project : ProjectKey} {keys : List DeclKey}
    {s s' : Sweep} (hd : Delivered g project keys s s') (h : g.Loaded project)
    (hkeys : ∀ key ∈ keys, key ∈ g.declarationsOf project) {target : DeclKey}
    (htarget : target ∉ g.declarationsOf project) :
    s'.graph.declaration? target = s.graph.declaration? target := by
  have hnil : ∀ {types : Declaration → Option (List TypeExpr)},
      types = Declaration.implementedTypes ∨ types = Declaration.extendedTypes →
      (keys.flatMap fun key => g.edges project types key target) = [] := fun htypes =>
    List.flatMap_eq_nil_iff.mpr fun key hkey =>
      Graph.edges_eq_nil h htypes (hkeys key hkey) htarget
  rw [hd.declaration, hnil (.inl rfl), hnil (.inr rfl)]
  simp

/-- Chains and sorted implementers hold back edges if those that were there did. -/
theorem Declaration.isBackEdge_of_mem_chained {d : Declaration}
    (h : ∀ t ∈ d.extendedBy.getD [] ++ d.implementedBy.getD [], t.IsBackEdge) (key : DeclKey) :
    ∀ t ∈ (d.chained key).extendedBy.getD [] ++ (d.chained key).implementedBy.getD [],
      t.IsBackEdge := by
  intro t ht
  refine h t ?_
  rw [List.mem_append] at ht ⊢
  refine ht.imp_right fun ht => ?_
  cases himplemented : d.implementedBy with
  | none => simp [chained, himplemented] at ht
  | some ts =>
    have hnamed : AllNamed ts := fun u hu => by
      obtain ⟨name, other, rfl⟩ := h u (List.mem_append_right _ (by rwa [himplemented]))
      rfl
    simp only [chained, himplemented, Option.map_some, Option.getD_some] at ht
    exact (sortByName_perm hnamed).mem_iff.mp ht

theorem Graph.Chained.grown {g g₁ g₂ : Graph} {project : ProjectKey} {keys : List DeclKey}
    (hc : Chained g₁ keys g₂) (hg : g.Grown project g₁) : g.Grown project g₂ where
  alike := hg.alike.trans hc.alike
  held key hkey r hr link hlink := by
    rw [hc.links]
    exact hg.held key hkey r hr link hlink
  gained key hkey d hd t ht := by
    rw [hc.declaration] at hd
    obtain ⟨d₁, hd₁, rfl⟩ := Option.map_eq_some_iff.mp hd
    have hedges := hg.gained key hkey d₁ hd₁
    split at ht
    · exact Declaration.isBackEdge_of_mem_chained hedges key t ht
    · exact hedges t ht

/-! ## Sweeps that carry a worklist -/

/-- A declaration that has got its chain if it was on a worklist that is flushed. -/
def Declaration.flush (d : Declaration) (carried : Worklist) (flushed : Bool) (key : DeclKey) :
    Declaration :=
  if flushed && decide (key ∈ carried) then d.chained key else d

/--
A sweep `s` over a project that began with a kept worklist and a graph `before` compares to a sweep
`t` that began with none and a loaded project: the project stands alike, nothing else has changed
but by a flush, and only hierarchies are counted in addition.
-/
structure Carries (g : Graph) (project : ProjectKey) (carried : Worklist) (before : Graph)
    (flushed : Bool) (s t : Sweep) : Prop where
  grown : g.Grown project s.graph
  fresh : g.Grown project t.graph
  declaration : ∀ key ∈ g.declarationsOf project,
    s.graph.declaration? key = t.graph.declaration? key
  links : ∀ m ∈ g.mentions (g.declarationsOf project), ∀ link, m.2.link? = some link →
    s.graph.links[link]? = t.graph.links[link]?
  others : ∀ key ∉ g.declarationsOf project, s.graph.declaration? key =
    (before.declaration? key).map fun d => d.flush carried flushed key
  otherLinks : ∀ link, (∀ m ∈ g.mentions (g.declarationsOf project), m.2.link? ≠ some link) →
    s.graph.links[link]? = before.links[link]?
  pending : s.pending = carried.unflushed flushed ++ t.pending
  within : t.pending ⊆ g.declarationsOf project
  nodup : t.pending.Nodup
  tally : s.tally = t.tally.plus (if flushed then carried.length else 0)

/-- A worklist without repetitions, of declarations of other projects that can get a chain. -/
structure Worklist.Foreign (carried : Worklist) (g : Graph) (project : ProjectKey)
    (before : Graph) : Prop where
  nodup : carried.Nodup
  notMem : ∀ key ∈ carried, key ∉ g.declarationsOf project
  sortable : ∀ key ∈ carried, before.Sortable key

namespace Carries

variable {g before : Graph} {project : ProjectKey} {carried : Worklist} {flushed : Bool}
  {s t : Sweep} (hc : Carries g project carried before flushed s t) (h : g.Loaded project)
include hc h

theorem isLinked_eq {key : DeclKey} (hkey : key ∈ g.declarationsOf project) {r : Reference}
    (hr : r ∈ g.referencesAt key) : s.graph.isLinked r = t.graph.isLinked r := by
  obtain ⟨link, hlink, -⟩ := h.unlinked key hkey r hr
  rw [Graph.isLinked_of_link hlink, Graph.isLinked_of_link hlink,
    hc.links (key, r) (Graph.mem_mentions.mpr ⟨hkey, hr⟩) link hlink]

theorem tally_deliver {key : DeclKey} (hkey : key ∈ g.declarationsOf project) :
    (s.deliver project key).tally =
      (t.deliver project key).tally.plus (if flushed then carried.length else 0) := by
  have hs := (Sweep.deliver_spec h hc.grown hkey).tally
  have ht := (Sweep.deliver_spec h hc.fresh hkey).tally
  have hlinked : ((g.mentions [key]).countP fun m => !s.graph.isLinked m.2 &&
        (g.named? project (.declaration m.1) m.2).isSome) =
      (g.mentions [key]).countP fun m => !t.graph.isLinked m.2 &&
        (g.named? project (.declaration m.1) m.2).isSome := by
    refine List.countP_congr fun m hm => ?_
    obtain ⟨hmem, hr⟩ := Graph.mem_mentions.mp hm
    obtain rfl := List.mem_singleton.mp hmem
    rw [hc.isLinked_eq h hkey hr]
  rw [hlinked, hc.tally] at hs
  ext
  · simp only [Tally.plus, Sweep.declarationsResolved_deliver, hc.tally]
  · exact hs.seen.trans ht.seen.symm
  · exact hs.linked.trans ht.linked.symm
  · exact hs.dangling.trans ht.dangling.symm
  · exact hs.edges.trans ht.edges.symm
  · rw [hs.built, Tally.plus, Tally.plus, ht.built]

variable (hf : carried.Foreign g project before)
include hf

theorem deliver {key : DeclKey} (hkey : key ∈ g.declarationsOf project) :
    Carries g project carried before flushed (s.deliver project key) (t.deliver project key) := by
  have hs := Sweep.deliver_spec h hc.grown hkey
  have ht := Sweep.deliver_spec h hc.fresh hkey
  have hone : ∀ k ∈ [key], k ∈ g.declarationsOf project := by simpa using hkey
  have hawaiting : ∀ k ∈ [key].flatMap (g.awaiting project), k ∈ g.declarationsOf project := by
    intro k hk
    rw [List.flatMap_singleton] at hk
    exact h.mem_of_mem_awaiting hkey hk
  refine ⟨hs.grown h hone hc.grown, ht.grown h hone hc.fresh, fun k hk => ?_,
    fun m hm link hlink => ?_, fun k hk => ?_, fun link hlink => ?_, ?_, ?_, ?_,
    hc.tally_deliver h hkey⟩
  · rw [hs.declaration, ht.declaration, hc.declaration k hk]
  · by_cases hmem : ∃ n ∈ g.mentions [key], n.2.link? = some link
    · obtain ⟨n, hn, he⟩ := hmem
      obtain ⟨hkey', hr⟩ := Graph.mem_mentions.mp hn
      rw [hs.settled n.1 hkey' n.2 hr link he, ht.settled n.1 hkey' n.2 hr link he]
    · rw [hs.untouched link fun n hn he => hmem ⟨n, hn, he⟩,
        ht.untouched link fun n hn he => hmem ⟨n, hn, he⟩, hc.links m hm link hlink]
  · rw [hs.declaration_eq h hone hk, hc.others k hk]
  · rw [hs.untouched link fun m hm => hlink m (Graph.mentions_subset hone hm),
      hc.otherLinks link hlink]
  · rw [hs.pending, ht.pending, hc.pending, Worklist.addAll_append_left fun k hk hcarried => ?_]
    exact hf.notMem k (Worklist.mem_unflushed.mp hcarried).2 (hawaiting k hk)
  · intro k hk
    rw [ht.pending, Worklist.mem_addAll] at hk
    exact hk.elim (fun hk => hc.within hk) (hawaiting k)
  · rw [ht.pending]
    exact Worklist.nodup_addAll hc.nodup _

omit h hf in
theorem countDeclaration : Carries g project carried before flushed
    { s with tally := s.tally.countDeclaration } { t with tally := t.tally.countDeclaration } :=
  ⟨hc.grown, hc.fresh, hc.declaration, hc.links, hc.others, hc.otherLinks, hc.pending, hc.within,
    hc.nodup, by rw [hc.tally]; rfl⟩

omit h hf in
theorem mem_pending {key : DeclKey} :
    key ∈ s.pending ↔ (flushed = false ∧ key ∈ carried) ∨ key ∈ t.pending := by
  rw [hc.pending, List.mem_append, Worklist.mem_unflushed]

omit h in
theorem nodup_pending : s.pending.Nodup := by
  have hkept : (carried.unflushed flushed).Nodup := by
    cases flushed
    · exact hf.nodup
    · exact List.nodup_nil
  rw [hc.pending]
  exact hkept.append hc.nodup fun key hkey hown =>
    hf.notMem key (Worklist.mem_unflushed.mp hkey).2 (hc.within hown)

omit h in
theorem sortable : ∀ key ∈ s.pending, s.graph.Sortable key := by
  intro key hkey
  rcases hc.mem_pending.mp hkey with ⟨rfl, hcarried⟩ | hown
  · intro d hd
    rw [hc.others key (hf.notMem key hcarried)] at hd
    obtain ⟨d₀, hd₀, rfl⟩ := Option.map_eq_some_iff.mp hd
    exact hf.sortable key hcarried d₀ hd₀
  · exact hc.grown.sortable (hc.within hown)

omit h in
/-- Both sweeps come to an end, which flushes what was carried. -/
theorem finish : s.Finishes ∧ t.Finishes ∧
    Carries g project carried before true s.finish t.finish := by
  obtain ⟨hsfinishes, hs⟩ := Graph.storeChains_spec (hc.nodup_pending hf) (hc.sortable hf)
  obtain ⟨htfinishes, ht⟩ := Graph.storeChains_spec hc.nodup fun key hkey =>
    hc.fresh.sortable (hc.within hkey)
  refine ⟨hsfinishes, htfinishes, hs.grown hc.grown, ht.grown hc.fresh, fun key hkey => ?_,
    fun m hm link hlink => ?_, fun key hkey => ?_, fun link hlink => ?_, rfl,
    List.nil_subset _, List.nodup_nil, ?_⟩
  · have hsame : key ∈ s.pending ↔ key ∈ t.pending := by
      rw [hc.mem_pending]
      exact ⟨fun hmem => hmem.resolve_left fun hk => hf.notMem key hk.2 hkey, Or.inr⟩
    refine (hs.declaration key).trans (Eq.trans ?_ (ht.declaration key).symm)
    simp only [hsame, hc.declaration key hkey]
  · exact (congrArg (·[link]?) hs.links).trans
      ((hc.links m hm link hlink).trans (congrArg (·[link]?) ht.links).symm)
  · -- A declaration of another project gets a chain if it was carried and has not been flushed.
    have hown : key ∉ t.pending := fun hmem => hkey (hc.within hmem)
    refine (hs.declaration key).trans ?_
    rw [hc.others key hkey, Option.map_map]
    congr 1
    funext d
    simp only [Function.comp_apply, hc.mem_pending, hown, or_false, Declaration.flush]
    cases flushed <;> by_cases hmem : key ∈ carried <;> simp [hmem]
  · exact (congrArg (·[link]?) hs.links).trans (hc.otherLinks link hlink)
  · simp only [Sweep.finish, Tally.countHierarchies, Tally.plus, hc.tally, hc.pending,
      List.length_append]
    cases flushed <;> simp [Worklist.unflushed, Nat.add_assoc, Nat.add_comm carried.length]

end Carries

/-! ## Before and after -/

/-- A project that stands in a graph as it was loaded. -/
structure Graph.Untouched (g g' : Graph) (project : ProjectKey) : Prop where
  declaration : ∀ key ∈ g.declarationsOf project, g'.declaration? key = g.declaration? key
  links : ∀ m ∈ g.mentions (g.declarationsOf project), ∀ link, m.2.link? = some link →
    g'.links[link]? = g.links[link]?

/-- A run over a project that is as it was loaded starts like one with nothing before it. -/
theorem Graph.Untouched.carries {g before : Graph} {project : ProjectKey}
    (hu : g.Untouched before project) (h : g.Loaded project) (hg : g.Grown project before)
    (carried : Worklist) :
    Carries g project carried before false ⟨before, carried, {}⟩ { graph := g } where
  grown := hg
  fresh := h.grown
  declaration := hu.declaration
  links := hu.links
  others _ _ := Option.map_id'.symm
  otherLinks _ _ := rfl
  pending := (List.append_nil carried).symm
  within := List.nil_subset _
  nodup := List.nodup_nil
  tally := rfl

namespace Carries

variable {g before : Graph} {project other : ProjectKey} {carried : Worklist} {flushed : Bool}
  {s t : Sweep} (hc : Carries g project carried before flushed s t)
include hc

theorem view_eq (h : g.Loaded project) : s.graph.view project = t.graph.view project := by
  rw [Graph.view, Graph.view, hc.grown.alike.declarationsOf_eq, hc.fresh.alike.declarationsOf_eq]
  refine List.map_congr_left fun key hkey => ?_
  obtain ⟨d₀, hd₀, hbare⟩ := h.declaration key hkey
  obtain ⟨d, hd, he⟩ := hc.grown.alike.exists_declaration hd₀
  rw [← hc.declaration key hkey, hd, Option.map_some, Option.map_some]
  refine congrArg (fun targets => (key, some (d, targets))) (List.map_congr_left fun r hr => ?_)
  cases hlink : r.link? with
  | none =>
    rw [Reference.link?] at hlink
    split at hlink
    · cases hlink
    · next target hanchor =>
      rw [Graph.target?, Graph.target?, Reference.target?, Reference.target?, hanchor]
  | some link =>
    -- A reference with a link is none of the back edges, so that it was loaded.
    have hloaded : r ∈ d.references.filter (·.link?.isSome) :=
      List.mem_filter.mpr ⟨hr, by rw [hlink]; rfl⟩
    rw [Declaration.filter_references fun u hu =>
      hc.grown.gained key hkey d hd u (List.mem_append_left _ hu), he, hbare] at hloaded
    have hmem : r ∈ g.referencesAt key := by
      rw [Graph.referencesAt, hd₀]
      exact List.mem_of_mem_filter hloaded
    rw [Graph.target?_of_link hlink, Graph.target?_of_link hlink,
      hc.links (key, r) (Graph.mem_mentions.mpr ⟨hkey, hmem⟩) link hlink]

theorem links_other (hapart : g.Apart project other) {m : DeclKey × Reference}
    (hm : m ∈ g.mentions (g.declarationsOf other)) {link : LinkKey}
    (hlink : m.2.link? = some link) :
    s.graph.links[link]? = before.links[link]? :=
  hc.otherLinks link fun n hn he => hapart.links n hn m hm (he.trans hlink.symm)

theorem grown_other (hapart : g.Apart project other) (hg : g.Grown other before) :
    g.Grown other s.graph where
  alike := hc.grown.alike
  held key hkey r hr link hlink := by
    rw [hc.links_other hapart (Graph.mem_mentions.mpr ⟨hkey, hr⟩) hlink]
    exact hg.held key hkey r hr link hlink
  gained key hkey d hd t ht := by
    rw [hc.others key fun hmem => hapart.keys hmem hkey] at hd
    obtain ⟨d₀, hd₀, rfl⟩ := Option.map_eq_some_iff.mp hd
    have hedges := hg.gained key hkey d₀ hd₀
    rw [Declaration.flush] at ht
    split at ht
    · exact Declaration.isBackEdge_of_mem_chained hedges key t ht
    · exact hedges t ht

/-- Another project of which nothing is carried is as it was. -/
theorem untouched_other (hapart : g.Apart project other) (hu : g.Untouched before other)
    (hnone : ∀ key ∈ carried, key ∉ g.declarationsOf other) : g.Untouched s.graph other where
  declaration key hkey := by
    have hflush : ∀ d : Declaration, d.flush carried flushed key = d := fun d => by
      rw [Declaration.flush, decide_eq_false fun hmem => hnone key hmem hkey]
      simp
    rw [hc.others key fun hmem => hapart.keys hmem hkey]
    simp only [hflush, Option.map_id', hu.declaration key hkey]
  links m hm link hlink := by
    rw [hc.links_other hapart hm hlink]
    exact hu.links m hm link hlink

end Carries

end Lineage
