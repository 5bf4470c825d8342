import Lineage.Proofs.Loaded

/-!
# Linking references

Linking changes links alone. What a link becomes and how its reference is counted depends on the
reference and on the links before, never on the order in which references are met, as long as no
two of them share a link.
-/

namespace Lineage

theorem Reference.link?_eq_some {r : Reference} {link : LinkKey} :
    r.link? = some link ↔ r.anchor = .link link := by
  unfold link?
  split <;> simp_all

namespace Graph

theorem target?_of_link {g : Graph} {r : Reference} {link : LinkKey} (h : r.link? = some link) :
    g.target? r = (g.links[link]?.join).map .declaration := by
  rw [target?, Reference.target?, Reference.link?_eq_some.mp h]

theorem isLinked_of_link {g : Graph} {r : Reference} {link : LinkKey} (h : r.link? = some link) :
    g.isLinked r = g.links[link]?.join.isSome := by
  rw [isLinked, target?_of_link h, Option.isSome_map]

end Graph

def Tally.countReferences (t : Tally) (linked dangling : Nat) : Tally :=
  { t with
    referencesSeen := t.referencesSeen + (linked + dangling)
    referencesLinked := t.referencesLinked + linked
    referencesDangling := t.referencesDangling + dangling }

namespace Linking

variable (project : ProjectKey) (origin : DeclKey)

/-! ## One reference -/

theorem reference_of_bound (s : Linking) {r : Reference} (h : r.link? = none) :
    s.reference project origin r = s := by
  unfold Reference.link? at h
  unfold reference
  split at h
  · cases h
  · next target ht => simp only [ht]

theorem reference_of_link (s : Linking) {r : Reference} {link : LinkKey} (h : r.link? = some link) :
    s.reference project origin r =
      if s.graph.isLinked r then s
      else s.settle link (s.graph.named? project (.declaration origin) r) := by
  rw [reference, Reference.link?_eq_some.mp h]

theorem graph_reference (s : Linking) (r : Reference) :
    (s.reference project origin r).graph =
      { s.graph with links := (s.reference project origin r).graph.links } := by
  cases h : r.link? with
  | none => rw [reference_of_bound project origin s h]
  | some link =>
    rw [reference_of_link project origin s h]
    split
    · rfl
    · cases s.graph.named? project (.declaration origin) r <;> rfl

theorem alike_reference (s : Linking) (r : Reference) :
    Graph.Alike s.graph (s.reference project origin r).graph := by
  rw [graph_reference]
  exact Graph.Alike.setLinks _ _

theorem links_settle (s : Linking) (link other : LinkKey) (found : Option DeclKey) :
    (s.settle link found).graph.links[other]? =
      s.graph.links[other]?.map fun held => (if link = other then found else none).or held := by
  cases found with
  | none => simp [settle]
  | some key =>
    simp only [settle, Graph.setLink, Array.getElem?_modify]
    split
    · simp
    · simp

/-- An empty link becomes what its reference names; every other link stays. -/
theorem links_reference (s : Linking) (r : Reference) (link : LinkKey) :
    (s.reference project origin r).graph.links[link]? =
      s.graph.links[link]?.map fun held =>
        held.or (if r.link? = some link then s.graph.named? project (.declaration origin) r
          else none) := by
  cases h : r.link? with
  | none =>
    rw [reference_of_bound project origin s h]
    simp
  | some other =>
    rw [reference_of_link project origin s h, Graph.isLinked_of_link h]
    by_cases hother : other = link
    · subst hother
      split
      · next hl =>
        obtain ⟨key, hkey⟩ := Option.isSome_iff_exists.mp hl
        simp [Option.join_eq_some_iff.mp hkey]
      · next hl =>
        -- The link is missing or empty, so that nothing held is lost.
        rw [links_settle]
        cases hheld : s.graph.links[other]? with
        | none => rfl
        | some held =>
          have hnone : held = none := by simpa [hheld] using hl
          simp [hnone]
    · split
      · simp [hother]
      · rw [links_settle]
        simp [hother]

theorem tally_reference (s : Linking) {r : Reference} {link : LinkKey} (h : r.link? = some link) :
    (s.reference project origin r).tally =
      if s.graph.isLinked r then s.tally
      else s.tally.countReference (s.graph.named? project (.declaration origin) r).isSome := by
  rw [reference_of_link project origin s h]
  split
  · rfl
  · cases s.graph.named? project (.declaration origin) r <;> rfl

/-! ## All references of a list -/

theorem graph_references (rs : List Reference) (s : Linking) :
    (s.references project origin rs).graph =
      { s.graph with links := (s.references project origin rs).graph.links } := by
  induction rs generalizing s with
  | nil => rfl
  | cons r rs ih =>
    rw [references, List.foldl_cons, ← references, ih, graph_reference]

theorem alike_declaration (s : Linking) :
    Graph.Alike s.graph (s.declaration project origin).graph := by
  rw [declaration]
  split
  · rw [graph_references]
    exact .setLinks _ _
  · exact .refl _

/-- Bound references are passed over. -/
theorem references_filter_link (rs : List Reference) (s : Linking) :
    s.references project origin (rs.filter (·.link?.isSome)) = s.references project origin rs := by
  induction rs generalizing s with
  | nil => rfl
  | cons r rs ih =>
    cases h : r.link? with
    | none =>
      rw [List.filter_cons_of_neg (by simp [h]), ih, references, references, List.foldl_cons,
        reference_of_bound project origin s h]
    | some link =>
      rw [List.filter_cons_of_pos (by simp [h]), references, List.foldl_cons, ← references, ih]
      rfl

/-- An empty link becomes what the first of its references names that names anything. -/
theorem links_references (rs : List Reference) (s : Linking) (link : LinkKey) :
    (s.references project origin rs).graph.links[link]? =
      s.graph.links[link]?.map fun held =>
        held.or (rs.findSome? fun r =>
          if r.link? = some link then s.graph.named? project (.declaration origin) r
          else none) := by
  induction rs generalizing s with
  | nil => simp [references]
  | cons r rs ih =>
    rw [references, List.foldl_cons, ← references, ih, links_reference, Option.map_map]
    simp only [(alike_reference project origin s r).named?_eq, List.findSome?_cons]
    congr 1
    funext held
    simp only [Function.comp_apply, Option.or_assoc]
    congr 1
    cases (if r.link? = some link then s.graph.named? project (.declaration origin) r else none) <;>
      rfl

theorem links_references_of_notMem {rs : List Reference} {link : LinkKey}
    (h : some link ∉ rs.map Reference.link?) (s : Linking) :
    (s.references project origin rs).graph.links[link]? = s.graph.links[link]? := by
  have hnone : (rs.findSome? fun r =>
      if r.link? = some link then s.graph.named? project (.declaration origin) r else none) =
      none := by
    apply List.findSome?_eq_none_iff.mpr
    intro r hr
    exact if_neg fun he => h (List.mem_map.mpr ⟨r, hr, he⟩)
  rw [links_references, hnone]
  simp

private theorem findSome?_link? {rs : List Reference} (hrs : (rs.map Reference.link?).Nodup)
    {r : Reference} (hr : r ∈ rs) (f : Reference → Option DeclKey) :
    (rs.findSome? fun q => if q.link? = r.link? then f q else none) = f r := by
  induction rs with
  | nil => simp at hr
  | cons q qs ih =>
    obtain ⟨hnot, hqs⟩ := List.nodup_cons.mp hrs
    rw [List.findSome?_cons]
    rcases List.mem_cons.mp hr with rfl | hr
    · have hnone : (qs.findSome? fun q => if q.link? = r.link? then f q else none) = none := by
        apply List.findSome?_eq_none_iff.mpr
        intro q hq
        exact if_neg fun he => hnot (List.mem_map.mpr ⟨q, hq, he⟩)
      rw [if_pos rfl, hnone]
      cases f r <;> rfl
    · have hne : q.link? ≠ r.link? := fun he => hnot (he ▸ List.mem_map_of_mem hr)
      rw [if_neg hne]
      exact ih hqs hr

/-- A link that is held by one reference alone becomes what that reference names. -/
theorem links_references_of_mem {rs : List Reference} (hrs : (rs.map Reference.link?).Nodup)
    {r : Reference} (hr : r ∈ rs) {link : LinkKey} (hlink : r.link? = some link) (s : Linking) :
    (s.references project origin rs).graph.links[link]? =
      s.graph.links[link]?.map (·.or (s.graph.named? project (.declaration origin) r)) := by
  rw [links_references, ← hlink,
    findSome?_link? hrs hr fun q => s.graph.named? project (.declaration origin) q]

theorem isLinked_reference_of_ne (s : Linking) {r other : Reference} (h : r.link? ≠ other.link?) :
    (s.reference project origin r).graph.isLinked other = s.graph.isLinked other := by
  cases ho : other.link? with
  | none =>
    unfold Reference.link? at ho
    split at ho
    · cases ho
    · next t ht => simp only [Graph.isLinked, Graph.target?, Reference.target?, ht]
  | some link =>
    rw [Graph.isLinked_of_link ho, Graph.isLinked_of_link ho, links_reference,
      if_neg (ho ▸ h)]
    simp

/-- Every reference whose link is empty is counted once, by whether it names anything. -/
theorem tally_references {rs : List Reference} (hrs : (rs.map Reference.link?).Nodup)
    (hlink : ∀ r ∈ rs, r.link?.isSome) (s : Linking) :
    (s.references project origin rs).tally =
      s.tally.countReferences
        (rs.countP fun r => !s.graph.isLinked r &&
          (s.graph.named? project (.declaration origin) r).isSome)
        (rs.countP fun r => !s.graph.isLinked r &&
          (s.graph.named? project (.declaration origin) r).isNone) := by
  induction rs generalizing s with
  | nil => rfl
  | cons r rs ih =>
    obtain ⟨hnot, hrs⟩ := List.nodup_cons.mp hrs
    obtain ⟨link, hr⟩ := Option.isSome_iff_exists.mp (hlink r (by simp))
    have hsame : ∀ q ∈ rs, (s.reference project origin r).graph.isLinked q = s.graph.isLinked q :=
      fun q hq => isLinked_reference_of_ne project origin s
        fun he => hnot (he ▸ List.mem_map_of_mem hq)
    rw [references, List.foldl_cons, ← references,
      ih hrs (fun q hq => hlink q (List.mem_cons_of_mem _ hq)),
      tally_reference project origin s hr]
    simp only [(alike_reference project origin s r).named?_eq]
    have hcount : ∀ p : Reference → Bool,
        (rs.countP fun q => !(s.reference project origin r).graph.isLinked q && p q) =
          rs.countP fun q => !s.graph.isLinked q && p q := by
      intro p
      apply List.countP_congr
      intro q hq
      rw [hsame q hq]
    rw [hcount, hcount, List.countP_cons, List.countP_cons]
    cases s.graph.isLinked r with
    | true => simp
    | false =>
      cases s.graph.named? project (.declaration origin) r with
      | none => simp [Tally.countReferences, Tally.countReference]; omega
      | some key => simp [Tally.countReferences, Tally.countReference]; omega

end Linking

end Lineage
