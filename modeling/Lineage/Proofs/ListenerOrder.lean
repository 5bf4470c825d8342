import Lineage.Pipeline.Listeners
import Mathlib.Data.List.Induction
import Mathlib.Data.List.Nodup

/-!
# The order of listeners

Which callbacks an event calls, in terms of the calls that have registered and removed listeners:
those registrations of the event that no later call has removed, by descending priority, and in
their own order among equal priorities.
-/

namespace Lineage

theorem Priority.not_below_of_below {a b : Priority} (h : a.below b = true) :
    b.below a = false := by
  match a, b with
  | .lowest, .number _ => rfl
  | .lowest, .highest => rfl
  | .number _, .number _ => exact below_number.mpr (Rat.le_of_lt (of_decide_eq_true h))
  | .number _, .highest => rfl

/-- A call that changes the registrations of an event source. -/
inductive Request (κ : Type)
  | on (l : Listener κ)
  | off (event : String) (callback : κ)

namespace Listeners

variable {κ : Type}

/-! ## Histories -/

section Histories

variable [DecidableEq κ]

def request (ls : Listeners κ) : Request κ → Listeners κ
  | .on l => ls.subscribe l.event l.callback l.priority
  | .off event callback => ls.unsubscribe event callback

def replay (made : List (Request κ)) : Listeners κ :=
  made.foldl request []

def served (made : List (Request κ)) (event : String) : List κ :=
  (replay made).callbacks event

theorem replay_concat (made : List (Request κ)) (r : Request κ) :
    replay (made ++ [r]) = (replay made).request r := by
  rw [replay, List.foldl_append]
  rfl

end Histories

/-- A listener was registered at a time of the history, and has not been removed since. -/
def Stands (made : List (Request κ)) (time : Nat) (l : Listener κ) : Prop :=
  made[time]? = some (.on l) ∧ ∀ later > time, made[later]? ≠ some (.off l.event l.callback)

/-- A registration is served before another one: of a higher priority, or an earlier one. -/
def Precedes (a b : Nat × Listener κ) : Prop :=
  b.2.priority.below a.2.priority = true ∨ a.2.priority = b.2.priority ∧ a.1 < b.1

theorem Precedes.irrefl {a : Nat × Listener κ} : ¬ Precedes a a := by
  rintro (h | ⟨-, h⟩)
  · rw [Priority.below_irrefl] at h
    cases h
  · omega

/-! ## Standing registrations -/

theorem Stands.lt {made : List (Request κ)} {time : Nat} {l : Listener κ}
    (h : Stands made time l) : time < made.length :=
  (List.getElem?_eq_some_iff.mp h.1).1

/-- A history that is one call longer has this call at its end. -/
theorem getElem?_concat_eq_some {made : List (Request κ)} {r s : Request κ} {time : Nat} :
    (made ++ [r])[time]? = some s ↔ made[time]? = some s ∨ time = made.length ∧ r = s := by
  rcases Nat.lt_trichotomy time made.length with hlt | rfl | hgt
  · simp [List.getElem?_append_left hlt, Nat.ne_of_lt hlt]
  · simp
  · rw [List.getElem?_eq_none (by simp; omega), List.getElem?_eq_none (Nat.le_of_lt hgt)]
    simp [Nat.ne_of_gt hgt]

theorem stands_concat_on {made : List (Request κ)} {m l : Listener κ} {time : Nat} :
    Stands (made ++ [.on m]) time l ↔ (time = made.length ∧ l = m) ∨ Stands made time l := by
  simp only [Stands, ne_eq, getElem?_concat_eq_some, reduceCtorEq, and_false, or_false,
    Request.on.injEq]
  constructor
  · rintro ⟨hmade | ⟨rfl, rfl⟩, hlater⟩
    · exact .inr ⟨hmade, hlater⟩
    · exact .inl ⟨rfl, rfl⟩
  · rintro (⟨rfl, rfl⟩ | ⟨hmade, hlater⟩)
    · refine ⟨.inr ⟨rfl, rfl⟩, fun later hgt hoff => ?_⟩
      have hlt := (List.getElem?_eq_some_iff.mp hoff).1
      omega
    · exact ⟨.inl hmade, hlater⟩

/-- A removal leaves what is registered for another event or with another callback. -/
theorem stands_concat_off {made : List (Request κ)} {event : String} {callback : κ}
    {l : Listener κ} {time : Nat} :
    Stands (made ++ [.off event callback]) time l ↔
      Stands made time l ∧ ¬ (l.event = event ∧ l.callback = callback) := by
  simp only [Stands, ne_eq, getElem?_concat_eq_some, reduceCtorEq, and_false, or_false,
    Request.off.injEq, not_or]
  constructor
  · rintro ⟨hmade, hlater⟩
    have hlt := (List.getElem?_eq_some_iff.mp hmade).1
    exact ⟨⟨hmade, fun later hgt => (hlater later hgt).1⟩,
      fun h => (hlater made.length hlt).2 ⟨rfl, h.1.symm, h.2.symm⟩⟩
  · rintro ⟨⟨hmade, hlater⟩, hother⟩
    exact ⟨hmade, fun later hgt => ⟨hlater later hgt,
      fun h => hother ⟨h.2.1.symm, h.2.2.symm⟩⟩⟩

/-! ## Order -/

theorem Precedes.not_below {a b : Nat × Listener κ} (h : Precedes a b) :
    a.2.priority.below b.2.priority = false := by
  rcases h with h | ⟨h, -⟩
  · exact Priority.not_below_of_below h
  · rw [h, Priority.below_irrefl]

/-- A later registration takes its place in what is ordered already. -/
theorem exists_insert {entries : List (Nat × Listener κ)} (h : entries.Pairwise Precedes)
    (time : Nat) (htime : ∀ a ∈ entries, a.1 < time) (l : Listener κ) :
    ∃ entries' : List (Nat × Listener κ), entries'.map (·.2) = add l (entries.map (·.2)) ∧
      entries'.Perm ((time, l) :: entries) ∧ entries'.Pairwise Precedes := by
  induction entries with
  | nil => exact ⟨[(time, l)], rfl, .refl _, List.pairwise_singleton _ _⟩
  | cons a entries ih =>
    rw [List.forall_mem_cons] at htime
    rw [List.pairwise_cons] at h
    by_cases hbelow : a.2.priority.below l.priority = true
    · refine ⟨(time, l) :: a :: entries, by simp [add, hbelow], .refl _, ?_⟩
      refine List.pairwise_cons.mpr ⟨fun b hb => .inl ?_, List.pairwise_cons.mpr h⟩
      rcases List.mem_cons.mp hb with rfl | hb
      · exact hbelow
      · by_contra hnot
        rw [Bool.not_eq_true] at hnot
        rw [Priority.not_below_trans (h.1 b hb).not_below hnot] at hbelow
        cases hbelow
    · obtain ⟨entries', hmap, hperm, horder⟩ := ih h.2 htime.2
      refine ⟨a :: entries', by simp [add, hbelow, hmap], ?_, ?_⟩
      · exact (hperm.cons a).trans (.swap (time, l) a entries)
      · refine List.pairwise_cons.mpr ⟨fun b hb => ?_, horder⟩
        rcases List.mem_cons.mp (hperm.mem_iff.mp hb) with rfl | hb
        · rw [Bool.not_eq_true] at hbelow
          by_cases hl : l.priority.below a.2.priority = true
          · exact .inl hl
          · rw [Bool.not_eq_true] at hl
            exact .inr ⟨Priority.eq_of_not_below hbelow hl, htime.1⟩
        · exact h.1 b hb

/-! ## Sorted registrations -/

/-- No listener stands behind one of a lower priority. -/
def Sorted (ls : Listeners κ) : Prop :=
  ls.Pairwise fun a b => a.priority.below b.priority = false

theorem add_perm (l : Listener κ) (ls : Listeners κ) : (add l ls).Perm (l :: ls) := by
  induction ls with
  | nil => exact .refl _
  | cons m ms ih =>
    rw [add]
    split
    · exact .refl _
    · exact (ih.cons m).trans (.swap l m ms)

/-- What stands behind a listener of a lower priority is of a lower priority as well. -/
theorem below_of_sorted_cons {m l : Listener κ} {ms : Listeners κ} (h : Sorted (m :: ms))
    (hbelow : m.priority.below l.priority = true) :
    ∀ x ∈ m :: ms, x.priority.below l.priority = true := by
  intro x hx
  rcases List.mem_cons.mp hx with rfl | hx
  · exact hbelow
  · by_contra hnot
    rw [Bool.not_eq_true] at hnot
    rw [Priority.not_below_trans ((List.pairwise_cons.mp h).1 x hx) hnot] at hbelow
    cases hbelow

theorem Sorted.add {ls : Listeners κ} (h : Sorted ls) (l : Listener κ) : Sorted (add l ls) := by
  induction ls with
  | nil => exact List.pairwise_singleton _ _
  | cons m ms ih =>
    rw [Listeners.add]
    split
    · next hbelow =>
      refine List.pairwise_cons.mpr ⟨fun x hx => ?_, h⟩
      exact Priority.not_below_of_below (below_of_sorted_cons h hbelow x hx)
    · next hbelow =>
      refine List.pairwise_cons.mpr ⟨fun x hx => ?_, ih (List.pairwise_cons.mp h).2⟩
      rcases List.mem_cons.mp ((add_perm l ms).mem_iff.mp hx) with rfl | hx
      · rwa [Bool.not_eq_true] at hbelow
      · exact (List.pairwise_cons.mp h).1 x hx

theorem add_eq_cons {l : Listener κ} {ls : Listeners κ}
    (h : ∀ x ∈ ls, x.priority.below l.priority = true) : add l ls = l :: ls := by
  cases ls with
  | nil => rfl
  | cons m ms => rw [add, if_pos (h m List.mem_cons_self)]

/-- Whether others are removed before or after a registration makes no difference to it. -/
theorem filter_add {p : Listener κ → Bool} {l : Listener κ} (hl : p l = true)
    {ls : Listeners κ} (h : Sorted ls) : (add l ls).filter p = add l (ls.filter p) := by
  induction ls with
  | nil => simp [add, hl]
  | cons m ms ih =>
    rw [add]
    split
    · next hbelow =>
      rw [List.filter_cons, if_pos hl]
      refine (add_eq_cons fun x hx => ?_).symm
      exact below_of_sorted_cons h hbelow x (List.mem_filter.mp hx).1
    · next hbelow =>
      rw [List.filter_cons, List.filter_cons, ih (List.pairwise_cons.mp h).2]
      split
      · rw [add, if_neg hbelow]
      · rfl

/-! ## What is served -/

section Served

variable [DecidableEq κ]

/-- The standing registrations of a history, in the order in which they are served. -/
theorem exists_standing (made : List (Request κ)) :
    ∃ entries : List (Nat × Listener κ), replay made = entries.map (·.2) ∧
      (∀ time l, (time, l) ∈ entries ↔ Stands made time l) ∧ entries.Pairwise Precedes := by
  induction made using List.reverseRecOn with
  | nil => exact ⟨[], rfl, fun time l => ⟨nofun, fun h => nomatch h.1⟩, .nil⟩
  | append_singleton made r ih =>
    obtain ⟨entries, hreplay, hmem, horder⟩ := ih
    rw [replay_concat, hreplay]
    cases r with
    | on l =>
      obtain ⟨entries', hmap, hperm, horder'⟩ :=
        exists_insert horder made.length (fun a ha => ((hmem a.1 a.2).mp ha).lt) l
      refine ⟨entries', hmap.symm, fun time m => ?_, horder'⟩
      rw [hperm.mem_iff, List.mem_cons, hmem, stands_concat_on, Prod.mk.injEq]
    | off event callback =>
      refine ⟨entries.filter fun a => !(a.2.event == event && a.2.callback == callback), ?_,
        fun time m => ?_, horder.filter _⟩
      · rw [request, unsubscribe, List.filter_map]
        rfl
      · rw [List.mem_filter, hmem, stands_concat_off]
        simp only [Bool.not_eq_true', Bool.and_eq_false_iff, beq_eq_false_iff_ne, ne_eq,
          not_and_or]

/--
An event calls the callbacks of its standing registrations, each once, by descending priority and in
their own order among equal priorities.
-/
theorem exists_served (made : List (Request κ)) (event : String) :
    ∃ entries : List (Nat × Listener κ), served made event = entries.map (·.2.callback) ∧
      (∀ time l, (time, l) ∈ entries ↔ Stands made time l ∧ l.event = event) ∧
      entries.Nodup ∧ entries.Pairwise Precedes := by
  obtain ⟨entries, hreplay, hmem, horder⟩ := exists_standing made
  have hfilter := horder.filter (·.2.event == event)
  refine ⟨entries.filter (·.2.event == event), ?_, fun time l => ?_, ?_, hfilter⟩
  · rw [served, callbacks, hreplay, List.filter_map, List.map_map]
    rfl
  · rw [List.mem_filter, hmem, beq_iff_eq]
  · refine hfilter.imp fun {a b} hab => ?_
    rintro rfl
    exact Precedes.irrefl hab

/-- A removal takes a callback from its event wherever it stands, and nothing else. -/
theorem served_concat_off (made : List (Request κ)) (event other : String) (callback : κ) :
    served (made ++ [.off event callback]) other =
      if other = event then (served made other).filter (· ≠ callback) else served made other := by
  rw [served, served, replay_concat, request, unsubscribe, callbacks, callbacks,
    List.filter_filter]
  split
  · next h =>
    subst h
    rw [List.filter_map, List.filter_filter]
    congr 1
    apply List.filter_congr
    intro l _
    by_cases he : l.event = other
    · rw [Bool.eq_iff_iff]
      simp [he]
    · simp [beq_false_of_ne he]
  · next h =>
    congr 1
    apply List.filter_congr
    intro l _
    by_cases he : l.event = other
    · simp [he, h]
    · simp [beq_false_of_ne he]

end Served

end Listeners

end Lineage
