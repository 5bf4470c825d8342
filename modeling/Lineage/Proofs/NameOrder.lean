import Lineage.Declaration
import Mathlib.Data.String.Basic
import Mathlib.Data.List.Sort

/-!
# Sorting by name

A stable sort keeps, for each key, the sequence of the entries that have it. Together with the
ascending order this determines its result, so that `sortByName` is the merge sort by name.
-/

namespace Lineage

/-! ## Stable sorts -/

section Stable

variable {α β : Type*} [LinearOrder β] (key : α → β)

/-- Two ascending lists that hold the same entries under every key, in the same order, are equal. -/
theorem eq_of_filter_key_eq {xs ys : List α}
    (hx : xs.Pairwise (fun a b => key a ≤ key b)) (hy : ys.Pairwise (fun a b => key a ≤ key b))
    (h : ∀ k, xs.filter (fun a => decide (key a = k)) = ys.filter (fun a => decide (key a = k))) :
    xs = ys := by
  induction xs generalizing ys with
  | nil =>
    cases ys with
    | nil => rfl
    | cons y ys => simpa using h (key y)
  | cons x xs ih =>
    have hmem : x ∈ ys := by
      have hx' : x ∈ (x :: xs).filter (fun a => decide (key a = key x)) := by simp
      rw [h (key x)] at hx'
      exact (List.mem_filter.mp hx').1
    cases ys with
    | nil => simp at hmem
    | cons y ys =>
      have hmem' : y ∈ x :: xs := by
        have hy' : y ∈ (y :: ys).filter (fun a => decide (key a = key y)) := by simp
        rw [← h (key y)] at hy'
        exact (List.mem_filter.mp hy').1
      -- Each head is the least entry of its own list and occurs in the other one.
      have hyx : key y ≤ key x := by
        rcases List.mem_cons.mp hmem with rfl | hmem
        · exact le_rfl
        · exact List.rel_of_pairwise_cons hy hmem
      have hxy : key x ≤ key y := by
        rcases List.mem_cons.mp hmem' with rfl | hmem'
        · exact le_rfl
        · exact List.rel_of_pairwise_cons hx hmem'
      have hkey : key y = key x := le_antisymm hyx hxy
      have hhead := h (key x)
      simp only [List.filter_cons, hkey, decide_true, ite_true, List.cons.injEq] at hhead
      obtain ⟨rfl, -⟩ := hhead
      rw [ih hx.of_cons hy.of_cons]
      intro k
      have hk := h k
      by_cases hxk : key x = k
      · simpa [List.filter_cons, hxk] using hk
      · simpa [List.filter_cons, hxk] using hk

def ascending (a b : α) : Bool :=
  decide (key a ≤ key b)

theorem ascending_trans (a b c : α) (hab : ascending key a b) (hbc : ascending key b c) :
    ascending key a c := by
  simp only [ascending, decide_eq_true_eq] at *
  exact hab.trans hbc

theorem ascending_total (a b : α) : (ascending key a b || ascending key b a) = true := by
  simp only [ascending, Bool.or_eq_true, decide_eq_true_eq]
  exact le_total _ _

theorem pairwise_mergeSort_ascending (xs : List α) :
    (xs.mergeSort (ascending key)).Pairwise (fun a b => key a ≤ key b) := by
  have h : (xs.mergeSort (ascending key)).Pairwise (fun a b => ascending key a b = true) :=
    List.pairwise_mergeSort (ascending_trans key) (ascending_total key) xs
  simpa only [ascending, decide_eq_true_eq] using h

/-- Merge sort keeps the sequence of the entries under each key. -/
theorem filter_mergeSort_ascending (xs : List α) (k : β) :
    (xs.mergeSort (ascending key)).filter (fun a => decide (key a = k)) =
      xs.filter (fun a => decide (key a = k)) := by
  have hsub : (xs.filter (fun a => decide (key a = k))).Sublist (xs.mergeSort (ascending key)) := by
    refine List.sublist_mergeSort (ascending_trans key) (ascending_total key) ?_
      List.filter_sublist
    refine List.pairwise_of_forall_mem_list fun a ha b hb => ?_
    simp only [List.mem_filter, decide_eq_true_eq] at ha hb
    simp [ascending, ha.2, hb.2]
  have hfilter := hsub.filter (fun a => decide (key a = k))
  rw [List.filter_filter] at hfilter
  simp only [Bool.and_self] at hfilter
  refine (hfilter.eq_of_length ?_).symm
  exact ((List.mergeSort_perm xs _).filter _).length_eq.symm

/-- Some of the entries are sorted as they stand among all. -/
theorem mergeSort_ascending_filter (xs : List α) (p : α → Bool) :
    (xs.filter p).mergeSort (ascending key) = (xs.mergeSort (ascending key)).filter p := by
  apply eq_of_filter_key_eq key (pairwise_mergeSort_ascending key _)
    ((pairwise_mergeSort_ascending key _).filter p)
  intro k
  rw [filter_mergeSort_ascending, List.filter_comm, List.filter_comm _ p,
    filter_mergeSort_ascending]

/-- Sorting a part beforehand does not change what sorting the whole comes to. -/
theorem mergeSort_ascending_append (xs ys : List α) :
    (xs.mergeSort (ascending key) ++ ys).mergeSort (ascending key) =
      (xs ++ ys).mergeSort (ascending key) := by
  apply eq_of_filter_key_eq key (pairwise_mergeSort_ascending key _)
    (pairwise_mergeSort_ascending key _)
  intro k
  rw [filter_mergeSort_ascending, filter_mergeSort_ascending, List.filter_append,
    List.filter_append, filter_mergeSort_ascending]

/-- Sorted lists of the same entries have the same sequence of keys. -/
theorem map_mergeSort_ascending_of_perm {xs ys : List α} (h : xs.Perm ys) :
    (xs.mergeSort (ascending key)).map key = (ys.mergeSort (ascending key)).map key := by
  have hperm := (List.mergeSort_perm xs (ascending key)).trans
    (h.trans (List.mergeSort_perm ys (ascending key)).symm)
  refine (hperm.map key).eq_of_pairwise (fun a b _ _ hab hba => le_antisymm hab hba) ?_ ?_
  · exact List.pairwise_map.mpr (pairwise_mergeSort_ascending key xs)
  · exact List.pairwise_map.mpr (pairwise_mergeSort_ascending key ys)

/-- Sorted lists of the same entries are equal if no two entries share a key. -/
theorem mergeSort_ascending_eq_of_perm {xs ys : List α} (h : xs.Perm ys)
    (hkey : ∀ a ∈ xs, ∀ b ∈ xs, key a = key b → a = b) :
    xs.mergeSort (ascending key) = ys.mergeSort (ascending key) := by
  have hperm := (List.mergeSort_perm xs (ascending key)).trans
    (h.trans (List.mergeSort_perm ys (ascending key)).symm)
  refine hperm.eq_of_pairwise (fun a b ha hb hab hba => ?_)
    (pairwise_mergeSort_ascending key xs) (pairwise_mergeSort_ascending key ys)
  rw [List.mem_mergeSort] at ha hb
  exact hkey a ha b (h.mem_iff.mpr hb) (le_antisymm hab hba)

end Stable

/-! ## Implementers -/

namespace Declaration

def nameKey (t : TypeExpr) : String :=
  t.name?.getD ""

def AllNamed (ts : List TypeExpr) : Prop :=
  ∀ t ∈ ts, t.name?.isSome

theorem namePrecedes_iff {a b : TypeExpr} (ha : a.name?.isSome) (hb : b.name?.isSome) :
    namePrecedes a b = decide (nameKey a < nameKey b) := by
  obtain ⟨x, hx⟩ := Option.isSome_iff_exists.mp ha
  obtain ⟨y, hy⟩ := Option.isSome_iff_exists.mp hb
  simp only [namePrecedes, nameKey, hx, hy, Option.getD_some]

theorem insertByName_perm (t : TypeExpr) (ts : List TypeExpr) :
    (insertByName t ts).Perm (t :: ts) := by
  induction ts with
  | nil => exact List.Perm.refl _
  | cons u us ih =>
    simp only [insertByName]
    split
    · exact List.Perm.refl _
    · exact (ih.cons u).trans (List.Perm.swap t u us)

theorem pairwise_insertByName {t : TypeExpr} {ts : List TypeExpr} (ht : t.name?.isSome)
    (hts : AllNamed ts) (h : ts.Pairwise (fun a b => nameKey a ≤ nameKey b)) :
    (insertByName t ts).Pairwise (fun a b => nameKey a ≤ nameKey b) := by
  induction ts with
  | nil => simp [insertByName]
  | cons u us ih =>
    have hu : u.name?.isSome := hts u (by simp)
    simp only [insertByName, namePrecedes_iff ht hu, decide_eq_true_eq]
    split
    · next hlt =>
      refine List.pairwise_cons.mpr ⟨?_, h⟩
      intro v hv
      rcases List.mem_cons.mp hv with rfl | hv
      · exact hlt.le
      · exact hlt.le.trans (List.rel_of_pairwise_cons h hv)
    · next hlt =>
      refine List.pairwise_cons.mpr ⟨?_, ih (fun v hv => hts v (by simp [hv])) h.of_cons⟩
      intro v hv
      rcases List.mem_cons.mp ((insertByName_perm t us).mem_iff.mp hv) with rfl | hv
      · exact not_lt.mp hlt
      · exact List.rel_of_pairwise_cons h hv

/-- A type is inserted behind the entries of its own name. -/
theorem filter_insertByName {t : TypeExpr} {ts : List TypeExpr} (ht : t.name?.isSome)
    (hts : AllNamed ts) (h : ts.Pairwise (fun a b => nameKey a ≤ nameKey b)) (k : String) :
    (insertByName t ts).filter (fun a => decide (nameKey a = k)) =
      (ts ++ [t]).filter (fun a => decide (nameKey a = k)) := by
  induction ts with
  | nil => rfl
  | cons u us ih =>
    have hu : u.name?.isSome := hts u (by simp)
    simp only [insertByName, namePrecedes_iff ht hu, decide_eq_true_eq]
    split
    · next hlt =>
      by_cases hk : nameKey t = k
      · -- Everything behind the place of insertion has a greater name.
        have hnone : (u :: us).filter (fun a => decide (nameKey a = k)) = [] := by
          apply List.filter_eq_nil_iff.mpr
          intro v hv
          have hle : nameKey u ≤ nameKey v := by
            rcases List.mem_cons.mp hv with rfl | hv
            · exact le_rfl
            · exact List.rel_of_pairwise_cons h hv
          simp only [decide_eq_true_eq]
          exact fun he => absurd (hlt.trans_le hle) (by rw [hk, he]; exact lt_irrefl k)
        rw [List.filter_cons, List.filter_append, hnone]
        simp [hk]
      · simp [List.filter_append, List.filter_cons, hk]
    · rw [List.cons_append, List.filter_cons, List.filter_cons,
        ih (fun v hv => hts v (by simp [hv])) h.of_cons]

private theorem foldl_insertByName {ts acc : List TypeExpr} (hts : AllNamed ts)
    (hacc : AllNamed acc) (h : acc.Pairwise (fun a b => nameKey a ≤ nameKey b)) :
    (ts.foldl (fun sorted t => insertByName t sorted) acc).Pairwise
        (fun a b => nameKey a ≤ nameKey b) ∧
      ∀ k, (ts.foldl (fun sorted t => insertByName t sorted) acc).filter
          (fun a => decide (nameKey a = k)) =
        (acc ++ ts).filter (fun a => decide (nameKey a = k)) := by
  induction ts generalizing acc with
  | nil => exact ⟨h, fun k => by simp⟩
  | cons t ts ih =>
    have ht : t.name?.isSome := hts t (by simp)
    have hacc' : AllNamed (insertByName t acc) := by
      intro v hv
      rcases List.mem_cons.mp ((insertByName_perm t acc).mem_iff.mp hv) with rfl | hv
      · exact ht
      · exact hacc v hv
    obtain ⟨hsorted, hfilter⟩ := ih (fun v hv => hts v (by simp [hv])) hacc'
      (pairwise_insertByName ht hacc h)
    refine ⟨hsorted, fun k => ?_⟩
    rw [List.foldl_cons, hfilter k, List.filter_append, filter_insertByName ht hacc h k,
      ← List.filter_append, List.append_assoc, List.singleton_append]

/-- Sorting by name is the stable ascending sort. -/
theorem sortByName_eq_mergeSort {ts : List TypeExpr} (h : AllNamed ts) :
    sortByName ts = ts.mergeSort (ascending nameKey) := by
  have hnil : AllNamed [] := fun t ht => absurd ht List.not_mem_nil
  obtain ⟨hsorted, hfilter⟩ := foldl_insertByName h hnil List.Pairwise.nil
  apply eq_of_filter_key_eq nameKey hsorted (pairwise_mergeSort_ascending nameKey ts)
  intro k
  rw [filter_mergeSort_ascending, hfilter k, List.nil_append]

theorem sortByName_perm {ts : List TypeExpr} (h : AllNamed ts) : (sortByName ts).Perm ts := by
  rw [sortByName_eq_mergeSort h]
  exact List.mergeSort_perm ts _

theorem sortImplementers?_eq {d : Declaration} (h : ∀ ts, d.implementedBy = some ts → AllNamed ts) :
    d.sortImplementers? = some { d with implementedBy := d.implementedBy.map sortByName } := by
  unfold sortImplementers?
  split
  · next hd => rw [hd, Option.map_none, ← hd]
  · next ts hd =>
    have hall : ts.all (·.name?.isSome) = true := List.all_eq_true.mpr (h ts hd)
    simp [hd, hall]

end Declaration

end Lineage
