import Mathlib.Data.Prod.Lex

/-!
Stable sorting. Two lists that are sorted by a key are the same list if they agree on the elements of
each key, so a stable sort is told by two facts: its order, and what it leaves in place.
-/

namespace SourceTree

theorem mem_iff_of_fibers {α κ : Type} [LinearOrder κ] {key : α → κ} {as bs : List α}
    (fibers : ∀ k, as.filter (key · = k) = bs.filter (key · = k)) (x : α) : x ∈ as ↔ x ∈ bs := by
  have same : x ∈ as.filter (key · = key x) ↔ x ∈ bs.filter (key · = key x) := by
    rw [fibers]
  simpa using same

/-- Lists that are sorted by a key are equal if they agree on the elements of each key. -/
theorem eq_of_sorted_fibers {α κ : Type} [LinearOrder κ] {key : α → κ} {as bs : List α}
    (ha : as.Pairwise fun x y => key x ≤ key y) (hb : bs.Pairwise fun x y => key x ≤ key y)
    (fibers : ∀ k, as.filter (key · = k) = bs.filter (key · = k)) : as = bs := by
  induction as generalizing bs with
  | nil =>
    cases bs with
    | nil => rfl
    | cons b bs => exact absurd ((mem_iff_of_fibers fibers b).mpr (by simp)) (by simp)
  | cons a as ih =>
    cases bs with
    | nil => exact absurd ((mem_iff_of_fibers fibers a).mp (by simp)) (by simp)
    | cons b bs =>
      have least {x : α} {xs : List α} (h : (x :: xs).Pairwise fun x y => key x ≤ key y) {y : α}
          (hy : y ∈ x :: xs) : key x ≤ key y := by
        rcases List.mem_cons.mp hy with rfl | hy
        · exact le_refl _
        · exact (List.pairwise_cons.mp h).1 y hy
      have same : key b = key a :=
        le_antisymm (least hb ((mem_iff_of_fibers fibers a).mp (by simp)))
          (least ha ((mem_iff_of_fibers fibers b).mpr (by simp)))
      have head := fibers (key a)
      simp only [List.filter_cons, same, decide_true, if_true, List.cons.injEq] at head
      obtain ⟨rfl, -⟩ := head
      have tails : ∀ k, as.filter (key · = k) = bs.filter (key · = k) := by
        intro k
        have whole := fibers k
        simp only [List.filter_cons] at whole
        split at whole
        · exact (List.cons.inj whole).2
        · exact whole
      rw [ih (List.pairwise_cons.mp ha).2 (List.pairwise_cons.mp hb).2 tails]

/-- Sorting leaves elements in their order that are sorted already. -/
theorem filter_mergeSort {α : Type} {le : α → α → Bool} {p : α → Bool} {xs : List α}
    (trans : ∀ a b c, le a b = true → le b c = true → le a c = true)
    (total : ∀ a b, (le a b || le b a) = true)
    (sorted : (xs.filter p).Pairwise fun a b => le a b = true) :
    (xs.mergeSort le).filter p = xs.filter p := by
  have sub : List.Sublist (xs.filter p) (xs.mergeSort le) :=
    List.sublist_mergeSort trans total sorted List.filter_sublist
  have inside := sub.filter p
  simp only [List.filter_filter, Bool.and_self] at inside
  exact (inside.eq_of_length ((List.mergeSort_perm _ _).filter _).length_eq.symm).symm

/-- The second list is the first one in the order of a key, and elements of one key stand in it as
they stood. -/
structure StableSort {α κ : Type} [LinearOrder κ] (key : α → κ) (xs ys : List α) : Prop where
  sorted : ys.Pairwise fun x y => key x ≤ key y
  fibers : ∀ k, ys.filter (key · = k) = xs.filter (key · = k)

namespace StableSort

variable {α κ : Type} [LinearOrder κ] {key : α → κ} {xs ys before behind : List α} {x : α}

/-- An element with a least key comes first, also from behind elements with greater keys. -/
theorem cons (h : StableSort key (before ++ behind) ys) (greater : ∀ y ∈ before, key x < key y)
    (least : ∀ y ∈ behind, key x ≤ key y) : StableSort key (before ++ x :: behind) (x :: ys) := by
  constructor
  · rw [List.pairwise_cons]
    refine ⟨?_, h.sorted⟩
    intro y mem
    cases List.mem_append.mp ((mem_iff_of_fibers h.fibers y).mp mem) with
    | inl early => exact le_of_lt (greater y early)
    | inr late => exact least y late
  · intro k
    have rest := h.fibers k
    rw [List.filter_append] at rest ⊢
    by_cases same : key x = k
    · have none : before.filter (key · = k) = [] := by
        rw [List.filter_eq_nil_iff]
        intro y mem equal
        have lt := greater y mem
        simp only [decide_eq_true_eq] at equal
        rw [same, equal] at lt
        exact lt_irrefl k lt
      rw [none, List.nil_append] at rest ⊢
      simp [same, rest]
    · simp [same, rest]

theorem mergeSort (key : α → κ) (xs : List α) :
    StableSort key xs (xs.mergeSort fun x y => key x ≤ key y) := by
  have trans (a b c : α) (ab : decide (key a ≤ key b) = true) (bc : decide (key b ≤ key c) = true) :
      decide (key a ≤ key c) = true :=
    decide_eq_true (le_trans (of_decide_eq_true ab) (of_decide_eq_true bc))
  have total (a b : α) : (decide (key a ≤ key b) || decide (key b ≤ key a)) = true := by
    simpa using le_total (key a) (key b)
  constructor
  · have sorted := List.pairwise_mergeSort trans total xs
    exact sorted.imp of_decide_eq_true
  · intro k
    apply filter_mergeSort trans total
    have equal : ∀ x ∈ xs.filter (key · = k), key x = k := by simp
    refine List.Pairwise.imp_of_mem ?_ (List.pairwise_of_forall fun _ _ => trivial)
    intro a b ha hb _
    simp [equal a ha, equal b hb]

theorem eq_mergeSort (h : StableSort key xs ys) : ys = xs.mergeSort fun x y => key x ≤ key y := by
  have sort := mergeSort key xs
  apply eq_of_sorted_fibers h.sorted sort.sorted
  intro k
  rw [h.fibers, sort.fibers]

end StableSort

end SourceTree
