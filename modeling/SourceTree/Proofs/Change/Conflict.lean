import Mathlib.Data.List.Forall2
import Mathlib.Data.List.Nodup
import SourceTree.Proofs.Change.Sweep

/-!
Conflicts between the changes of a batch, and what a check of the batch says about them: the faults
of single changes come first, then overlaps, which name conflicting changes only and name each of
them at least once.
-/

namespace SourceTree.Change

variable {allowTouching : Bool} {source : Text} {changes : List Change}

instance (source : Text) (c : Change) : Decidable (WellFormed source c) :=
  decidable_of_iff _ fault?_eq_none_iff

/-- An edit belongs to the well-formed change at a place of the batch. -/
def Owns (source : Text) (changes : List Change) (index : Nat) (e : Edit) : Prop :=
  ∃ c, changes[index]? = some c ∧ WellFormed source c ∧ e ∈ c.edits source index

/-- Two different changes of a batch own edits that overlap. -/
def Conflict (allowTouching : Bool) (source : Text) (changes : List Change) (i j : Nat) : Prop :=
  i ≠ j ∧ ∃ a b, Owns source changes i a ∧ Owns source changes j b ∧ a.Overlaps allowTouching b

theorem faults_forall₂ (source : Text) (changes : List Change) :
    List.Forall₂ (Fails source) (changes.filter fun c => ¬WellFormed source c)
      (changes.filterMap (fault? source)) := by
  induction changes with
  | nil => simp
  | cons c cs ih =>
    rcases fault?_cases source c with ⟨h, hw⟩ | ⟨e, h, hf, hw⟩
    · simpa [h, hw] using ih
    · rw [List.filter_cons_of_pos (by simpa using hw), List.filterMap_cons_some h]
      exact .cons hf ih

theorem faults_eq_nil_iff :
    changes.filterMap (fault? source) = [] ↔ ∀ c ∈ changes, WellFormed source c := by
  simp [List.filterMap_eq_nil_iff, fault?_eq_none_iff]

theorem mem_sortedEdits {e : Edit} :
    e ∈ sortedEdits source changes ↔ Owns source changes e.index e := by
  simp only [sortedEdits, List.mem_mergeSort, List.mem_flatMap, Prod.exists,
    List.mem_zipIdx_iff_getElem?, Option.isNone_iff_eq_none, fault?_eq_none_iff]
  constructor
  · rintro ⟨c, index, hc, he⟩
    split at he
    next hw =>
      obtain rfl := edits_index he
      exact ⟨c, hc, hw, he⟩
    next => simp at he
  · rintro ⟨c, hc, hw, he⟩
    exact ⟨c, e.index, hc, by rwa [if_pos hw]⟩

theorem sortedEdits_sorted (source : Text) (changes : List Change) :
    (sortedEdits source changes).Pairwise fun a b => Edit.le a b = true :=
  List.pairwise_mergeSort Edit.le_trans Edit.le_total _

theorem sortedEdits_ordered {e : Edit} (h : e ∈ sortedEdits source changes) :
    e.start ≤ e.stop := by
  obtain ⟨c, _, hw, he⟩ := mem_sortedEdits.mp h
  exact (hw.edit_boundaries he).1

theorem zipIdx_index_ne {α : Type} (as : List α) : as.zipIdx.Pairwise fun p q => p.2 ≠ q.2 := by
  have nodup : (as.zipIdx.map Prod.snd).Nodup := by
    rw [List.zipIdx_map_snd]
    exact List.nodup_range'
  exact List.pairwise_map.mp nodup

/-- Edits of one change stay clear of each other, wherever they stand in the sorted list. -/
theorem sortedEdits_own (source : Text) (changes : List Change) :
    (sortedEdits source changes).Pairwise fun a b => a.index = b.index → ¬a.Overlaps true b := by
  unfold sortedEdits
  have symm : ∀ {a b : Edit}, (a.index = b.index → ¬a.Overlaps true b) →
      b.index = a.index → ¬b.Overlaps true a :=
    fun h same overlap => h same.symm overlap.symm
  rw [(List.mergeSort_perm _ _).pairwise_iff symm, List.pairwise_flatMap]
  constructor
  · rintro ⟨c, index⟩ -
    simp only [Option.isNone_iff_eq_none, fault?_eq_none_iff]
    split
    next hw =>
      refine (hw.edits_apart index).imp ?_
      intro a b apart _
      exact apart
    next => exact List.Pairwise.nil
  · refine (zipIdx_index_ne changes).imp ?_
    rintro ⟨c, i⟩ ⟨d, j⟩ ne a ha b hb same
    have checked (c : Change) (i : Nat) (e : Edit)
        (he : e ∈ if (c.fault? source).isNone then c.edits source i else []) : e.index = i := by
      split at he
      · exact edits_index he
      · simp at he
    rw [checked c i a ha, checked d j b hb] at same
    exact absurd same ne

/-- The pairs of changes that a check of the batch reports as overlapping. -/
def overlappingPairs (allowTouching : Bool) (source : Text) (changes : List Change) :
    List (Nat × Nat) :=
  (Sweep.run allowTouching {} (sortedEdits source changes)).map fun r => (r.1.index, r.2.index)

theorem overlappingPairs_conflict {p : Nat × Nat}
    (h : p ∈ overlappingPairs allowTouching source changes) :
    Conflict allowTouching source changes p.1 p.2 := by
  obtain ⟨⟨a, b⟩, hr, rfl⟩ := List.mem_map.mp h
  obtain ⟨ha, hb, hi, overlap⟩ := Sweep.run_sound (sortedEdits_sorted source changes)
    (fun _ he => sortedEdits_ordered he) (by simp) hr
  have ha' : a ∈ sortedEdits source changes := by simpa using ha
  exact ⟨hi, a, b, mem_sortedEdits.mp ha', mem_sortedEdits.mp hb, overlap⟩

theorem overlappingPairs_distinct (allowTouching : Bool) (source : Text) (changes : List Change) :
    (overlappingPairs allowTouching source changes).Pairwise fun p q =>
      p ≠ q ∧ p ≠ q.swap := by
  have nodup := Sweep.after_reported_nodup allowTouching {} (sortedEdits source changes)
    List.nodup_nil
  rw [Sweep.after_reported, List.append_nil, List.nodup_reverse] at nodup
  refine List.pairwise_map.mpr ((List.pairwise_map.mp nodup).imp ?_)
  rintro ⟨a, b⟩ ⟨c, d⟩ ne
  simp only [Sweep.pair, ne_eq, Prod.mk.injEq, Prod.swap_prod_mk, not_and] at ne ⊢
  constructor
  · intro h1 h2
    exact ne (by rw [h1, h2]) (by rw [h1, h2])
  · intro h1 h2
    exact ne (by rw [h1, h2, Nat.min_comm]) (by rw [h1, h2, Nat.max_comm])

theorem conflict_named {i j : Nat} (h : Conflict allowTouching source changes i j) :
    ∃ p ∈ overlappingPairs allowTouching source changes, p.1 = i ∨ p.2 = i := by
  obtain ⟨ne, a, b, ha, hb, overlap⟩ := h
  have hia : a.index = i := by
    obtain ⟨c, _, _, he⟩ := ha
    exact edits_index he
  have hjb : b.index = j := by
    obtain ⟨c, _, _, he⟩ := hb
    exact edits_index he
  obtain ⟨p, hp, hi⟩ := Sweep.overlap_named (sortedEdits_sorted source changes)
    (fun _ he => sortedEdits_ordered he) (sortedEdits_own source changes)
    (mem_sortedEdits.mpr (hia ▸ ha)) (mem_sortedEdits.mpr (hjb ▸ hb)) (by omega) overlap
  rw [Sweep.after_reported, List.append_nil, List.mem_reverse, List.mem_map] at hp
  obtain ⟨r, hr, rfl⟩ := hp
  refine ⟨(r.1.index, r.2.index), List.mem_map.mpr ⟨r, hr, rfl⟩, ?_⟩
  simp only [Sweep.pair] at hi ⊢
  omega

theorem validate_eq (allowTouching : Bool) (source : Text) (changes : List Change) :
    validate allowTouching source changes = changes.filterMap (fault? source) ++
      (overlappingPairs allowTouching source changes).map fun p =>
        .overlap (labelAt changes p.1) (labelAt changes p.2) := by
  simp only [validate, overlappingPairs, List.map_map]
  rfl

theorem overlappingPairs_eq_nil_iff :
    overlappingPairs allowTouching source changes = [] ↔
      ∀ i j, ¬Conflict allowTouching source changes i j := by
  constructor
  · intro h i j hc
    obtain ⟨p, hp, _⟩ := conflict_named hc
    simp [h] at hp
  · intro h
    by_contra ne
    obtain ⟨p, hp⟩ := List.exists_mem_of_ne_nil _ ne
    exact h _ _ (overlappingPairs_conflict hp)

/-- A batch is accepted exactly if all its changes are well-formed and no two of them conflict. -/
theorem validate_eq_nil_iff :
    validate allowTouching source changes = [] ↔
      (∀ c ∈ changes, WellFormed source c) ∧ ∀ i j, ¬Conflict allowTouching source changes i j := by
  rw [validate_eq, List.append_eq_nil_iff, List.map_eq_nil_iff, faults_eq_nil_iff,
    overlappingPairs_eq_nil_iff]

/-- The errors of a batch: first one true error for each change that is not well-formed, in the order
of the batch, then only overlaps. Each overlap is about two conflicting changes, no two of them are
about the same two changes, and every change that conflicts with another is in one of them. -/
theorem validate_reports_faults_then_conflicts (allowTouching : Bool) (source : Text)
    (changes : List Change) :
    ∃ (faults : List ChangeError) (pairs : List (Nat × Nat)),
      validate allowTouching source changes =
        faults ++ pairs.map (fun p => .overlap (labelAt changes p.1) (labelAt changes p.2)) ∧
      List.Forall₂ (Fails source) (changes.filter fun c => ¬WellFormed source c) faults ∧
      (∀ p ∈ pairs, Conflict allowTouching source changes p.1 p.2) ∧
      (pairs.Pairwise fun p q => p ≠ q ∧ p ≠ q.swap) ∧
      (∀ i j, Conflict allowTouching source changes i j → ∃ p ∈ pairs, p.1 = i ∨ p.2 = i) ∧
      (validate allowTouching source changes = [] ↔
        (∀ c ∈ changes, WellFormed source c) ∧
          ∀ i j, ¬Conflict allowTouching source changes i j) :=
  ⟨_, _, validate_eq allowTouching source changes, faults_forall₂ source changes,
    fun _ h => overlappingPairs_conflict h, overlappingPairs_distinct allowTouching source changes,
    fun _ _ h => conflict_named h, validate_eq_nil_iff⟩

end SourceTree.Change
