import Mathlib
import SourceTree.Change.Apply
import SourceTree.Proofs.Change.Conflict

/-!
Applying a batch from the back gives what one pass over the source from the front gives, which copies
the text between the edits and puts their contents in the place of what they cover. All edits are
given by offsets into the source; the pass from the back may use them as they are because the text in
front of an edit is still that of the source when its turn comes.
-/

namespace SourceTree

namespace Text

theorem replaceRange?_append (front mid back content : Text) :
    replaceRange? (front ++ mid ++ back) (size front) (size front + size mid) content =
      some (front ++ content ++ back) := by
  have take : take? (front ++ mid ++ back) (size front) = some front := by
    rw [List.append_assoc, take?_append]
  have drop : drop? (front ++ mid ++ back) (size front + size mid) = some back := by
    rw [← size_append, drop?_append]
  rw [replaceRange?, if_pos (by omega), take, drop]
  rfl

end Text

namespace Change

variable {allowTouching : Bool} {source : Text} {changes : List Change} {es : List Edit}

/-- One pass over the source from an offset on: the text between the edits is copied, and what an
edit covers is replaced by its content. -/
def weave? (source : Text) (pos : Nat) : List Edit → Option Text
  | [] => Text.drop? source pos
  | e :: es => do
    return (← Text.slice? source pos e.start) ++ e.content ++ (← weave? source e.stop es)

/-- Edits that lie in the source between characters, each behind the one before it. -/
structure InOrder (source : Text) (es : List Edit) : Prop where
  ordered : ∀ e ∈ es, e.start ≤ e.stop
  boundaries : ∀ e ∈ es, Text.Boundary source e.start ∧ Text.Boundary source e.stop
  apart : es.Pairwise fun a b => a.stop ≤ b.start

theorem InOrder.tail {e : Edit} (h : InOrder source (e :: es)) : InOrder source es where
  ordered d hd := h.ordered d (by simp [hd])
  boundaries d hd := h.boundaries d (by simp [hd])
  apart := (List.pairwise_cons.mp h.apart).2

theorem InOrder.suffix {fs : List Edit} (h : InOrder source (es ++ fs)) : InOrder source fs where
  ordered d hd := h.ordered d (by simp [hd])
  boundaries d hd := h.boundaries d (by simp [hd])
  apart := (List.pairwise_append.mp h.apart).2.1

theorem splice?_append (output : Text) (es fs : List Edit) :
    splice? output (es ++ fs) = (splice? output es).bind (splice? · fs) := by
  induction es generalizing output with
  | nil => rfl
  | cons e es ih =>
    simp only [List.cons_append, splice?]
    cases Text.replaceRange? output e.start e.stop e.content with
    | none => rfl
    | some output' => exact ih output'

/-- Carrying out edits from the back leaves every front of the source that they do not reach, and
puts behind it what one pass from there on gives. -/
theorem splice?_reverse (h : InOrder source es) {front back : Text} (hs : source = front ++ back)
    (before : ∀ e ∈ es, Text.size front ≤ e.start) :
    ∃ woven, weave? source (Text.size front) es = some woven ∧
      splice? source es.reverse = some (front ++ woven) := by
  induction es generalizing front back with
  | nil =>
    refine ⟨back, ?_, by simp [splice?, hs]⟩
    rw [weave?, hs, Text.drop?_append]
  | cons e es ih =>
    obtain ⟨bs, bt⟩ := h.boundaries e (by simp)
    have first : Text.Boundary source (Text.size front) := hs ▸ Text.boundary_append front back
    -- The source falls into the front, a gap, what the edit covers, and the rest.
    obtain ⟨front', gap, rest, hgap, hf, hg⟩ := first.split bs (before e (by simp))
    obtain ⟨rfl, -⟩ := Text.cut_unique (hs.symm.trans (hgap.trans (List.append_assoc ..))) hf.symm
    obtain ⟨longer, covered, rest', hcov, hl, hc⟩ := bs.split bt (h.ordered e (by simp))
    have eqLonger : longer = front ++ gap := by
      refine (Text.cut_unique (hcov.symm.trans hgap |> (List.append_assoc ..).symm.trans) ?_).1
      rw [hl, Text.size_append, hg]
    subst eqLonger
    have stop : Text.size (front ++ gap ++ covered) = e.stop := by rw [Text.size_append, hl, hc]
    obtain ⟨woven, hw, hsplice⟩ := ih h.tail hcov (by
      intro d hd
      rw [stop]
      exact (List.pairwise_cons.mp h.apart).1 d hd)
    rw [stop] at hw
    have slice : Text.slice? source (Text.size front) e.start = some gap :=
      Text.slice?_eq_some_iff.mpr ⟨front, rest, hgap, rfl, hg⟩
    have replace : Text.replaceRange? (front ++ gap ++ covered ++ woven) e.start e.stop e.content =
        some (front ++ gap ++ e.content ++ woven) := by
      have put := Text.replaceRange?_append (front ++ gap) covered woven e.content
      rwa [hl, hc] at put
    refine ⟨gap ++ e.content ++ woven, by simp [weave?, slice, hw], ?_⟩
    rw [List.reverse_cons, splice?_append, hsplice, Option.bind_some, splice?, replace,
      Option.bind_some, splice?]
    simp

/-- When the turn of an edit comes, it lies in what has been written so far and between characters
of it. -/
theorem splice?_boundaries {pre post : List Edit} {e : Edit}
    (h : InOrder source (pre ++ e :: post)) :
    ∃ output, splice? source post.reverse = some output ∧ e.start ≤ e.stop ∧
      Text.Boundary output e.start ∧ Text.Boundary output e.stop := by
  have he := h.suffix
  obtain ⟨bs, bt⟩ := he.boundaries e (by simp)
  have le := he.ordered e (by simp)
  obtain ⟨front, covered, back, hs, hf, hc⟩ := bs.split bt le
  have stop : Text.size (front ++ covered) = e.stop := by rw [Text.size_append, hf, hc]
  obtain ⟨woven, -, hsplice⟩ := splice?_reverse he.tail hs (by
    intro d hd
    rw [stop]
    exact (List.pairwise_cons.mp he.apart).1 d hd)
  refine ⟨_, hsplice, le, ?_, ?_⟩
  · rw [← hf, List.append_assoc]
    exact Text.boundary_append front (covered ++ woven)
  · rw [← stop]
    exact Text.boundary_append (front ++ covered) woven

theorem batchEdits_checked (h : ∀ c ∈ changes, WellFormed source c) :
    (batchEdits source changes).mergeSort Edit.le = sortedEdits source changes := by
  unfold batchEdits sortedEdits
  congr 1
  apply List.flatMap_congr
  rintro ⟨c, index⟩ hc
  have hw := h c (List.fst_mem_of_mem_zipIdx hc)
  simp [fault?_eq_none_iff.mpr hw]

theorem sortedEdits_inOrder (h : validate allowTouching source changes = []) :
    InOrder source (sortedEdits source changes) := by
  obtain ⟨-, clear⟩ := validate_eq_nil_iff.mp h
  have sorted := sortedEdits_sorted source changes
  have own := sortedEdits_own source changes
  refine ⟨fun e he => sortedEdits_ordered he, ?_, ?_⟩
  · intro e he
    obtain ⟨c, -, hw, he⟩ := mem_sortedEdits.mp he
    exact (hw.edit_boundaries he).2
  · refine (List.pairwise_and_iff.mpr ⟨sorted, own⟩).imp_of_mem ?_
    rintro a b ha hb ⟨le, same⟩
    have free : ¬a.Overlaps true b := by
      by_cases hi : a.index = b.index
      · exact same hi
      · intro overlap
        exact clear a.index b.index
          ⟨hi, a, b, mem_sortedEdits.mp ha, mem_sortedEdits.mp hb, overlap.touching⟩
    rw [Sweep.overlaps_iff_meets le (sortedEdits_ordered hb)] at free
    simp only [Sweep.meets, if_true, decide_eq_true_eq] at free
    omega

theorem batchEdits_inOrder (valid : validate allowTouching source changes = []) :
    InOrder source ((batchEdits source changes).mergeSort Edit.le) := by
  rw [batchEdits_checked (validate_eq_nil_iff.mp valid).1]
  exact sortedEdits_inOrder valid

/-- Sorting the other way round gives the reverse: edits that tie are equal. -/
theorem mergeSort_descending (source : Text) (changes : List Change) :
    ((batchEdits source changes).mergeSort fun a b => Edit.le b a) =
      ((batchEdits source changes).mergeSort Edit.le).reverse := by
  let edits := batchEdits source changes
  have perm : List.Perm (edits.mergeSort fun a b => Edit.le b a) (edits.mergeSort Edit.le).reverse :=
    (List.mergeSort_perm _ _).trans
      ((List.mergeSort_perm _ _).symm.trans (List.reverse_perm _).symm)
  have down : (edits.mergeSort fun a b => Edit.le b a).Pairwise fun a b => Edit.le b a = true :=
    List.pairwise_mergeSort (fun a b c h k => Edit.le_trans c b a k h)
      (fun a b => Edit.le_total b a) _
  have up : (edits.mergeSort Edit.le).reverse.Pairwise fun a b => Edit.le b a = true :=
    List.pairwise_reverse.mpr (List.pairwise_mergeSort Edit.le_trans Edit.le_total _)
  refine perm.eq_of_pairwise ?_ down up
  intro a b ha hb hab hba
  rw [List.mem_mergeSort] at ha
  rw [List.mem_reverse, List.mem_mergeSort] at hb
  obtain ⟨⟨c, i⟩, hc, ha⟩ := List.mem_flatMap.mp ha
  obtain ⟨⟨d, j⟩, hd, hb⟩ := List.mem_flatMap.mp hb
  have hi := edits_index ha
  have hj := edits_index hb
  rw [Edit.le_iff] at hab hba
  obtain rfl : i = j := by omega
  rw [List.mem_zipIdx_iff_getElem?] at hc hd
  obtain rfl : c = d := Option.some.inj (hc.symm.trans hd)
  exact edits_eq_of_ends ha hb (by omega) (by omega)

theorem carryOut?_woven (valid : validate allowTouching source changes = []) :
    ∃ output, carryOut? allowTouching source changes = some (.applied output changes.length) ∧
      weave? source 0 ((batchEdits source changes).mergeSort Edit.le) = some output := by
  obtain ⟨woven, hw, hs⟩ := splice?_reverse (batchEdits_inOrder valid)
    (List.nil_append source).symm (fun e _ => Nat.zero_le _)
  refine ⟨woven, ?_, hw⟩
  simp only [carryOut?, valid, mergeSort_descending, hs]
  rfl

/-- An accepted batch is applied as a whole, and the new source is that of one pass over the source
with the edits in ascending order; each replacement on the way is in range and between characters of
what has been written so far. A rejected batch changes nothing. -/
theorem carryOut?_eq_weave (allowTouching : Bool) (source : Text) (changes : List Change) :
    (validate allowTouching source changes = [] →
      (∃ output, carryOut? allowTouching source changes = some (.applied output changes.length) ∧
        weave? source 0 ((batchEdits source changes).mergeSort Edit.le) = some output) ∧
      ∀ done e rest,
        ((batchEdits source changes).mergeSort fun a b => Edit.le b a) = done ++ e :: rest →
        ∃ output, splice? source done = some output ∧ e.start ≤ e.stop ∧
          Text.Boundary output e.start ∧ Text.Boundary output e.stop) ∧
    (validate allowTouching source changes ≠ [] →
      ∃ outcome, carryOut? allowTouching source changes = some outcome ∧
        outcome.isSuccess = false ∧ outcome.newSource? = none ∧ outcome.appliedCount = 0) := by
  constructor
  · intro valid
    refine ⟨carryOut?_woven valid, ?_⟩
    intro done e rest split
    rw [mergeSort_descending] at split
    have up : (batchEdits source changes).mergeSort Edit.le =
        rest.reverse ++ e :: done.reverse := by
      rw [List.reverse_eq_iff.mp split]
      simp
    have inOrder := batchEdits_inOrder valid
    rw [up] at inOrder
    simpa using splice?_boundaries inOrder
  · intro rejected
    refine ⟨.rejected (validate allowTouching source changes), ?_, rfl, rfl, rfl⟩
    unfold carryOut?
    split
    next h => exact absurd h rejected
    next => rfl

/-- A deletion, and a move that jumps over it. -/
theorem carryOut?_eq_weave_move :
    validate true "hi, wörld".toList [deleteRange ⟨0, 0, 0, 0, 2, 4⟩,
      { kind := .move, location := ⟨0, 0, 0, 0, 0, 2⟩, destination := some 10 }] = [] ∧
    carryOut? true "hi, wörld".toList [deleteRange ⟨0, 0, 0, 0, 2, 4⟩,
      { kind := .move, location := ⟨0, 0, 0, 0, 0, 2⟩, destination := some 10 }] =
        some (.applied "wörldhi".toList 2) := by
  have valid : validate true "hi, wörld".toList [deleteRange ⟨0, 0, 0, 0, 2, 4⟩,
      { kind := .move, location := ⟨0, 0, 0, 0, 0, 2⟩, destination := some 10 }] = [] := by cbv
  have woven : weave? "hi, wörld".toList 0
      ((batchEdits "hi, wörld".toList [deleteRange ⟨0, 0, 0, 0, 2, 4⟩,
        { kind := .move, location := ⟨0, 0, 0, 0, 0, 2⟩, destination := some 10 }]).mergeSort
          Edit.le) = some "wörldhi".toList := by cbv
  obtain ⟨⟨output, applied, same⟩, -⟩ := (carryOut?_eq_weave true _ _).1 valid
  rw [woven, Option.some.injEq] at same
  exact ⟨valid, same ▸ applied⟩

end Change

end SourceTree
