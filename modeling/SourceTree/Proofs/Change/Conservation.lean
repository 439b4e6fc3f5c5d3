import SourceTree.Proofs.Change.Reorder

/-!
What a batch takes out of a source and what it brings in. An edit exchanges the piece that it covers
for its content, so the new source together with all covered pieces holds the characters of the
source together with all contents. What a move covers is what it puts back, so moves drop out of
this balance.
-/

namespace SourceTree

namespace Text

theorem size_perm {a b : Text} (h : a.Perm b) : size a = size b := by
  induction h with
  | nil => rfl
  | cons c _ ih => rw [size_cons, size_cons, ih]
  | swap c d cs =>
    simp only [size_cons]
    omega
  | trans _ _ first second => exact first.trans second

theorem size_flatMap {α : Type} (f : α → Text) (as : List α) :
    size (as.flatMap f) = (as.map fun a => size (f a)).sum := by
  induction as with
  | nil => rfl
  | cons a as ih => rw [List.flatMap_cons, size_append, ih, List.map_cons, List.sum_cons]

end Text

/-- The piece of the source that an edit exchanges for its content. -/
def Edit.covered (source : Text) (e : Edit) : Text := (Text.slice? source e.start e.stop).getD []

namespace Change

variable {allowTouching : Bool} {source : Text} {changes : List Change} {es : List Edit} {c : Change}

/-- The text that a change brings in. -/
def added (c : Change) : Text :=
  match c.kind with
  | .insert | .replace => (c.newContent.getD "").toList
  | .delete | .move => []

/-- The piece of the source that a change takes out for good. -/
def removed (source : Text) (c : Change) : Text :=
  match c.kind with
  | .replace | .delete => (Text.slice? source c.location.startIndex c.location.endIndex).getD []
  | .insert | .move => []

/-- The piece of the source that a change takes out and puts back. -/
def moved (source : Text) (c : Change) : Text :=
  match c.kind with
  | .move => (Text.slice? source c.location.startIndex c.location.endIndex).getD []
  | .insert | .replace | .delete => []

/-- The size of the piece that a change takes out for good. -/
def removedSize (c : Change) : Nat :=
  match c.kind with
  | .replace | .delete => c.location.endIndex - c.location.startIndex
  | .insert | .move => 0

/-! ### One pass over the source -/

/-- One pass from an offset on keeps all characters from there on, with what the edits cover counted
on the one side and their contents on the other. -/
theorem weave?_perm (h : InOrder source es) {pos : Nat} {rest output : Text}
    (here : Text.drop? source pos = some rest) (woven : weave? source pos es = some output) :
    (output ++ es.flatMap (Edit.covered source)).Perm (rest ++ es.flatMap Edit.content) := by
  induction es generalizing pos rest output with
  | nil =>
    obtain rfl : rest = output := Option.some.inj (here.symm.trans woven)
    exact .refl _
  | cons e es ih =>
    obtain ⟨gap, hgap, woven⟩ := Option.bind_eq_some_iff.mp woven
    obtain ⟨later, hlater, same⟩ := Option.bind_eq_some_iff.mp woven
    obtain rfl : gap ++ e.content ++ later = output := Option.some.inj same
    obtain ⟨first, last⟩ := h.boundaries e List.mem_cons_self
    obtain ⟨piece, hpiece⟩ := Text.exists_slice?_iff.mpr
      ⟨h.ordered e List.mem_cons_self, first, last⟩
    obtain ⟨behind, hbehind⟩ := Option.isSome_iff_exists.mp (Text.drop?_isSome_iff.mpr last)
    have covered : e.covered source = piece := by rw [Edit.covered, hpiece, Option.getD_some]
    have whole : rest = gap ++ piece ++ behind :=
      Option.some.inj (here.symm.trans
        (Text.slice?_append_drop? (Text.slice?_append_slice? hgap hpiece) hbehind))
    have tail := ih h.tail hbehind hlater
    rw [List.perm_iff_count] at tail ⊢
    intro x
    have count := tail x
    simp only [List.flatMap_cons, covered, whole, List.count_append] at count ⊢
    omega

/-! ### The balance of a batch -/

/-- What the edits of a change cover and what they put in its place differ only by what the change
takes out for good and what it brings in. -/
theorem edits_balance (source : Text) (c : Change) :
    (c.edits source 0).flatMap (Edit.covered source) = c.removed source ++ c.moved source ∧
      (c.edits source 0).flatMap Edit.content = c.added ++ c.moved source := by
  unfold edits removed added moved
  cases c.kind with
  | insert => simp [Edit.covered, Text.getD_slice?_self]
  | replace => simp [Edit.covered]
  | delete => simp [Edit.covered]
  | move => simp [Edit.covered, Text.getD_slice?_self]

/-- A piece from each change and then another one are, but for the order, both pieces of each. -/
theorem flatMap_pieces {f g h : Change → Text} (each : ∀ c, f c = g c ++ h c)
    (changes : List Change) : (changes.flatMap f).Perm (changes.flatMap g ++ changes.flatMap h) := by
  rw [funext each]
  exact (List.flatMap_append_perm changes g h).symm

/-- What an edit covers and its content do not depend on where it stands in the batch. -/
theorem flatMap_batchEdits {f : Edit → Text} (bare : ∀ e, f e.bare = f e) (source : Text)
    (changes : List Change) :
    (((batchEdits source changes).mergeSort Edit.le).flatMap f).Perm
      ((changes.flatMap (edits source 0)).flatMap f) := by
  have same : (batchEdits source changes).flatMap f =
      ((batchEdits source changes).map Edit.bare).flatMap f := by
    simp only [List.flatMap_map, bare]
  rw [← batchEdits_bare, ← same]
  exact (List.mergeSort_perm _ _).flatMap_right f

theorem carryOut?_perm (valid : validate allowTouching source changes = []) {output : Text}
    (woven : weave? source 0 ((batchEdits source changes).mergeSort Edit.le) = some output) :
    (output ++ changes.flatMap (removed source)).Perm (source ++ changes.flatMap added) := by
  have pass := weave?_perm (batchEdits_inOrder valid) (Text.drop?_append [] source) woven
  have covers := flatMap_batchEdits (f := Edit.covered source) (fun _ => rfl) source changes
  have contents := flatMap_batchEdits (f := Edit.content) (fun _ => rfl) source changes
  rw [List.flatMap_assoc] at covers contents
  have out := covers.trans (flatMap_pieces (fun c => (edits_balance source c).1) changes)
  have back := contents.trans (flatMap_pieces (fun c => (edits_balance source c).2) changes)
  refine (List.perm_append_right_iff (changes.flatMap (moved source))).mp ?_
  rw [List.append_assoc, List.append_assoc]
  exact (out.symm.append_left output).trans (pass.trans (back.append_left source))

/-! ### Sizes -/

theorem WellFormed.size_removed (w : WellFormed source c) :
    Text.size (c.removed source) = c.removedSize := by
  obtain ⟨piece, hpiece⟩ :=
    Text.exists_slice?_iff.mpr ⟨w.ordered, w.startBoundary, w.stopBoundary⟩
  obtain ⟨-, -, -, -, stop⟩ := Text.slice?_eq_some_iff.mp hpiece
  unfold removed removedSize
  cases c.kind with
  | insert => rfl
  | move => rfl
  | replace | delete =>
    simp only [hpiece, Option.getD_some]
    omega

/-! ### A move that leaves its piece where it is -/

theorem mergeSort_pair (a b : Edit) :
    [a, b].mergeSort Edit.le = if a.le b then [a, b] else [b, a] := by
  simp [List.mergeSort, List.MergeSort.Internal.splitInTwo, List.merge]

/-- Cutting a piece and putting it back at one of its own ends gives the source again. -/
theorem weave?_home (w : WellFormed source c) (kind : c.kind = .move)
    (home : c.destination = some c.location.startIndex ∨
      c.destination = some c.location.endIndex) :
    weave? source 0 ((batchEdits source [c]).mergeSort Edit.le) = some source := by
  obtain ⟨front, piece, back, split, start, stop⟩ :=
    w.startBoundary.split w.stopBoundary w.ordered
  have lead : Text.slice? source 0 c.location.startIndex = some front :=
    Text.slice?_eq_some_iff.mpr ⟨[], piece ++ back, by simp [split], rfl, by simp [start]⟩
  have self : Text.slice? source c.location.startIndex c.location.endIndex = some piece :=
    Text.slice?_eq_some_iff.mpr ⟨front, back, split, start, stop⟩
  have behind : Text.drop? source c.location.endIndex = some back :=
    Text.drop?_eq_some_iff.mpr ⟨front ++ piece, split, by rw [Text.size_append, start, stop]⟩
  have point (n : Nat) (h : Text.Boundary source n) : Text.slice? source n n = some [] := by
    obtain ⟨none, hnone⟩ := Text.exists_slice?_iff.mpr ⟨Nat.le_refl n, h, h⟩
    have empty := Text.getD_slice?_self source n
    rw [hnone, Option.getD_some] at empty
    rw [hnone, empty]
  let cut : Edit := ⟨c.location.startIndex, c.location.endIndex, [], 0⟩
  let paste (destination : Nat) : Edit := ⟨destination, destination, piece, 0⟩
  have listed {d : Nat} (hd : c.destination = some d) : batchEdits source [c] = [cut, paste d] := by
    simp [batchEdits, edits, kind, hd, self, cut, paste]
  have whole : front ++ (piece ++ back) = source := by rw [split, List.append_assoc]
  -- The cut comes first unless the piece goes in front of itself.
  have stays : weave? source 0 [cut, paste c.location.endIndex] = some source := by
    simp [weave?, cut, paste, lead, point _ w.stopBoundary, behind, whole]
  rcases home with home | home
  · rw [listed home, mergeSort_pair]
    split
    next le =>
      have same : c.location.startIndex = c.location.endIndex := by
        have ordered := w.ordered
        have le := Edit.le_iff.mp le
        simp only [cut, paste] at le
        omega
      rw [same]
      exact stays
    next => simp [weave?, cut, paste, lead, point _ w.startBoundary, behind, whole]
  · have first : cut.le (paste c.location.endIndex) = true := by
      refine Edit.le_iff.mpr ?_
      rcases Nat.lt_or_eq_of_le w.ordered with lt | eq
      · exact .inl lt
      · exact .inr ⟨eq, .inr ⟨rfl, Nat.le_refl 0⟩⟩
    rw [listed home, mergeSort_pair, if_pos first]
    exact stays

/-! ### The balance of an applied batch -/

/-- An accepted batch is applied, and the new source with all that the batch takes out holds the same
characters as the source with all that it brings in. So its size is that of the source and of what
replacements and insertions bring, less that of what replacements and deletions take out; moves alone
only reorder the source; and one move to an end of its own piece leaves it as it is. -/
theorem carryOut?_conserves (allowTouching : Bool) (source : Text) (changes : List Change)
    (valid : validate allowTouching source changes = []) :
    ∃ output, carryOut? allowTouching source changes = some (.applied output changes.length) ∧
      (output ++ changes.flatMap (removed source)).Perm (source ++ changes.flatMap added) ∧
      Text.size output + (changes.map removedSize).sum =
        Text.size source + (changes.map fun c => Text.size c.added).sum ∧
      ((∀ c ∈ changes, c.kind = .move) → output.Perm source) ∧
      (∀ c, changes = [c] → c.kind = .move →
        c.destination = some c.location.startIndex ∨ c.destination = some c.location.endIndex →
        output = source) := by
  obtain ⟨output, applied, woven⟩ := carryOut?_woven valid
  have balance := carryOut?_perm valid woven
  have wellFormed := (validate_eq_nil_iff.mp valid).1
  refine ⟨output, applied, balance, ?_, ?_, ?_⟩
  · have out : changes.map (fun c => Text.size (c.removed source)) = changes.map removedSize :=
      List.map_congr_left fun c hc => (wellFormed c hc).size_removed
    have sizes := Text.size_perm balance
    rwa [Text.size_append, Text.size_append, Text.size_flatMap, Text.size_flatMap, out] at sizes
  · intro moves
    have out : changes.flatMap (removed source) = [] :=
      List.flatMap_eq_nil_iff.mpr fun c hc => by rw [removed, moves c hc]
    have brought : changes.flatMap added = [] :=
      List.flatMap_eq_nil_iff.mpr fun c hc => by rw [added, moves c hc]
    rwa [out, brought, List.append_nil, List.append_nil] at balance
  · rintro c rfl kind home
    have back := weave?_home (wellFormed c (List.mem_singleton_self c)) kind home
    exact Option.some.inj (woven.symm.trans back)

/-- Two moves that jump over each other and over an insertion. -/
theorem carryOut?_conserves_jumps :
    let move (start stop destination : Nat) : Change :=
      { kind := .move, location := ⟨0, 0, 0, 0, start, stop⟩, destination := some destination }
    let batch := [move 0 2 7, insertAt 3 "ü", move 4 7 0]
    validate true "abcdefg".toList batch = [] ∧
      carryOut? true "abcdefg".toList batch = some (.applied "efgcüdab".toList 3) ∧
      ("efgcüdab".toList).Perm ("abcdefg".toList ++ "ü".toList) ∧
      Text.size "efgcüdab".toList = Text.size "abcdefg".toList + Text.size "ü".toList := by
  intro move batch
  have valid : validate true "abcdefg".toList batch = [] := by cbv
  have run : carryOut? true "abcdefg".toList batch = some (.applied "efgcüdab".toList 3) := by cbv
  obtain ⟨output, applied, balance, sizes, -, -⟩ := carryOut?_conserves true _ batch valid
  obtain rfl : "efgcüdab".toList = output := by
    rw [run, Option.some.injEq, Outcome.applied.injEq] at applied
    exact applied.1
  exact ⟨valid, run, balance, sizes⟩

end Change

end SourceTree
