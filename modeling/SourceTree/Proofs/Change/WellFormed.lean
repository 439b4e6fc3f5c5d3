import SourceTree.Change.Validate
import SourceTree.Proofs.Text.Boundary

/-!
What makes a single change acceptable, and what its edits are like then: each covers a piece between
two characters of the source, and the two edits of a move stay clear of each other.
-/

namespace SourceTree

namespace Text

theorem isBoundary_iff {cs : Text} {n : Nat} : isBoundary cs n = true ↔ Boundary cs n :=
  drop?_isSome_iff

theorem not_isBoundary_iff {cs : Text} {n : Nat} : (!isBoundary cs n) = true ↔ ¬Boundary cs n := by
  rw [Bool.not_eq_true', ← isBoundary_iff, Bool.not_eq_true]

/-- Nothing lies between an offset and itself. -/
theorem getD_slice?_self (cs : Text) (n : Nat) : (slice? cs n n).getD [] = [] := by
  unfold slice?
  cases drop? cs n with
  | none => simp
  | some rest => cases rest <;> simp [take?]

end Text

namespace Edit

/-- Two edits reach into each other. Unless touching is allowed, a common end counts too. -/
def Overlaps (allowTouching : Bool) (a b : Edit) : Prop :=
  if allowTouching then a.start < b.stop ∧ b.start < a.stop
  else a.start ≤ b.stop ∧ b.start ≤ a.stop

theorem Overlaps.symm {allowTouching : Bool} {a b : Edit} (h : Overlaps allowTouching a b) :
    Overlaps allowTouching b a := by
  cases allowTouching <;> simp only [Overlaps, Bool.false_eq_true, if_true, if_false] at h ⊢
  all_goals exact And.symm h

theorem Overlaps.touching {allowTouching : Bool} {a b : Edit} (h : Overlaps true a b) :
    Overlaps allowTouching a b := by
  cases allowTouching with
  | true => exact h
  | false =>
    simp only [Overlaps, Bool.false_eq_true, if_true, if_false] at h ⊢
    omega

theorem le_iff {a b : Edit} : le a b = true ↔
    a.start < b.start ∨ a.start = b.start ∧
      (a.stop < b.stop ∨ a.stop = b.stop ∧ a.index ≤ b.index) := by
  simp [le]

theorem le_trans (a b c : Edit) (h : le a b = true) (k : le b c = true) : le a c = true := by
  rw [le_iff] at h k ⊢
  omega

theorem le_total (a b : Edit) : (le a b || le b a) = true := by
  rw [Bool.or_eq_true, le_iff, le_iff]
  omega

end Edit

namespace Change

variable {source : Text} {c : Change}

/-- What a change has to fulfil on its own. -/
structure WellFormed (source : Text) (c : Change) : Prop where
  ordered : c.location.startIndex ≤ c.location.endIndex
  startBoundary : Text.Boundary source c.location.startIndex
  stopBoundary : Text.Boundary source c.location.endIndex
  content : c.kind = .insert ∨ c.kind = .replace → c.newContent.getD "" ≠ ""
  destination : c.kind = .move → ∃ d, c.destination = some d ∧ Text.Boundary source d ∧
    (d ≤ c.location.startIndex ∨ c.location.endIndex ≤ d)

/-- An error that names the change and states a check that the change does fail. -/
def Fails (source : Text) (c : Change) : ChangeError → Prop
  | .invertedRange label start stop =>
    label = c.label ∧ start = c.location.startIndex ∧ stop = c.location.endIndex ∧ stop < start
  | .outOfBounds label start stop size =>
    label = c.label ∧ start = c.location.startIndex ∧ stop = c.location.endIndex ∧
      size = Text.size source ∧ size < stop
  | .notCharBoundary label offset =>
    label = c.label ∧ (offset = c.location.startIndex ∨ offset = c.location.endIndex) ∧
      offset ≤ Text.size source ∧ ¬Text.Boundary source offset
  | .missingContent label =>
    label = c.label ∧ (c.kind = .insert ∨ c.kind = .replace) ∧ c.newContent.getD "" = ""
  | .invalidDestination label destination =>
    label = c.label ∧ destination = c.destination ∧ c.kind = .move ∧
      ¬∃ d, c.destination = some d ∧ Text.Boundary source d ∧
        (d ≤ c.location.startIndex ∨ c.location.endIndex ≤ d)
  | .overlap .. => False

theorem acceptsDestination_iff {d : Nat} : c.acceptsDestination source d = true ↔
    Text.Boundary source d ∧ (d ≤ c.location.startIndex ∨ c.location.endIndex ≤ d) := by
  simp only [acceptsDestination, Bool.and_eq_true, Bool.or_eq_true, decide_eq_true_eq,
    Text.isBoundary_iff]
  constructor
  · rintro ⟨⟨_, hb⟩, hd⟩
    exact ⟨hb, hd⟩
  · rintro ⟨hb, hd⟩
    exact ⟨⟨hb.le_size, hb⟩, hd⟩

private theorem destination_iff :
    (c.destination.map (c.acceptsDestination source)).getD false = true ↔
      ∃ d, c.destination = some d ∧ Text.Boundary source d ∧
        (d ≤ c.location.startIndex ∨ c.location.endIndex ≤ d) := by
  cases c.destination with
  | none => simp
  | some d => simp [acceptsDestination_iff]

/-- The first check that a change fails decides its error; a change without one is well-formed. -/
theorem fault?_cases (source : Text) (c : Change) :
    (fault? source c = none ∧ WellFormed source c) ∨
      ∃ e, fault? source c = some e ∧ Fails source c e ∧ ¬WellFormed source c := by
  unfold fault?
  by_cases inverted : c.location.endIndex < c.location.startIndex
  · right
    rw [if_pos inverted]
    exact ⟨_, rfl, ⟨rfl, rfl, rfl, inverted⟩, fun h => absurd h.ordered (by omega)⟩
  rw [if_neg inverted]
  by_cases outside : Text.size source < c.location.endIndex
  · right
    rw [if_pos outside]
    exact ⟨_, rfl, ⟨rfl, rfl, rfl, rfl, outside⟩,
      fun h => absurd h.stopBoundary.le_size (by omega)⟩
  rw [if_neg outside]
  by_cases first : Text.Boundary source c.location.startIndex
  case neg =>
    right
    rw [if_pos (Text.not_isBoundary_iff.mpr first)]
    exact ⟨_, rfl, ⟨rfl, .inl rfl, by omega, first⟩, fun h => first h.startBoundary⟩
  rw [if_neg (fun h => Text.not_isBoundary_iff.mp h first)]
  by_cases last : Text.Boundary source c.location.endIndex
  case neg =>
    right
    rw [if_pos (Text.not_isBoundary_iff.mpr last)]
    exact ⟨_, rfl, ⟨rfl, .inr rfl, by omega, last⟩, fun h => last h.stopBoundary⟩
  rw [if_neg (fun h => Text.not_isBoundary_iff.mp h last)]
  have ordered : c.location.startIndex ≤ c.location.endIndex := by omega
  -- What remains depends on the kind: content for two of them, a destination for moves.
  cases hk : c.kind with
  | insert =>
    by_cases empty : c.newContent.getD "" = ""
    · right
      exact ⟨.missingContent c.label, by simp [empty], ⟨rfl, .inl hk, empty⟩,
        fun h => h.content (.inl hk) empty⟩
    · left
      exact ⟨by simp [empty], ordered, first, last, fun _ => empty, by simp [hk]⟩
  | replace =>
    by_cases empty : c.newContent.getD "" = ""
    · right
      exact ⟨.missingContent c.label, by simp [empty], ⟨rfl, .inr hk, empty⟩,
        fun h => h.content (.inr hk) empty⟩
    · left
      exact ⟨by simp [empty], ordered, first, last, fun _ => empty, by simp [hk]⟩
  | delete =>
    left
    exact ⟨rfl, ordered, first, last, by simp [hk], by simp [hk]⟩
  | move =>
    by_cases accepted : (c.destination.map (c.acceptsDestination source)).getD false = true
    · left
      exact ⟨if_pos accepted, ordered, first, last, by simp [hk],
        fun _ => destination_iff.mp accepted⟩
    · right
      exact ⟨_, if_neg accepted, ⟨rfl, rfl, hk, fun h => accepted (destination_iff.mpr h)⟩,
        fun h => accepted (destination_iff.mpr (h.destination hk))⟩

theorem fault?_eq_none_iff : fault? source c = none ↔ WellFormed source c := by
  rcases fault?_cases source c with ⟨h, hw⟩ | ⟨e, h, _, hw⟩
  · exact ⟨fun _ => hw, fun _ => h⟩
  · simp [h, hw]

theorem edits_index {index : Nat} {e : Edit} (h : e ∈ c.edits source index) :
    e.index = index := by
  unfold edits at h
  cases hk : c.kind with
  | insert => simp [hk] at h; simp [h]
  | replace => simp [hk] at h; simp [h]
  | delete => simp [hk] at h; simp [h]
  | move => simp [hk] at h; rcases h with rfl | rfl <;> rfl

theorem WellFormed.edit_boundaries (w : WellFormed source c) {index : Nat} {e : Edit}
    (h : e ∈ c.edits source index) :
    e.start ≤ e.stop ∧ Text.Boundary source e.start ∧ Text.Boundary source e.stop := by
  unfold edits at h
  cases hk : c.kind with
  | insert => simp [hk] at h; subst h; exact ⟨by simp, w.startBoundary, w.startBoundary⟩
  | replace => simp [hk] at h; subst h; exact ⟨w.ordered, w.startBoundary, w.stopBoundary⟩
  | delete => simp [hk] at h; subst h; exact ⟨w.ordered, w.startBoundary, w.stopBoundary⟩
  | move =>
    obtain ⟨d, hd, hb, _⟩ := w.destination hk
    simp [hk, hd] at h
    rcases h with rfl | rfl
    · exact ⟨w.ordered, w.startBoundary, w.stopBoundary⟩
    · exact ⟨by simp, hb, hb⟩

/-- The cut and the insertion of a move stay clear of each other. -/
theorem WellFormed.edits_apart (w : WellFormed source c) (index : Nat) :
    (c.edits source index).Pairwise fun a b => ¬a.Overlaps true b := by
  unfold edits
  cases hk : c.kind with
  | insert => simp
  | replace => simp
  | delete => simp
  | move =>
    obtain ⟨d, hd, _, hout⟩ := w.destination hk
    simp only [hd, Option.getD_some, List.pairwise_cons, List.mem_singleton, forall_eq,
      List.not_mem_nil, false_imp_iff, implies_true, List.Pairwise.nil, and_true]
    simp only [Edit.Overlaps, if_true]
    omega

theorem edits_eq_of_ends {index : Nat} {a b : Edit} (ha : a ∈ c.edits source index)
    (hb : b ∈ c.edits source index) (start : a.start = b.start) (stop : a.stop = b.stop) :
    a = b := by
  unfold edits at ha hb
  cases hk : c.kind with
  | insert => simp [hk] at ha hb; rw [ha, hb]
  | replace => simp [hk] at ha hb; rw [ha, hb]
  | delete => simp [hk] at ha hb; rw [ha, hb]
  | move =>
    simp only [hk, List.mem_cons, List.not_mem_nil, or_false] at ha hb
    rcases ha with rfl | rfl <;> rcases hb with rfl | rfl
    · rfl
    · have empty : c.location.endIndex = c.location.startIndex := stop.trans start.symm
      have same : c.location.startIndex = c.destination.getD c.location.startIndex := start
      rw [empty, Text.getD_slice?_self, ← same]
    · have empty : c.location.endIndex = c.location.startIndex := stop.symm.trans start
      have same : c.destination.getD c.location.startIndex = c.location.startIndex := start
      rw [empty, Text.getD_slice?_self, same]
    · rfl

end Change

end SourceTree
