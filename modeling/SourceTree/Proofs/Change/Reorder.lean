import Mathlib.Data.Prod.Lex
import SourceTree.Proofs.Change.Weave
import SourceTree.Proofs.Sorting

/-!
The order of a batch. Whether a batch is accepted does not depend on the order of its changes. The
new source does not depend on it either as long as the changes that put text at one and the same
offset keep their order: what two edits cover tells which of them comes first, and only edits that
cover nothing can tie.
-/

namespace SourceTree

/-- Elements that contribute nothing may be left out. -/
theorem flatMap_filter {α β : Type} {p : α → Bool} {f : α → List β} {as : List α}
    (h : ∀ a ∈ as, p a = false → f a = []) : (as.filter p).flatMap f = as.flatMap f := by
  induction as with
  | nil => rfl
  | cons a as ih =>
    have tail := ih fun x hx => h x (by simp [hx])
    cases keep : p a with
    | true => rw [List.filter_cons_of_pos keep, List.flatMap_cons, List.flatMap_cons, tail]
    | false =>
      rw [List.filter_cons_of_neg (by simp [keep]), List.flatMap_cons, h a (by simp) keep, tail,
        List.nil_append]

namespace Text

theorem slice?_append_slice? {cs x y : Text} {i j k : Nat} (h : slice? cs i j = some x)
    (h' : slice? cs j k = some y) : slice? cs i k = some (x ++ y) := by
  obtain ⟨front, back, hx, rfl, rfl⟩ := slice?_eq_some_iff.mp h
  obtain ⟨front', back', hy, hf, rfl⟩ := slice?_eq_some_iff.mp h'
  have cut : (front ++ x) ++ back = front' ++ (y ++ back') := by
    rw [← hx, hy, List.append_assoc]
  obtain ⟨rfl, rfl⟩ := cut_unique cut (by rw [size_append, hf])
  refine slice?_eq_some_iff.mpr ⟨front, back', by rw [hx]; simp, rfl, ?_⟩
  rw [size_append, Nat.add_assoc]

theorem slice?_append_drop? {cs x y : Text} {i j : Nat} (h : slice? cs i j = some x)
    (h' : drop? cs j = some y) : drop? cs i = some (x ++ y) := by
  obtain ⟨front, back, rfl, rfl, rfl⟩ := slice?_eq_some_iff.mp h
  rw [← size_append, drop?_append, Option.some.injEq] at h'
  rw [← h', List.append_assoc, drop?_append]

end Text

namespace Edit

/-- What an edit covers: its start and its end, the start counting first. -/
def piece (e : Edit) : Nat ×ₗ Nat := toLex (e.start, e.stop)

/-- An edit without its place in the batch. -/
def bare (e : Edit) : Edit := { e with index := 0 }

/-- The edit takes nothing away and puts some text at an offset. -/
def PutsAt (p : Nat) (e : Edit) : Prop := e.start = p ∧ e.stop = p ∧ e.content ≠ []

/-- The edit takes nothing away and puts nothing. -/
def Idle (e : Edit) : Prop := e.start = e.stop ∧ e.content = []

instance (p : Nat) : DecidablePred (PutsAt p) := fun _ => inferInstanceAs (Decidable (_ ∧ _))

instance : DecidablePred Idle := fun _ => inferInstanceAs (Decidable (_ ∧ _))

theorem piece_le_of_le {a b : Edit} (h : le a b = true) : a.piece ≤ b.piece := by
  rw [le_iff] at h
  rw [piece, piece, Prod.Lex.toLex_le_toLex]
  dsimp only
  omega

theorem piece_eq_iff {e : Edit} {s t : Nat} :
    e.piece = toLex (s, t) ↔ e.start = s ∧ e.stop = t := by
  simp [piece]

end Edit

namespace Change

variable {allowTouching : Bool} {source : Text} {changes changes' : List Change} {es : List Edit}

/-- The change puts text at an offset where it takes nothing away: an insertion, the destination of
a move, or the replacement of an empty piece. -/
def PutsAt (source : Text) (p : Nat) (c : Change) : Prop := ∃ e ∈ c.edits source 0, e.PutsAt p

instance (source : Text) (p : Nat) : DecidablePred (PutsAt source p) :=
  fun c => inferInstanceAs (Decidable (∃ e ∈ c.edits source 0, e.PutsAt p))

theorem edits_bare (source : Text) (index : Nat) (c : Change) :
    (c.edits source index).map Edit.bare = c.edits source 0 := by
  unfold edits
  cases c.kind <;> rfl

theorem mem_edits_bare {index : Nat} {c : Change} {e : Edit} (h : e ∈ c.edits source index) :
    e.bare ∈ c.edits source 0 := by
  rw [← edits_bare source index c]
  exact List.mem_map_of_mem h

/-! ### The verdict -/

/-- No edit of the one change overlaps an edit of the other. -/
def Clear (allowTouching : Bool) (source : Text) (c d : Change) : Prop :=
  ∀ a ∈ c.edits source 0, ∀ b ∈ d.edits source 0, ¬a.Overlaps allowTouching b

theorem no_conflict_iff (h : ∀ c ∈ changes, WellFormed source c) :
    (∀ i j, ¬Conflict allowTouching source changes i j) ↔
      changes.Pairwise (Clear allowTouching source) := by
  rw [List.pairwise_iff_getElem]
  constructor
  · intro free i j hi hj lt a ha b hb overlap
    have owns {i : Nat} (hi : i < changes.length) {e : Edit} (he : e ∈ changes[i].edits source 0) :
        ∃ e', Owns source changes i e' ∧ e'.start = e.start ∧ e'.stop = e.stop := by
      rw [← edits_bare source i] at he
      obtain ⟨e', he', rfl⟩ := List.mem_map.mp he
      exact ⟨e', ⟨_, List.getElem?_eq_getElem hi, h _ (List.getElem_mem hi), he'⟩, rfl, rfl⟩
    obtain ⟨a', ownsA, as, at'⟩ := owns hi ha
    obtain ⟨b', ownsB, bs, bt⟩ := owns hj hb
    refine free i j ⟨by omega, a', b', ownsA, ownsB, ?_⟩
    unfold Edit.Overlaps at overlap ⊢
    rwa [as, at', bs, bt]
  · rintro apart i j ⟨ne, a, b, ⟨c, hc, -, ha⟩, ⟨d, hd, -, hb⟩, overlap⟩
    obtain ⟨hi, rfl⟩ := List.getElem?_eq_some_iff.mp hc
    obtain ⟨hj, rfl⟩ := List.getElem?_eq_some_iff.mp hd
    rcases Nat.lt_or_gt_of_ne ne with lt | lt
    · exact apart i j hi hj lt a.bare (mem_edits_bare ha) b.bare (mem_edits_bare hb) overlap
    · exact apart j i hj hi lt b.bare (mem_edits_bare hb) a.bare (mem_edits_bare ha) overlap.symm

theorem validate_eq_nil_iff_clear :
    validate allowTouching source changes = [] ↔
      (∀ c ∈ changes, WellFormed source c) ∧ changes.Pairwise (Clear allowTouching source) := by
  rw [validate_eq_nil_iff]
  exact and_congr_right no_conflict_iff

theorem validate_eq_nil_perm (perm : changes.Perm changes') :
    validate allowTouching source changes = [] ↔ validate allowTouching source changes' = [] := by
  have symm : ∀ {c d : Change}, Clear allowTouching source c d → Clear allowTouching source d c :=
    fun clear a ha b hb overlap => clear b hb a ha overlap.symm
  have same : (∀ c ∈ changes, WellFormed source c) ↔ ∀ c ∈ changes', WellFormed source c :=
    forall_congr' fun c => by rw [perm.mem_iff]
  rw [validate_eq_nil_iff_clear, validate_eq_nil_iff_clear, same, perm.pairwise_iff symm]

/-! ### Edits that do nothing -/

theorem weave?_bare (source : Text) (pos : Nat) (es : List Edit) :
    weave? source pos (es.map Edit.bare) = weave? source pos es := by
  induction es generalizing pos with
  | nil => rfl
  | cons e es ih => simp only [List.map_cons, weave?, Edit.bare, ih]

/-- The pass may stop at any offset on the way to the next edit. -/
theorem weave?_from {pos p : Nat} {gap woven : Text} (first : Text.slice? source pos p = some gap)
    (h : weave? source p es = some woven) :
    weave? source pos es = some (gap ++ woven) := by
  cases es with
  | nil => exact Text.slice?_append_drop? first h
  | cons e es =>
    simp only [weave?, Option.pure_def, Option.bind_eq_bind, Option.bind_eq_some_iff,
      Option.some.injEq] at h ⊢
    obtain ⟨next, hn, rest, hr, rfl⟩ := h
    exact ⟨gap ++ next, Text.slice?_append_slice? first hn, rest, hr, by simp⟩

theorem weave?_idle {pos : Nat} {woven : Text} (h : weave? source pos es = some woven) :
    weave? source pos (es.filter fun e => ¬e.Idle) = some woven := by
  induction es generalizing pos woven with
  | nil => exact h
  | cons e es ih =>
    simp only [weave?, Option.pure_def, Option.bind_eq_bind, Option.bind_eq_some_iff,
      Option.some.injEq] at h
    obtain ⟨gap, hg, rest, hr, rfl⟩ := h
    have tail := ih hr
    by_cases idle : e.Idle
    · obtain ⟨width, content⟩ := idle
      rw [List.filter_cons_of_neg (by simp [Edit.Idle, width, content]), content, List.append_nil]
      rw [← width] at tail
      exact weave?_from hg tail
    · rw [List.filter_cons_of_pos (by simpa using idle), weave?, hg, tail]
      rfl

/-! ### Edits with one and the same piece -/

theorem batchEdits_bare (source : Text) (changes : List Change) :
    (batchEdits source changes).map Edit.bare = changes.flatMap (edits source 0) := by
  unfold batchEdits
  rw [List.map_flatMap]
  simp only [edits_bare]
  rw [← List.flatMap_map Prod.fst (edits source 0), List.zipIdx_map_fst]

theorem batchEdits_index_le (source : Text) (changes : List Change) :
    (batchEdits source changes).Pairwise fun a b => a.index ≤ b.index := by
  unfold batchEdits
  refine List.pairwise_flatMap.mpr ⟨?_, ?_⟩
  · rintro ⟨c, index⟩ -
    refine List.Pairwise.imp_of_mem ?_ (List.pairwise_of_forall fun _ _ => trivial)
    intro a b ha hb _
    rw [edits_index ha, edits_index hb]
  · have ascending : (changes.zipIdx.map Prod.snd).Pairwise (· < ·) := by
      rw [List.zipIdx_map_snd]
      exact List.pairwise_lt_range'
    refine (List.pairwise_map.mp ascending).imp ?_
    intro p q lt a ha b hb
    rw [edits_index ha, edits_index hb]
    omega

/-- Sorting leaves the edits that put text at one offset in the order of the batch. -/
theorem filter_putsAt_mergeSort (source : Text) (changes : List Change) (p : Nat) :
    ((batchEdits source changes).mergeSort Edit.le).filter (Edit.PutsAt p) =
      (batchEdits source changes).filter (Edit.PutsAt p) := by
  let edits := batchEdits source changes
  have sorted : (edits.filter (Edit.PutsAt p)).Pairwise fun a b => Edit.le a b = true := by
    refine ((batchEdits_index_le source changes).filter _).imp_of_mem ?_
    intro a b ha hb le
    obtain ⟨as, at', -⟩ := of_decide_eq_true (List.mem_filter.mp ha).2
    obtain ⟨bs, bt, -⟩ := of_decide_eq_true (List.mem_filter.mp hb).2
    rw [Edit.le_iff]
    omega
  exact filter_mergeSort Edit.le_trans Edit.le_total sorted

/-- The edits of a batch that do something, in the order of the source. -/
def liveEdits (source : Text) (changes : List Change) : List Edit :=
  (((batchEdits source changes).mergeSort Edit.le).map Edit.bare).filter fun e => ¬e.Idle

theorem liveEdits_sorted (source : Text) (changes : List Change) :
    (liveEdits source changes).Pairwise fun a b => a.piece ≤ b.piece := by
  have sorted : ((batchEdits source changes).mergeSort Edit.le).Pairwise
      fun a b => Edit.le a b = true :=
    List.pairwise_mergeSort Edit.le_trans Edit.le_total _
  refine (List.pairwise_map.mpr ?_).filter _
  exact sorted.imp fun le => Edit.piece_le_of_le le

theorem liveEdits_perm (perm : changes.Perm changes') :
    (liveEdits source changes).Perm (liveEdits source changes') := by
  have bare (changes : List Change) :
      (((batchEdits source changes).mergeSort Edit.le).map Edit.bare).Perm
        (changes.flatMap (edits source 0)) := by
    rw [← batchEdits_bare]
    exact (List.mergeSort_perm _ _).map _
  exact ((bare changes).trans ((perm.flatMap_right _).trans (bare changes').symm)).filter _

/-- The live edits at a point, by the changes that put text there. -/
theorem liveEdits_point (source : Text) (changes : List Change) (p : Nat) :
    (liveEdits source changes).filter (Edit.piece · = toLex (p, p)) =
      (changes.filter (PutsAt source p)).flatMap
        fun c => (c.edits source 0).filter (Edit.PutsAt p) := by
  have puts (e : Edit) : (e.piece = toLex (p, p) ∧ ¬e.Idle) ↔ e.PutsAt p := by
    rw [Edit.piece_eq_iff]
    constructor
    · rintro ⟨⟨hs, ht⟩, live⟩
      exact ⟨hs, ht, fun empty => live ⟨hs.trans ht.symm, empty⟩⟩
    · rintro ⟨hs, ht, content⟩
      exact ⟨⟨hs, ht⟩, fun idle => content idle.2⟩
  have bare (es : List Edit) :
      (es.map Edit.bare).filter (Edit.PutsAt p) = (es.filter (Edit.PutsAt p)).map Edit.bare :=
    List.filter_map
  have others : ∀ c ∈ changes, decide (PutsAt source p c) = false →
      (c.edits source 0).filter (Edit.PutsAt p) = [] := by
    intro c _ never
    refine List.filter_eq_nil_iff.mpr fun e he => ?_
    simpa using fun put => of_decide_eq_false never ⟨e, he, put⟩
  calc (liveEdits source changes).filter (Edit.piece · = toLex (p, p))
    _ = (((batchEdits source changes).mergeSort Edit.le).map Edit.bare).filter (Edit.PutsAt p) := by
        simp only [liveEdits, List.filter_filter, ← Bool.decide_and, puts]
    _ = ((batchEdits source changes).map Edit.bare).filter (Edit.PutsAt p) := by
        rw [bare, bare, filter_putsAt_mergeSort]
    _ = changes.flatMap fun c => (c.edits source 0).filter (Edit.PutsAt p) := by
        rw [batchEdits_bare, List.filter_flatMap]
    _ = _ := (flatMap_filter others).symm

theorem mergeSort_batchEdits_inOrder (valid : validate allowTouching source changes = []) :
    InOrder source (((batchEdits source changes).mergeSort Edit.le).map Edit.bare) := by
  have inOrder := batchEdits_inOrder valid
  refine ⟨?_, ?_, List.pairwise_map.mpr inOrder.apart⟩
  · exact List.forall_mem_map.mpr inOrder.ordered
  · exact List.forall_mem_map.mpr inOrder.boundaries

theorem liveEdits_eq (perm : changes.Perm changes')
    (valid : validate allowTouching source changes = [])
    (kept : ∀ p, changes.filter (PutsAt source p) = changes'.filter (PutsAt source p)) :
    liveEdits source changes = liveEdits source changes' := by
  refine eq_of_sorted_fibers (liveEdits_sorted source changes) (liveEdits_sorted source changes') ?_
  intro k
  obtain ⟨⟨s, t⟩, rfl⟩ := toLex.surjective k
  by_cases point : s = t
  · subst point
    rw [liveEdits_point, liveEdits_point, kept]
  · -- Two edits that cover the same characters would overlap, so there is one of them at most.
    have inOrder := mergeSort_batchEdits_inOrder valid
    have inOrder' := mergeSort_batchEdits_inOrder ((validate_eq_nil_perm perm).mp valid)
    refine ((liveEdits_perm perm).filter _).eq_of_pairwise ?_
      ((inOrder.apart.filter _).filter _) ((inOrder'.apart.filter _).filter _)
    intro a b ha hb ab ba
    obtain ⟨ha, pa⟩ := List.mem_filter.mp ha
    obtain ⟨hb, pb⟩ := List.mem_filter.mp hb
    obtain ⟨as, at'⟩ := Edit.piece_eq_iff.mp (of_decide_eq_true pa)
    obtain ⟨bs, bt⟩ := Edit.piece_eq_iff.mp (of_decide_eq_true pb)
    have := inOrder.ordered a (List.mem_filter.mp ha).1
    omega

/-! ### The new source -/

theorem carryOut?_live (valid : validate allowTouching source changes = []) :
    ∃ output, carryOut? allowTouching source changes = some (.applied output changes.length) ∧
      weave? source 0 (liveEdits source changes) = some output := by
  obtain ⟨output, applied, woven⟩ := carryOut?_woven valid
  exact ⟨output, applied, weave?_idle ((weave?_bare ..).trans woven)⟩

/-- A batch and any reordering of it are both accepted or both rejected. If they are accepted and
changes that put text at one and the same offset are in the same order in both, the new source is
the same. -/
theorem carryOut?_reorder (allowTouching : Bool) (source : Text) (perm : changes.Perm changes') :
    (validate allowTouching source changes = [] ↔ validate allowTouching source changes' = []) ∧
    (validate allowTouching source changes = [] →
      (∀ p, changes.filter (PutsAt source p) = changes'.filter (PutsAt source p)) →
      ∃ output, carryOut? allowTouching source changes = some (.applied output changes.length) ∧
        carryOut? allowTouching source changes' = some (.applied output changes'.length)) := by
  refine ⟨validate_eq_nil_perm perm, ?_⟩
  intro valid kept
  obtain ⟨output, applied, woven⟩ := carryOut?_live valid
  obtain ⟨output', applied', woven'⟩ := carryOut?_live ((validate_eq_nil_perm perm).mp valid)
  rw [liveEdits_eq perm valid kept, woven', Option.some.injEq] at woven
  exact ⟨output, applied, woven ▸ applied'⟩

/-- A deletion may come before or after two insertions at its end. -/
theorem carryOut?_reorder_deletion :
    [insertAt 1 "x", deleteRange ⟨0, 0, 0, 0, 0, 1⟩, insertAt 1 "y"].Perm
        [deleteRange ⟨0, 0, 0, 0, 0, 1⟩, insertAt 1 "x", insertAt 1 "y"] ∧
      carryOut? true "ab".toList
          [deleteRange ⟨0, 0, 0, 0, 0, 1⟩, insertAt 1 "x", insertAt 1 "y"] =
        some (.applied "xyb".toList 3) := by
  have perm : [insertAt 1 "x", deleteRange ⟨0, 0, 0, 0, 0, 1⟩, insertAt 1 "y"].Perm
      [deleteRange ⟨0, 0, 0, 0, 0, 1⟩, insertAt 1 "x", insertAt 1 "y"] := List.Perm.swap ..
  have valid : validate true "ab".toList
      [insertAt 1 "x", deleteRange ⟨0, 0, 0, 0, 0, 1⟩, insertAt 1 "y"] = [] := by cbv
  have first : carryOut? true "ab".toList
      [insertAt 1 "x", deleteRange ⟨0, 0, 0, 0, 0, 1⟩, insertAt 1 "y"] =
        some (.applied "xyb".toList 3) := by cbv
  have deletes (p : Nat) : ¬PutsAt "ab".toList p (deleteRange ⟨0, 0, 0, 0, 0, 1⟩) := by
    rintro ⟨e, he, -, -, content⟩
    obtain rfl := List.mem_singleton.mp he
    exact content rfl
  obtain ⟨output, applied, applied'⟩ := (carryOut?_reorder true "ab".toList perm).2 valid (by
    intro p
    simp only [List.filter_cons, deletes p, decide_false, Bool.false_eq_true, if_false])
  rw [first, Option.some.injEq, Outcome.applied.injEq] at applied
  exact ⟨perm, by rw [applied', ← applied.1]; rfl⟩

end Change

end SourceTree
