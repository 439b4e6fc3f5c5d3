import SourceTree.Proofs.Scan.Mask
import SourceTree.Scan.Bracket
import SourceTree.Scan.Split

/-!
What brackets and separators cut out of a text. A closing bracket stands behind its opening one, and
each piece between separators is a solid piece of the text at the offset that it is given.
-/

namespace SourceTree.Scan

open Text (Opens Closes)

theorem closing?_split {opener closer : Char} {depth offset close : Nat} {cs : Text}
    (h : closing? opener closer depth offset cs = some close) :
    ∃ mid back, cs = mid ++ closer :: back ∧ close = offset + Text.size mid := by
  induction cs generalizing depth offset with
  | nil => simp [closing?] at h
  | cons c cs ih =>
    have further {d : Nat} (h : closing? opener closer d (offset + c.utf8Size) cs = some close) :
        ∃ mid back, c :: cs = mid ++ closer :: back ∧ close = offset + Text.size mid := by
      obtain ⟨mid, back, rfl, rfl⟩ := ih h
      exact ⟨c :: mid, back, rfl, by rw [Text.size_cons, Nat.add_assoc]⟩
    rw [closing?] at h
    split at h
    next => exact further h
    next =>
      split at h
      next hc =>
        split at h
        next =>
          subst hc
          exact ⟨[], cs, rfl, by simpa using h.symm⟩
        next => exact further h
      next => exact further h

theorem findMatching?_split {text : Text} {start close : Nat} {opener closer : Char}
    (ne : opener ≠ closer) (h : findMatching? text start opener closer = some close) :
    ∃ front mid back, text = front ++ opener :: mid ++ closer :: back ∧
      Text.size front = start ∧ start + opener.utf8Size + Text.size mid = close := by
  unfold findMatching? at h
  split at h
  next c cs hd =>
    obtain ⟨front, rfl, hf⟩ := Text.split_of_drop? hd
    split at h
    next hc =>
      subst hc
      rw [closing?, if_pos rfl] at h
      obtain ⟨mid, back, rfl, rfl⟩ := closing?_split h
      exact ⟨front, mid, back, by simp, hf, rfl⟩
    next => simp at h
  next => simp at h

/-- What stands between two matching brackets, and the same with the brackets. -/
theorem findMatching?_slices {text : Text} {start close : Nat} {opener closer : Char}
    (ne : opener ≠ closer) (ho : opener.utf8Size = 1) (hc : closer.utf8Size = 1)
    (h : findMatching? text start opener closer = some close) :
    ∃ mid, Text.slice? text (start + 1) close = some mid ∧
      Text.slice? text start (close + 1) = some (opener :: mid ++ [closer]) := by
  obtain ⟨front, mid, back, rfl, rfl, rfl⟩ := findMatching?_split ne h
  refine ⟨mid, Text.slice?_eq_some_iff.mpr ⟨front ++ [opener], closer :: back, by simp, ?_, ?_⟩,
    Text.slice?_eq_some_iff.mpr ⟨front, back, by simp, rfl, ?_⟩⟩
  · rw [Text.size_append, Text.size_cons, Text.size_nil, ho]
  · rw [ho]
  · rw [Text.size_append, Text.size_cons, Text.size_cons, Text.size_nil, ho, hc]
    omega

theorem findMatchingBefore?_eq_some {text : Text} {start limit close : Nat} {opener closer : Char} :
    findMatchingBefore? text start limit opener closer = some close ↔
      findMatching? text start opener closer = some close ∧ close < limit := by
  simp [findMatchingBefore?, Option.filter_eq_some_iff]

theorem cutTopLevel_ne_nil (separator : Char) (angles : Bool) (depth : Int32) (cs : Text) :
    cutTopLevel separator angles depth cs ≠ [] := by
  fun_cases cutTopLevel separator angles depth cs <;> simp

/-- Pieces that can all be read one by one can be read. -/
theorem exists_mapM {α β : Type} {f : α → Option β} {post : β → Prop} {xs : List α}
    (h : ∀ x ∈ xs, ∃ y, f x = some y ∧ post y) :
    ∃ ys, xs.mapM f = some ys ∧ ∀ y ∈ ys, post y := by
  induction xs with
  | nil => exact ⟨[], rfl, by simp⟩
  | cons x xs ih =>
    obtain ⟨y, hy, post_y⟩ := h x (by simp)
    obtain ⟨ys, hys, post_ys⟩ := ih fun z hz => h z (by simp [hz])
    exact ⟨y :: ys, by simp [List.mapM_cons, hy, hys], by simpa using ⟨post_y, post_ys⟩⟩

/-- The raw pieces with the separators between them are the text. -/
theorem intercalate_cutTopLevel (separator : Char) (angles : Bool) (depth : Int32) (cs : Text) :
    [separator].intercalate (cutTopLevel separator angles depth cs) = cs := by
  induction cs generalizing depth with
  | nil => simp [cutTopLevel, List.intercalate]
  | cons c cs ih =>
    rw [cutTopLevel]
    split
    next hc =>
      have join := ih depth
      cases hp : cutTopLevel separator angles depth cs with
      | nil => exact absurd hp (cutTopLevel_ne_nil _ _ _ _)
      | cons piece pieces =>
        rw [hp] at join
        rw [← join, ← hc.1]
        simp [List.intercalate, hc.1]
    next =>
      have join := ih (depthAfter angles depth c)
      cases hp : cutTopLevel separator angles (depthAfter angles depth c) cs with
      | nil => exact absurd hp (cutTopLevel_ne_nil _ _ _ _)
      | cons piece pieces =>
        rw [hp] at join
        rw [← join]
        cases pieces <;> simp [List.intercalate]

theorem placePieces_split {separator : Char} {offset : Nat} {pieces : List Text} {s : Span}
    (h : s ∈ placePieces separator.utf8Size offset pieces) :
    ∃ front back, [separator].intercalate pieces = front ++ s.text ++ back ∧
      s.start = offset + Text.size front ∧
      (s.text = [] ∨ Opens (· ≠ ' ') s.text ∧ Closes (· ≠ ' ') s.text) := by
  induction pieces generalizing offset with
  | nil => simp [placePieces] at h
  | cons piece pieces ih =>
    rcases List.mem_cons.mp h with rfl | h
    · obtain ⟨lead, tail, hp, hs, ho⟩ := Text.trim_split piece
      cases pieces with
      | nil => exact ⟨lead, tail, by simpa using hp, by simp [hs], ho⟩
      | cons next pieces =>
        refine ⟨lead, tail ++ separator :: [separator].intercalate (next :: pieces), ?_,
          by simp [hs], ho⟩
        calc [separator].intercalate (piece :: next :: pieces)
            = piece ++ separator :: [separator].intercalate (next :: pieces) := by
              simp [List.intercalate_cons_cons]
          _ = lead ++ Text.trim piece ++ tail ++
                separator :: [separator].intercalate (next :: pieces) := by rw [← hp]
          _ = lead ++ Text.trim piece ++
                (tail ++ separator :: [separator].intercalate (next :: pieces)) := by simp
    · obtain ⟨front, back, hc, hs, ho⟩ := ih h
      cases pieces with
      | nil => simp [placePieces] at h
      | cons next pieces =>
        refine ⟨piece ++ separator :: front, back, ?_, ?_, ho⟩
        · rw [List.intercalate_cons_cons, hc]
          simp
        · rw [hs, Text.size_append, Text.size_cons]
          omega

/-- Each piece between the separators is solid and stands in the text at its offset. -/
theorem splitTopLevel_slice {text : Text} {separator : Char} {angles : Bool} {s : Span}
    (h : s ∈ splitTopLevel text separator angles) :
    Text.slice? text s.start s.stop = some s.text ∧
      Opens (· ≠ ' ') s.text ∧ Closes (· ≠ ' ') s.text := by
  obtain ⟨hs, full⟩ := List.mem_filter.mp h
  obtain ⟨front, back, hc, hp, ho⟩ := placePieces_split hs
  rw [intercalate_cutTopLevel] at hc
  refine ⟨Text.slice?_eq_some_iff.mpr ⟨front, back, hc, ?_, rfl⟩, ho.resolve_left ?_⟩
  · rw [hp, Nat.zero_add]
  · simpa using full

theorem Masks.slice_piece {s m list : Text} {start stop : Nat} {separator : Char} {angles : Bool}
    {piece : Span} (h : Masks s m) (hl : Text.slice? m start stop = some list)
    (hp : piece ∈ splitTopLevel list separator angles) :
    ∃ t, Text.slice? s (start + piece.start) (start + piece.stop) = some t ∧
      Masks t piece.text := by
  obtain ⟨hs, opens, closes⟩ := splitTopLevel_slice hp
  exact h.slice_solid (Text.slice?_slice? hl hs) opens closes

theorem Masks.slice_inner {s m : Text} {start close : Nat} {opener closer : Char} (h : Masks s m)
    (hf : findMatching? m start opener closer = some close) (ne : opener ≠ closer)
    (ho : opener.utf8Size = 1) (solid : opener ≠ ' ' ∧ closer ≠ ' ') :
    ∃ mid t, Text.slice? m (start + 1) close = some mid ∧
      Text.slice? s (start + 1) close = some t ∧ Masks t mid := by
  obtain ⟨front, mid, back, rfl, rfl, rfl⟩ := findMatching?_split ne hf
  have inner : Text.slice? (front ++ opener :: mid ++ closer :: back) (Text.size front + 1)
      (Text.size front + opener.utf8Size + Text.size mid) = some mid := by
    refine Text.slice?_eq_some_iff.mpr ⟨front ++ [opener], closer :: back, by simp, ?_, by rw [ho]⟩
    rw [Text.size_append, Text.size_cons, Text.size_nil, ho]
  obtain ⟨t, ht, masks⟩ := h.slice_of_edges inner
    (h.boundary_of_edge ⟨front, opener, mid ++ closer :: back, by simp, solid.1,
      .inr (by rw [ho])⟩)
    (h.boundary_of_edge ⟨front ++ opener :: mid, closer, back, by simp, solid.2,
      .inl (by rw [Text.size_append, Text.size_cons]; omega)⟩)
  exact ⟨mid, t, inner, ht, masks⟩

end SourceTree.Scan
