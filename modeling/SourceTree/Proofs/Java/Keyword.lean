import Mathlib.Data.List.Basic
import SourceTree.Proofs.Java.Header
import SourceTree.Proofs.Pattern.Prefers

/-!
The keywords in front of lists of supertypes. They are words: a search finds each one that stands
between edges, and nothing else, so a text without them is one over which it passes.
-/

namespace SourceTree.Java

open Pattern

/-- The words that open a list of supertypes. -/
def heritageWords : List String := ["extends", "implements", "permits"]

/-- No word of the text opens a list of supertypes. -/
def Unkeyed (w : Text) : Prop :=
  ∀ word ∈ heritageWords, word.toList ∉ Text.splitBy (fun c => !Text.isWord c) w

instance : DecidablePred Unkeyed := fun w =>
  inferInstanceAs (Decidable (∀ word ∈ heritageWords, word.toList ∉ Text.splitBy _ w))

/-- There is no word character here. -/
def Apart (x : Option Char) : Prop := (x.map Text.isWord).getD false = false

variable {c : Cursor} {gs : Groups} {k : Continuation} {w u v rest : Text} {word : String}

/-! ### Texts without keywords -/

theorem unkeyed_cut {x : Char} (hx : Text.isWord x = false) :
    Unkeyed (u ++ x :: v) ↔ Unkeyed u ∧ Unkeyed v := by
  unfold Unkeyed
  rw [Text.splitBy_cut (by simp [hx])]
  simp only [List.mem_append, not_or, forall_and]

theorem unkeyed_cons {x : Char} (hx : Text.isWord x = false) : Unkeyed (x :: w) ↔ Unkeyed w := by
  have cut := @unkeyed_cut [] w x hx
  rw [List.nil_append] at cut
  rw [cut, and_iff_right (by decide)]

theorem Unkeyed.of_blank_append (hu : ∀ x ∈ u, Text.isBlank x = true) (h : Unkeyed (u ++ w)) :
    Unkeyed w := by
  induction u with
  | nil => exact h
  | cons x u ih =>
    have blank := Text.not_isWord_of_isBlank (hu x (by simp))
    exact ih (fun y hy => hu y (by simp [hy])) ((unkeyed_cons blank).mp h)

theorem Unkeyed.of_append_blank (hv : ∀ x ∈ v, Text.isBlank x = true) (h : Unkeyed (w ++ v)) :
    Unkeyed w := by
  cases v with
  | nil => simpa using h
  | cons x v => exact ((unkeyed_cut (Text.not_isWord_of_isBlank (hv x (by simp)))).mp h).1

theorem Unkeyed.trim (h : Unkeyed w) : Unkeyed (Text.trim w) := by
  obtain ⟨lead, front, -, blank, -⟩ := Text.trimStart_split w
  obtain ⟨tail, back, blank', -⟩ := Text.trimEnd_split (Text.trimStart w)
  have front : Unkeyed (lead ++ Text.trimStart w) := front ▸ h
  have back : Unkeyed (Text.trim w ++ tail) := back ▸ front.of_blank_append blank
  exact back.of_append_blank blank'

theorem unkeyed_intercalate {pieces : List Text} :
    Unkeyed ([','].intercalate pieces) ↔ ∀ piece ∈ pieces, Unkeyed piece := by
  induction pieces with
  | nil => exact iff_of_true (by decide) (by simp)
  | cons piece pieces ih =>
    cases pieces with
    | nil => simp
    | cons next pieces =>
      rw [List.intercalate_cons_cons, List.append_assoc, List.singleton_append,
        unkeyed_cut (by decide), ih, List.forall_mem_cons (l := next :: pieces)]

/-- A text has the word that stands between two of its edges. -/
theorem mem_splitBy {word : Text} (words : ∀ x ∈ word, Text.isWord x = true)
    (hu : Apart u.getLast?) (hv : Apart v.head?) :
    word ∈ Text.splitBy (fun x => !Text.isWord x) (u ++ (word ++ v)) := by
  have alone : Text.splitBy (fun x => !Text.isWord x) word = [word] :=
    Text.splitBy_of_none fun x hx => by simp [words x hx]
  have behind : word ∈ Text.splitBy (fun x => !Text.isWord x) (word ++ v) := by
    cases v with
    | nil => simp [alone]
    | cons x v =>
      have apart : Text.isWord x = false := hv
      rw [Text.splitBy_cut (by simp [apart]), alone]
      simp
  rcases List.eq_nil_or_concat u with rfl | ⟨init, x, rfl⟩
  · exact behind
  · rw [List.concat_eq_append, List.getLast?_concat] at hu
    have apart : Text.isWord x = false := hu
    rw [List.concat_eq_append, List.append_assoc, List.singleton_append,
      Text.splitBy_cut (by simp [apart])]
    exact List.mem_append_right _ behind

/-- A word of a text stands between two edges. -/
theorem exists_of_mem_splitBy {word : Text}
    (h : word ∈ Text.splitBy (fun x => !Text.isWord x) w) :
    ∃ u v, w = u ++ (word ++ v) ∧ Apart u.getLast? ∧ Apart v.head? := by
  induction size : w.length using Nat.strongRecOn generalizing w with
  | _ n ih =>
    by_cases letters : ∀ x ∈ w, Text.isWord x = true
    · rw [Text.splitBy_of_none fun x hx => by simp [letters x hx], List.mem_singleton] at h
      exact ⟨[], [], by simp [h], rfl, rfl⟩
    · obtain ⟨x, mem, edge⟩ : ∃ x ∈ w, Text.isWord x = false := by simpa using letters
      obtain ⟨a, b, rfl⟩ := List.append_of_mem mem
      rw [List.length_append, List.length_cons] at size
      rw [Text.splitBy_cut (by simp [edge]), List.mem_append] at h
      rcases h with h | h
      · obtain ⟨u, v, rfl, hu, hv⟩ := ih a.length (by omega) h rfl
        refine ⟨u, v ++ x :: b, by simp, hu, ?_⟩
        cases v with
        | nil => exact edge
        | cons => exact hv
      · obtain ⟨u, v, rfl, hu, hv⟩ := ih b.length (by omega) h rfl
        refine ⟨a ++ x :: u, v, by simp, ?_, hv⟩
        rcases List.eq_nil_or_concat u with rfl | ⟨init, y, rfl⟩
        · simpa [Apart] using edge
        · rw [List.concat_eq_append, List.getLast?_concat] at hu
          rw [List.concat_eq_append, ← List.cons_append, ← List.append_assoc, List.getLast?_concat]
          exact hu

/-! ### Finding the keywords -/

theorem isWord_of_mem_heritageWords (h : word ∈ heritageWords) :
    ∀ x ∈ word.toList, Text.isWord x = true := by
  revert word
  decide

theorem heritageWords_full (h : word ∈ heritageWords) : word.toList ≠ [] := by
  revert word
  decide

/-- At most one of the words stands in front of a text. -/
theorem heritageWords_sole (h : word ∈ heritageWords) :
    ∀ other ∈ heritageWords, other ≠ word → ¬other.toList <+: word.toList ++ rest := by
  have heads : ∀ word ∈ heritageWords, ∀ other ∈ heritageWords, other ≠ word →
      other.toList.head? ≠ word.toList.head? := by decide
  rintro other mem ne ⟨more, same⟩
  refine heads word h other mem ne ?_
  rw [← List.head?_append_of_ne_nil _ (heritageWords_full mem), same,
    List.head?_append_of_ne_nil _ (heritageWords_full h)]

theorem run_heritageKeyword : run heritageKeyword c gs k =
    if c.atWordEdge then run (anyOf (heritageWords.map lit)) c gs fun d hs =>
      if d.atWordEdge then k d ((1, c.spanTo d) :: hs) else none
    else none := rfl

/-- In front of one of the words there is an edge if no word character stands before it. -/
theorem atWordEdge_front (h : word ∈ heritageWords) (hc : c.rest = word.toList ++ rest) :
    c.atWordEdge = true ↔ Apart c.before := by
  obtain ⟨x, more, hx⟩ := List.exists_cons_of_ne_nil (heritageWords_full h)
  have letter : Text.isWord x = true := isWord_of_mem_heritageWords h x (by simp [hx])
  rw [Cursor.atWordEdge, hc, hx, Apart]
  simp [letter]

/-- Behind one of the words there is an edge if no word character follows. -/
theorem atWordEdge_behind (h : word ∈ heritageWords) (hc : c.rest = word.toList ++ rest) :
    (c.past word.toList).atWordEdge = true ↔ Apart rest.head? := by
  obtain ⟨init, x, hx⟩ := List.eq_nil_or_concat word.toList |>.resolve_left (heritageWords_full h)
  have letter : Text.isWord x = true := isWord_of_mem_heritageWords h x (by simp [hx])
  have before : (c.past word.toList).before = some x := by
    rw [Cursor.past, hx, List.concat_eq_append, List.getLast?_concat]
    rfl
  rw [Cursor.atWordEdge, before, Cursor.rest_past hc, Apart]
  simp [letter]

/-- A keyword is found where it stands between edges. -/
theorem next?_heritageWord (h : word ∈ heritageWords) (hc : c.rest = word.toList ++ rest)
    (before : Apart c.before) (behind : Apart rest.head?) :
    searchFrom?.next? heritageKeyword c = some (⟨⟨c.offset, word.toList⟩,
      [(1, ⟨c.offset, word.toList⟩)]⟩, c.past word.toList) := by
  have span : c.spanTo (c.past word.toList) = ⟨c.offset, word.toList⟩ := by
    refine spanTo_eq ?_
    rw [Cursor.rest_past hc, hc]
  have sole := @heritageWords_sole rest word h
  rw [← hc] at sole
  rw [searchFrom?.next?, run_heritageKeyword, if_pos ((atWordEdge_front h hc).mpr before),
    run_words h hc sole, if_pos ((atWordEdge_behind h hc).mpr behind), span, Option.map_some]
  dsimp only
  rw [span]

/-- Nothing else is found. -/
theorem next?_eq_some {r : Match × Cursor} (h : searchFrom?.next? heritageKeyword c = some r) :
    ∃ word ∈ heritageWords, ∃ rest, c.rest = word.toList ++ rest ∧ Apart c.before ∧
      Apart rest.head? := by
  obtain ⟨s, found, -⟩ := Option.map_eq_some_iff.mp h
  rw [run_heritageKeyword] at found
  split at found
  next edge =>
    obtain ⟨w, g, d, split, -, takes, -⟩ := run_takes found
    obtain ⟨word, mem, rfl, -⟩ := takes_words takes
    have sole := @heritageWords_sole d.rest word mem
    rw [← split] at sole
    rw [run_words mem split sole] at found
    refine ⟨word, mem, d.rest, split, (atWordEdge_front mem split).mp edge, ?_⟩
    rw [← atWordEdge_behind mem split]
    split at found
    next behind => exact behind
    next => cases found
  next => cases found

theorem apart_of_or {x y : Option Char} (h : Apart (x.or y)) : Apart x := by
  cases x with
  | none => rfl
  | some x => exact h

/-- Nothing is found before the end of the text, which stands at the cursor. -/
def Passed (c : Cursor) (w : Text) : Prop :=
  ∀ u v, w = u ++ v → v ≠ [] → searchFrom?.next? heritageKeyword (c.past u) = none

/-- In a text without keywords that ends with no word character, nothing is found, whatever is
behind it. -/
theorem Unkeyed.passed (unkeyed : Unkeyed w) (ends : Apart w.getLast?) (hc : c.rest = w ++ rest) :
    Passed c w := by
  rintro u v rfl full
  cases found : searchFrom?.next? heritageKeyword (c.past u) with
  | none => rfl
  | some r =>
    obtain ⟨word, mem, more, split, before, behind⟩ := next?_eq_some found
    rw [List.append_assoc] at hc
    rw [Cursor.rest_past hc] at split
    rcases List.append_eq_append_iff.mp split with ⟨v', hw, hr⟩ | ⟨v', rfl, hr⟩
    · -- The word would go on behind the text.
      obtain ⟨init, x, rfl⟩ := List.eq_nil_or_concat v |>.resolve_left full
      rw [List.concat_eq_append] at hw ends
      have letter : Text.isWord x = true := isWord_of_mem_heritageWords mem x (by simp [hw])
      rw [← List.append_assoc, List.getLast?_concat] at ends
      have apart : Text.isWord x = false := ends
      rw [letter] at apart
      cases apart
    · have head : Apart v'.head? := by
        rw [hr, List.head?_append] at behind
        exact apart_of_or behind
      exact absurd (mem_splitBy (isWord_of_mem_heritageWords mem) (apart_of_or before) head)
        (unkeyed word mem)

/-- A search passes over such a text. -/
theorem searchFrom?_unkeyed {before : Option Char} {offset : Nat} (unkeyed : Unkeyed w)
    (ends : Apart w.getLast?) :
    searchFrom? heritageKeyword before offset (w ++ rest) =
      searchFrom? heritageKeyword (w.getLast?.or before) (offset + Text.size w) rest :=
  searchFrom?_skip (unkeyed.passed ends rfl)

/-- Between edges, a text in which nothing is found is without keywords. -/
theorem Passed.unkeyed (passed : Passed c w) (hc : c.rest = w ++ rest) (opens : Apart w.head?)
    (closes : Apart w.getLast? ∨ rest = []) : Unkeyed w := by
  intro word mem found
  obtain ⟨u, v, rfl, hu, hv⟩ := exists_of_mem_splitBy found
  have letters := isWord_of_mem_heritageWords mem
  have full := heritageWords_full mem
  have before : Apart (c.past u).before := by
    rcases List.eq_nil_or_concat u with rfl | ⟨init, x, rfl⟩
    · obtain ⟨y, more, hy⟩ := List.exists_cons_of_ne_nil full
      rw [hy] at opens letters
      exact absurd (letters y (by simp)) (by simpa [Apart] using opens)
    · simpa [Cursor.past] using hu
  have behind : Apart (v ++ rest).head? := by
    cases v with
    | nil =>
      rcases closes with closes | rfl
      · obtain ⟨init, y, hy⟩ := List.eq_nil_or_concat word.toList |>.resolve_left full
        rw [hy] at closes letters
        exact absurd (letters y (by simp)) (by simpa [Apart] using closes)
      · rfl
    | cons x v => exact hv
  have here : (c.past u).rest = word.toList ++ (v ++ rest) := by
    refine Cursor.rest_past ?_
    rw [hc, List.append_assoc, List.append_assoc]
  have nothing := passed u (word.toList ++ v) rfl (by simp [full])
  rw [next?_heritageWord mem here before behind] at nothing
  cases nothing

theorem searchFrom?_nil {before : Option Char} {offset : Nat} :
    searchFrom? heritageKeyword before offset [] = none := by
  cases found : searchFrom?.next? heritageKeyword ⟨before, offset, []⟩ with
  | none => exact found
  | some r =>
    obtain ⟨word, mem, more, split, -⟩ := next?_eq_some found
    exact absurd (List.append_eq_nil_iff.mp split.symm).1 (heritageWords_full mem)

theorem searchFrom?_heritageWord {before : Option Char} {offset : Nat} (h : word ∈ heritageWords)
    (apart : Apart before) (behind : Apart rest.head?) :
    searchFrom? heritageKeyword before offset (word.toList ++ rest) =
      some (⟨⟨offset, word.toList⟩, [(1, ⟨offset, word.toList⟩)]⟩,
        (⟨before, offset, word.toList ++ rest⟩ : Cursor).past word.toList) := by
  have found := next?_heritageWord (c := ⟨before, offset, word.toList ++ rest⟩) h rfl apart behind
  obtain ⟨x, more, hx⟩ := List.exists_cons_of_ne_nil (heritageWords_full h)
  rw [hx, List.cons_append] at found ⊢
  rw [Pattern.searchFrom?, found]
  rfl

/-- A search finds the first keyword that stands between edges. -/
theorem exists_of_searchFrom? {r : Match × Cursor}
    (found : searchFrom? heritageKeyword c.before c.offset c.rest = some r) :
    ∃ lead, ∃ word ∈ heritageWords, ∃ rest, c.rest = lead ++ (word.toList ++ rest) ∧
      Passed c lead ∧ Apart (lead.getLast?.or c.before) ∧ Apart rest.head? ∧
      r.1.whole = ⟨c.offset + Text.size lead, word.toList⟩ ∧
      r.2 = (c.past lead).past word.toList := by
  obtain ⟨lead, back, split, here, passed⟩ := searchFrom?_first found
  obtain ⟨word, mem, rest, hr, before, behind⟩ := next?_eq_some here
  obtain rfl := Option.some.inj (here.symm.trans (next?_heritageWord mem hr before behind))
  have back_eq : (c.past lead).rest = back := Cursor.rest_past split
  exact ⟨lead, word, mem, rest, by rw [split, ← back_eq, hr], passed, before, behind, rfl, rfl⟩

end SourceTree.Java
