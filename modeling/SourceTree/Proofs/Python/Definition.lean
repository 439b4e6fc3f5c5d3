import SourceTree.Proofs.Python.Statement

/-!
When a class or function cannot be built: only where its body cannot. Which body is built depends on
the words that the header begins with, and a line that begins with them is no annotation.
-/

namespace SourceTree.Python

open Pattern
open Scan (LogicalLine LiesIn Masks maskIndent)
open Text (Boundary Opens)

variable {source : Text} {cx : Context} {line : LogicalLine}

/-- The kind of body that a line of code heads. -/
def heads (code : Text) : Option Scope :=
  if (classHeader.matchFront? code).isSome then some .classBody
  else if (defHeader.matchFront? code).isSome then some .functionBody
  else none

/-- A word, blanks and the beginning of another word. -/
def TwoWords (code : Text) : Prop :=
  ∃ word gap c rest, code = word ++ gap ++ c :: rest ∧ IsName word ∧ IsBlank gap ∧ gap ≠ [] ∧
    Text.isNameStart c = true

theorem takes_blanks1 {offset : Nat} {w : Text} {gs : Groups} (h : Takes blanks1 offset w gs) :
    IsBlank w ∧ w ≠ [] := by
  obtain ⟨full, all, -⟩ := takes_plus_one h
  exact ⟨all, full⟩

theorem takes_name_opens {offset slot : Nat} {w : Text} {gs : Groups}
    (h : Takes (group slot name) offset w gs) : Opens (fun c => Text.isNameStart c = true) w := by
  obtain ⟨g, -, u, v, g₁, g₂, rfl, -, ⟨c, rfl, hc, -⟩, -⟩ := h
  exact ⟨c, v, rfl, hc⟩

theorem twoWords_of_class {code : Text} {m : Match} (h : classHeader.matchFront? code = some m) :
    TwoWords code := by
  obtain ⟨rest, hc, -, ht⟩ := matchFront?_takes h
  obtain ⟨_, v, _, _, hw, -, ⟨_, gap, _, _, rfl, -, word, blanks⟩, named⟩ := ht
  obtain ⟨rfl, -⟩ := takes_lit word
  obtain ⟨blank, full⟩ := takes_blanks1 blanks
  obtain ⟨c, r, rfl, start⟩ := takes_name_opens named
  exact ⟨"class".toList, gap, c, r ++ rest, by rw [hc, hw]; simp,
    ⟨'c', "lass".toList, rfl, by decide, List.all_eq_true.mp (by decide)⟩, blank, full, start⟩

theorem twoWords_of_def {code : Text} {m : Match} (h : defHeader.matchFront? code = some m) :
    TwoWords code := by
  obtain ⟨rest, hc, -, ht⟩ := matchFront?_takes h
  obtain ⟨_, v, _, _, hw, -, ⟨_, gap, _, _, rfl, -, ⟨u, _, _, _, rfl, -, early, word⟩, blanks⟩,
    named⟩ := ht
  obtain ⟨rfl, -⟩ := takes_lit word
  obtain ⟨blank, full⟩ := takes_blanks1 blanks
  obtain ⟨c, r, rfl, start⟩ := takes_name_opens named
  rcases early with ⟨_, -, _, gap', _, _, rfl, -, word, blanks⟩ | ⟨rfl, -⟩
  · obtain ⟨rfl, -⟩ := takes_lit word
    obtain ⟨blank', full'⟩ := takes_blanks1 blanks
    exact ⟨"async".toList, gap', 'd', "ef".toList ++ gap ++ c :: r ++ rest, by rw [hc, hw]; simp,
      ⟨'a', "sync".toList, rfl, by decide, List.all_eq_true.mp (by decide)⟩, blank', full', by decide⟩
  · exact ⟨"def".toList, gap, c, r ++ rest, by rw [hc, hw]; simp,
      ⟨'d', "ef".toList, rfl, by decide, List.all_eq_true.mp (by decide)⟩, blank, full, start⟩

theorem twoWords_of_heads {code : Text} (h : heads code ≠ none) : TwoWords code := by
  unfold heads at h
  split at h
  next found =>
    obtain ⟨m, hm⟩ := Option.isSome_iff_exists.mp found
    exact twoWords_of_class hm
  next =>
    split at h
    next found =>
      obtain ⟨m, hm⟩ := Option.isSome_iff_exists.mp found
      exact twoWords_of_def hm
    next => exact absurd rfl h

theorem IsName.head?_ne {word : Text} (h : IsName word) (rest : Text) :
    (word ++ rest).head? ≠ some '@' := by
  obtain ⟨c, _, rfl, start, -⟩ := h
  intro head
  obtain rfl : c = '@' := by simpa using head
  exact absurd start (by decide)

theorem TwoWords.head?_ne {code : Text} (h : TwoWords code) : code.head? ≠ some '@' := by
  obtain ⟨word, gap, c, rest, rfl, hn, -⟩ := h
  rw [List.append_assoc]
  exact hn.head?_ne _

/-- In front of its colon a stranded annotation has one word only. -/
theorem Stranded.not_twoWords {content : Text} (h : Stranded content) :
    ¬TwoWords (maskIndent content) := by
  obtain ⟨word, gap, gap', comment, last, rfl, hn, -, hg, hg', hc, wide⟩ := h
  rintro ⟨word', blanks, c, rest, hcode, hn', hb, full, start⟩
  rw [maskIndent_stranded hn hg hg' (newline_not_mem_snoc hc wide), List.append_assoc,
    List.append_assoc] at hcode
  obtain ⟨rfl, hcode'⟩ := Text.span_unique hcode hn.isWord hn'.isWord
    (hg.opens (.inr not_isWord_colon) _) (hb.opens (.inl full) rest)
  have letter : Text.isBlank c = false := by
    apply Bool.eq_false_iff.mpr
    intro blank
    have word := Text.isWord_of_isNameStart start
    rw [Text.not_isWord_of_isBlank blank] at word
    exact absurd word (by decide)
  obtain ⟨-, hcolon⟩ := Text.span_unique (p := Text.isBlank) hcode' hg hb
    ⟨':', _, rfl, by decide⟩ ⟨c, rest, rfl, letter⟩
  obtain ⟨rfl, -⟩ := List.cons.inj hcolon
  exact absurd start (by decide)

theorem Stranded.head?_ne {content : Text} (h : Stranded content) :
    (maskIndent content).head? ≠ some '@' := by
  obtain ⟨word, gap, gap', comment, last, rfl, hn, -, hg, hg', hc, wide⟩ := h
  rw [maskIndent_stranded hn hg hg' (newline_not_mem_snoc hc wide), List.append_assoc]
  exact hn.head?_ne _

theorem Stranded.heads_eq_none {content : Text} (h : Stranded content) :
    heads (maskIndent content) = none := by
  apply Classical.byContradiction
  exact fun head => h.not_twoWords (twoWords_of_heads head)

theorem decoratorNode_safe (hcx : cx.Reads source) (hl : LiesIn source line) :
    Build.Safe source (decoratorNode cx line) fun _ => True := by
  refine Build.Safe.bind (statement_safe hcx hl) fun ⟨start, stop⟩ ⟨_, t, ht⟩ => ?_
  have piece : cx.text.text? start stop = some t := by
    rw [hcx]
    exact ht
  refine Build.Safe.bind (Build.Safe.need ⟨t, piece, rfl⟩) fun text (_ : t = text) => ?_
  exact (Build.Safe.span ⟨t, ht⟩).mono fun _ _ => trivial

theorem exists_slice_lines {a b : LogicalLine} (ha : LiesIn source a) (hb : LiesIn source b)
    (le : a = b ∨ a.stop ≤ b.start) :
    ∃ t, Text.slice? source a.contentStart b.stop = some t := by
  obtain ⟨order, start, stop⟩ := Text.exists_slice?_iff.mp ⟨_, ha.slice_content⟩
  obtain ⟨_, _, stop'⟩ := Text.exists_slice?_iff.mp ⟨_, hb.slice_content⟩
  refine Text.exists_slice?_iff.mpr ⟨?_, start, stop'⟩
  have inside : b.start ≤ b.stop := Nat.le_add_right _ _
  rcases le with rfl | le
  · exact order
  · omega

/-- A definition fails exactly if the body fails that its header asks for. Without such a header
there is no definition. -/
theorem definition_settles (hcx : cx.Reads source) (scope : Scope) {decorators : List LogicalLine}
    {stop : Nat} {body : Scope → Build (List Node)} {bad : Scope → Prop} (hl : LiesIn source line)
    (hd : ∀ d ∈ decorators, LiesIn source d)
    (span : ∃ t, Text.slice? source (decorators.head?.getD line).contentStart stop = some t)
    (hbody : ∀ inner, Build.Settles source (bad inner) (body inner) fun _ => True) :
    Attempt.Settles source (∃ inner, heads (maskIndent line.content) = some inner ∧ bad inner)
      (definition cx scope decorators line stop body)
      fun _ => heads (maskIndent line.content) ≠ none := by
  refine Attempt.Safe.lift_bind (code_safe hcx hl) fun code hcode => ?_
  subst hcode
  have masks := Scan.maskIndent_masks line.content
  have text : cx.text.text? line.contentStart line.stop = some line.content := by
    rw [hcx]
    exact hl.slice_content
  dsimp only
  rw [heads]
  generalize (classHeader.matchFront? (maskIndent line.content)).isSome = isClass
  generalize (defHeader.matchFront? (maskIndent line.content)).isSome = isDef
  by_cases head : (isClass || isDef) = true
  · have asks : (if isClass = true then some Scope.classBody
        else if isDef = true then some .functionBody else none) =
        some (if isClass = true then .classBody else .functionBody) := by
      cases isClass with
      | true => rfl
      | false =>
        rw [Bool.false_or] at head
        simp [head]
    rw [head, Attempt.check_true, Attempt.expect_some_bind, asks]
    have lifted : (decorators.mapM fun d => (liftM (decoratorNode cx d) : Attempt Node)) =
        OptionT.lift (decorators.mapM (decoratorNode cx)) := Attempt.mapM_lift _ _
    rw [lifted]
    have asked (inner : Scope) : bad inner ↔ ∃ inner', some inner = some inner' ∧ bad inner' := by
      simp
    refine Build.Settles.congr ?_ (asked _)
    refine Attempt.Safe.lift_bind (Build.Safe.mapM fun d h => decoratorNode_safe hcx (hd d h))
      fun nodes _ => ?_
    refine Attempt.Settles.lift_bind_safe (hbody _) fun members _ => ?_
    refine Attempt.Settles.bind (Attempt.Safe.need_some text) fun content hcontent => ?_
    subst hcontent
    split
    next =>
      refine Attempt.Settles.bind (classDraft_safe masks _) fun draft _ => ?_
      exact (Attempt.Safe.span span).mono fun _ _ => by simp
    next =>
      refine Attempt.Settles.bind (defDraft_safe masks _ scope) fun draft _ => ?_
      exact (Attempt.Safe.span span).mono fun _ _ => by simp
  · rw [Bool.eq_false_iff.mpr head, Attempt.check_false, Attempt.expect_none_bind]
    obtain ⟨rfl, rfl⟩ : isClass = false ∧ isDef = false := by simpa using head
    exact Build.Settles.congr (Attempt.Safe.expect (by simp)) (by simp)

end SourceTree.Python
