import SourceTree.Proofs.Python.Annotation
import SourceTree.Proofs.Scan.Line
import SourceTree.Python.Tree

/-!
Annotations whose type cannot be cut out of the source: those without a type in front of a comment
that ends with a character of several bytes. The mask has blanks in place of the comment, the last
of them is taken for the type, and it is no character of the source.
-/

namespace SourceTree.Python

open Pattern
open Text (Opens Closes Boundary)
open Scan (Masks maskIndent maskIndentFrom Unbroken)

/-- An annotation without a type and with a comment whose last character takes several bytes. -/
def Stranded (content : Text) : Prop :=
  ∃ word gap gap' comment last, content = word ++ gap ++ ':' :: (gap' ++ '#' :: (comment ++ [last])) ∧
    IsName word ∧ String.ofList word ∉ keywords ∧ IsBlank gap ∧ IsBlank gap' ∧ '\n' ∉ comment ∧
    last.utf8Size ≠ 1

section

variable {code content : Text} {m : Match} {type : Span}

theorem assignment_slice (hm : Masks content code) (h : assignment.matchFront? code = some m)
    (ht : m.group? 2 = some type) : ∃ t, Text.slice? content type.start type.stop = some t := by
  obtain ⟨front, rest, rfl, hf, shape⟩ := assignment_type h ht
  rw [Text.exists_slice?_iff]
  refine ⟨by simp [Span.stop], ?_, ?_⟩
  · rw [← hf]
    rcases shape with ⟨opens, -⟩ | ⟨x, rest', hx, rfl⟩
    · have solid := opens.mono fun _ => Text.ne_space_of_not_blank
      rw [List.append_assoc] at hm
      exact hm.boundary_of_edge (solid.append rest).edge
    · rw [hx] at hm
      by_cases space : x = ' '
      · subst space
        rw [List.append_assoc] at hm
        exact hm.boundary_before (by decide)
      · rw [List.append_assoc] at hm
        exact hm.boundary_of_edge (Opens.edge ⟨x, '=' :: rest', rfl, space⟩)
  · rw [Span.stop, ← hf, ← Text.size_append]
    rcases shape with ⟨-, closes⟩ | ⟨x, rest', hx, rfl⟩
    · have solid := closes.mono fun _ => Text.ne_space_of_not_blank
      exact hm.boundary_of_edge (solid.append front).edge
    · exact hm.boundary_of_edge (Opens.edge ⟨'=', rest', rfl, by decide⟩)

end

theorem IsName.isWord {word : Text} (h : IsName word) : ∀ c ∈ word, Text.isWord c = true := by
  obtain ⟨c, r, rfl, hc, hr⟩ := h
  intro x hx
  rcases List.mem_cons.mp hx with rfl | hx
  · exact Text.isWord_of_isNameStart hc
  · exact hr x hx

theorem not_isWord_colon : Text.isWord ':' = false := by decide

theorem IsBlank.opens {gap : Text} (h : IsBlank gap) {c : Char}
    (ends : gap ≠ [] ∨ Text.isWord c = false) (rest : Text) :
    Opens (fun x => Text.isWord x = false) (gap ++ c :: rest) := by
  cases gap with
  | nil => exact ⟨c, rest, rfl, ends.resolve_left (absurd rfl)⟩
  | cons b gap => exact ⟨b, _, rfl, Text.not_isWord_of_isBlank (h b (by simp))⟩

/-- A target and its colon can be read in one way only. -/
theorem target_unique {word gap rest word' gap' rest' : Text}
    (h : word ++ gap ++ ':' :: rest = word' ++ gap' ++ ':' :: rest') (hn : IsName word)
    (hn' : IsName word') (hg : IsBlank gap) (hg' : IsBlank gap') :
    word = word' ∧ gap = gap' ∧ rest = rest' := by
  rw [List.append_assoc, List.append_assoc] at h
  obtain ⟨hw, h'⟩ := Text.span_unique h hn.isWord hn'.isWord
    (hg.opens (.inr not_isWord_colon) rest) (hg'.opens (.inr not_isWord_colon) rest')
  obtain ⟨hgap, h''⟩ := Text.span_unique (p := Text.isBlank) h' hg hg'
    ⟨':', rest, rfl, by decide⟩ ⟨':', rest', rfl, by decide⟩
  exact ⟨hw, hgap, by simpa using h''⟩

theorem IsBlank.append {a b : Text} (ha : IsBlank a) (hb : IsBlank b) : IsBlank (a ++ b) := by
  intro c hc
  rcases List.mem_append.mp hc with hc | hc
  · exact ha c hc
  · exact hb c hc

theorem isBlank_replicate (n : Nat) : IsBlank (List.replicate n ' ') := by
  intro c hc
  rw [(List.mem_replicate.mp hc).2]
  decide

theorem target_calm {word gap : Text} (hn : IsName word) (hg : IsBlank gap) :
    ∀ c ∈ word ++ gap ++ [':'], c ∉ Scan.signals := by
  intro c hc
  rcases List.mem_append.mp hc with hc | hc
  · rcases List.mem_append.mp hc with hc | hc
    · exact Scan.not_mem_signals (by decide) (hn.isWord c hc)
    · exact Scan.blank_not_mem_signals (hg c hc)
  · rw [List.mem_singleton.mp hc]
    decide

/-- In the mask of a stranded annotation nothing but blanks follows the colon. -/
theorem maskIndent_stranded {word gap gap' comment : Text} (hn : IsName word) (hg : IsBlank gap)
    (hg' : IsBlank gap') (hc : '\n' ∉ comment) :
    maskIndent (word ++ gap ++ ':' :: (gap' ++ '#' :: comment)) =
      word ++ gap ++ ':' :: (gap' ++ List.replicate (1 + Text.size comment) ' ') := by
  have front : word ++ gap ++ ':' :: (gap' ++ '#' :: comment) =
      (word ++ gap ++ [':']) ++ (gap' ++ '#' :: comment) := by simp
  rw [front, maskIndent, Scan.maskIndentFrom_code_append _ (target_calm hn hg),
    Scan.maskIndentFrom_code_append _ fun c hc => Scan.blank_not_mem_signals (hg' c hc)]
  have hash : maskIndentFrom .code ('#' :: comment) = ' ' :: maskIndentFrom .comment comment := by
    simp [maskIndentFrom]
  rw [hash, Scan.maskIndentFrom_comment hc, Nat.add_comm, List.replicate_succ]
  simp

theorem annotatedName_isSome {word gap rest : Text} (hn : IsName word) (hg : IsBlank gap)
    (hr : IsBlank rest) (full : rest ≠ []) :
    (annotatedName.matchFront? (word ++ gap ++ ':' :: rest)).isSome := by
  obtain ⟨x, letters, rfl, hx, hl⟩ := hn
  obtain ⟨lead, b, rfl⟩ := (List.eq_nil_or_concat rest).resolve_left full
  rw [List.concat_eq_append] at hr ⊢
  rw [matchFront?, matchAt?, Option.isSome_map]
  generalize hc : Cursor.ofText (x :: letters ++ gap ++ ':' :: (lead ++ [b])) = c
  have start : c.rest = x :: (letters ++ (gap ++ ':' :: (lead ++ [b]))) := by
    rw [← hc]
    simp [Cursor.ofText]
  change (run (one _) c [] fun d hs => run (many true (one _)) d hs fun d hs =>
    run blanks d ((1, c.spanTo d) :: hs) fun d hs => run (lit ":") d hs fun d hs =>
    run blanks d hs fun d hs => run loneType d hs fun d hs => run atEnd d hs final).isSome
  rw [run_one_cons start, if_pos hx]
  have h₁ : (c.past [x]).rest = letters ++ (gap ++ ':' :: (lead ++ [b])) :=
    Cursor.rest_past (u := [x]) start
  refine run_many_one_isSome letters _ h₁ hl ?_
  rw [blanks, Pattern.star]
  have h₂ := Cursor.rest_past h₁
  refine run_many_one_isSome gap _ h₂ hg ?_
  have h₃ := Cursor.rest_past h₂
  have colon (d : Cursor) (hd : d.rest = ':' :: (lead ++ [b])) (gs : Groups) (k : Continuation) :
      run (lit ":") d gs k = k (d.past [':']) gs := by
    change run (one _) d gs (fun e hs => run done e hs k) = _
    rw [run_one_cons hd]
    rfl
  rw [colon _ h₃]
  have h₄ := Cursor.rest_past (u := [':']) h₃
  refine run_many_one_isSome lead [b] h₄ (fun y hy => hr y (by simp [hy])) ?_
  have h₅ := Cursor.rest_past h₄
  refine run_loneType_isSome (by simp [h₅]) ?_
  rw [h₅]
  intro mem
  have blank := hr b (by simp)
  rw [← List.mem_singleton.mp mem] at blank
  exact absurd blank (by decide)

theorem equals_mem_of_assignment {code : Text} {m : Match}
    (h : assignment.matchFront? code = some m) : '=' ∈ code := by
  obtain ⟨rest, hc, -, ht⟩ := matchFront?_takes h
  obtain ⟨u, v, g, g', hw, -, ht, -⟩ := ht
  obtain ⟨u, v, g, g', rfl, -, ht, -⟩ := ht
  obtain ⟨u, v, g, g', rfl, -, ht, -⟩ := ht
  obtain ⟨u, v, g, g', rfl, -, -, ht⟩ := ht
  obtain ⟨rfl, -⟩ := takes_lit ht
  rw [hc, hw]
  simp

theorem equals_not_mem {word gap rest : Text} (hn : IsName word) (hg : IsBlank gap)
    (hr : IsBlank rest) : '=' ∉ word ++ gap ++ ':' :: rest := by
  intro mem
  have cases : '=' ∈ word ∨ '=' ∈ gap ∨ '=' ∈ rest := by simpa [or_assoc] using mem
  rcases cases with mem | mem | mem
  · exact absurd (hn.isWord _ mem) (by decide)
  · exact absurd (hg _ mem) (by decide)
  · exact absurd (hr _ mem) (by decide)

/-- The last byte of a character of several bytes is no character. -/
theorem not_boundary_last_byte {init : Text} {last : Char} {n : Nat} (wide : last.utf8Size ≠ 1)
    (h : n + 1 = Text.size (init ++ [last])) : ¬Boundary (init ++ [last]) n := by
  intro boundary
  have pos := last.utf8Size_pos
  rw [Text.size_append, Text.size_cons, Text.size_nil] at h
  rcases boundary.snoc with le | eq <;> omega

theorem newline_not_mem_snoc {comment : Text} {last : Char} (h : '\n' ∉ comment)
    (wide : last.utf8Size ≠ 1) : '\n' ∉ comment ++ [last] := by
  intro mem
  rcases List.mem_append.mp mem with mem | mem
  · exact h mem
  · rw [← List.mem_singleton.mp mem] at wide
    exact wide (by decide)

/-- The mask of a stranded annotation is read as an annotation whose type cannot be cut out. -/
theorem Stranded.matches {content : Text} (h : Stranded content) :
    assignment.matchFront? (maskIndent content) = none ∧
      ∃ m type, annotatedName.matchFront? (maskIndent content) = some m ∧
        String.ofList (m.groupText 1) ∉ keywords ∧ m.group? 2 = some type ∧
        type.start ≤ Text.size content ∧ ¬Boundary content type.start := by
  obtain ⟨word, gap, gap', comment, last, rfl, hn, hk, hg, hg', hc, wide⟩ := h
  have paint := maskIndent_stranded hn hg hg' (newline_not_mem_snoc hc wide)
  have size := (Scan.maskIndent_masks
    (word ++ gap ++ ':' :: (gap' ++ '#' :: (comment ++ [last])))).size_eq
  generalize hrest : gap' ++ List.replicate (1 + Text.size (comment ++ [last])) ' ' = rest at paint
  have blank : IsBlank rest := hrest ▸ hg'.append (isBlank_replicate _)
  have full : rest ≠ [] := by
    rw [← hrest, Nat.add_comm, List.replicate_succ]
    simp
  rw [paint] at size ⊢
  constructor
  · cases hm : assignment.matchFront? (word ++ gap ++ ':' :: rest) with
    | none => rfl
    | some m => exact absurd (equals_mem_of_assignment hm) (equals_not_mem hn hg blank)
  · obtain ⟨m, hm⟩ := Option.isSome_iff_exists.mp (annotatedName_isSome hn hg blank full)
    obtain ⟨word', gap'', lead, type, hcode, hn', hg'', hlead, shape, h₁, h₂⟩ :=
      annotatedName_match hm
    obtain ⟨rfl, rfl, hr⟩ := target_unique hcode hn hn' hg hg''
    refine ⟨m, _, hm, ?_, h₂, ?_⟩
    · rw [Match.groupText, h₁]
      exact hk
    · -- The type is the last blank of the mask, which is a space.
      have ends : type = [' '] := by
        rcases shape with ⟨c, r, rfl, hb⟩ | ⟨b, rfl, -⟩
        · simp [blank c (by simp [hr])] at hb
        · have last : rest.getLast? = some ' ' := by
            rw [← hrest, Nat.add_comm, List.replicate_succ']
            simp
          rw [hr] at last
          simpa using last
      subst ends
      have init : word ++ gap ++ ':' :: (gap' ++ '#' :: (comment ++ [last])) =
          (word ++ gap ++ ':' :: (gap' ++ '#' :: comment)) ++ [last] := by simp
      rw [init] at size ⊢
      have start : Text.size (word ++ gap ++ ':' :: lead) + 1 =
          Text.size (word ++ gap ++ ':' :: (gap' ++ '#' :: comment) ++ [last]) := by
        have one : ' '.utf8Size = 1 := by decide
        rw [← size, hr]
        simp only [Text.size_append, Text.size_cons, Text.size_nil, one]
        omega
      exact ⟨by dsimp only; omega, not_boundary_last_byte wide start⟩

theorem annotatedName_type {content : Text} {m : Match}
    (h : annotatedName.matchFront? (maskIndent content) = some m) :
    ∃ type, m.group? 2 = some type ∧ type.stop = Text.size content := by
  obtain ⟨word, gap, lead, text, hcode, -, -, -, -, -, h₂⟩ := annotatedName_match h
  refine ⟨_, h₂, ?_⟩
  rw [Span.stop, ← (Scan.maskIndent_masks content).size_eq, hcode, ← Text.size_append]
  simp

/-- Where the type of an annotation does not begin at a character, the annotation is stranded. -/
theorem stranded_of_not_boundary {content ending : Text} (one : Unbroken (content ++ ending))
    {m : Match} {type : Span} (h : annotatedName.matchFront? (maskIndent content) = some m)
    (hk : String.ofList (m.groupText 1) ∉ keywords) (ht : m.group? 2 = some type)
    (inside : ¬Boundary content type.start) : Stranded content := by
  obtain ⟨word, gap, lead, text, hcode, hn, hg, hl, shape, h₁, h₂⟩ := annotatedName_match h
  obtain rfl := Option.some.inj (ht.symm.trans h₂)
  rw [Match.groupText, h₁] at hk
  dsimp only at inside
  have masks := Scan.maskIndent_masks content
  have ends : Text.size (word ++ gap ++ ':' :: lead) + Text.size text = Text.size content := by
    rw [← masks.size_eq, hcode, ← Text.size_append]
    simp
  have split : maskIndent content = (word ++ gap ++ ':' :: lead) ++ text := by rw [hcode]; simp
  have space : text = [' '] := by
    rcases shape with opens | ⟨b, rfl, -⟩
    · have solid := opens.mono fun _ => Text.ne_space_of_not_blank
      exact absurd (masks.boundary_of_edge (split ▸ solid.edge)) inside
    · by_cases hb : b = ' '
      · rw [hb]
      · exact absurd (masks.boundary_of_edge (split ▸ Opens.edge ⟨b, [], rfl, hb⟩)) inside
  subst space
  have rest : maskIndentFrom .code content = (word ++ gap ++ [':']) ++ (lead ++ [' ']) := by
    change maskIndent content = _
    rw [hcode]
    simp
  -- For the same reason the last character of the text has several bytes.
  have wide (init : Text) (c : Char) (hc : content = init ++ [c]) : c.utf8Size ≠ 1 := by
    intro one
    have start : Text.size (word ++ gap ++ ':' :: lead) = Text.size init := by
      have space : Text.size [' '] = 1 := by decide
      have last : Text.size (init ++ [c]) = Text.size init + 1 := by
        rw [Text.size_append, Text.size_cons, Text.size_nil, one]
      rw [hc, last, space] at ends
      omega
    rw [start, hc] at inside
    exact inside (Text.boundary_append init [c])
  have blank : IsBlank (lead ++ [' ']) := hl.append (isBlank_replicate 1)
  rcases one.of_mask (target_calm hn hg) rest with
    ⟨tail, hcs, hmask, one'⟩ | ⟨w₁, w₂, comment, -, hw, -, spaces⟩
  · have calm : ∀ c ∈ lead ++ [' '], c ∉ Scan.signals :=
      fun c hc => Scan.blank_not_mem_signals (blank c hc)
    rcases one'.of_mask calm (m := []) (by simpa using hmask) with
      ⟨more, rfl, hmore, -⟩ | ⟨w₁, w₂, comment, rfl, hw, hc, -⟩
    · -- Without a comment the last blank is a character of the text.
      have size := (Scan.maskIndent_masks more).size_eq
      rw [maskIndent, hmore] at size
      obtain rfl := Text.size_eq_zero size.symm
      refine absurd (by decide) (wide (word ++ gap ++ [':'] ++ lead) ' ' ?_)
      rw [hcs]
      simp
    · have hw₁ : IsBlank w₁ := fun c hc => blank c (by simp [hw, hc])
      rcases List.eq_nil_or_concat comment with rfl | ⟨comment, last, rfl⟩
      · refine absurd (by decide) (wide (word ++ gap ++ [':'] ++ w₁) '#' ?_)
        rw [hcs]
        simp
      · rw [List.concat_eq_append] at hc hcs
        have several : last.utf8Size ≠ 1 :=
          wide (word ++ gap ++ [':'] ++ w₁ ++ '#' :: comment) last (by rw [hcs]; simp)
        exact ⟨word, gap, w₁, comment, last, by rw [hcs]; simp, hn, hk, hg, hw₁,
          fun mem => hc (by simp [mem]), several⟩
  · -- A comment in front of the colon would have hidden it.
    have mem : ':' ∈ w₂ := by
      have last := congrArg List.getLast? hw
      cases w₂ with
      | nil => simp at last
      | cons y w₂ => exact List.mem_of_getLast? (by simpa using last.symm)
    exact absurd (spaces ':' (by simp [mem])) (by decide)

end SourceTree.Python
