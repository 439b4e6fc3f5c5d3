import Mathlib.Data.List.Induction
import SourceTree.Proofs.Scan.Counter
import SourceTree.Proofs.Scan.Line

/-!
Which newlines end a logical line, read off the mask. The line scanner keeps a bracket counter of its
own and joins lines behind a backslash; the mask shows both. As long as the counter does not run over,
it is the number of open brackets. Main statement: `endsAt_iff_clear`.
-/

namespace SourceTree.Scan

/-! ### The masking scanner step by step -/

/-- One step of the masking scanner: what it takes from the text, what it writes for it, and the
state in which it goes on. -/
structure MaskStep where
  taken : Text
  written : Text
  next : IndentState
  deriving DecidableEq, Repr

/-- The step of the masking scanner in front of `c`, with the text behind to look ahead at. -/
def maskStep : IndentState → Char → Text → MaskStep
  | .comment, c, _ => ⟨[c], blank c, if c = '\n' then .code else .comment⟩
  | .quoted quote triple, '\\', escaped :: _ =>
    ⟨['\\', escaped], ' ' :: blank escaped, .quoted quote triple⟩
  | .quoted quote true, a, b :: c :: _ =>
    if a = quote ∧ b = quote ∧ c = quote then ⟨[a, b, c], [a, b, c], .code⟩
    else ⟨[a], blank a, .quoted quote true⟩
  | .quoted quote true, c, _ => ⟨[c], blank c, .quoted quote true⟩
  | .quoted quote false, c, _ =>
    if c = '\\' then ⟨[c], [' '], .quoted quote false⟩
    else if c = quote then ⟨[c], [c], .code⟩
    else if c = '\n' then ⟨[c], [c], .code⟩
    else ⟨[c], blank c, .quoted quote false⟩
  | .code, '\x22', '\x22' :: '\x22' :: _ =>
    ⟨['\x22', '\x22', '\x22'], ['\x22', '\x22', '\x22'], .quoted '\x22' true⟩
  | .code, '\x27', '\x27' :: '\x27' :: _ =>
    ⟨['\x27', '\x27', '\x27'], ['\x27', '\x27', '\x27'], .quoted '\x27' true⟩
  | .code, c, _ =>
    if c = '#' then ⟨[c], [' '], .comment⟩
    else if c = '\x22' ∨ c = '\x27' then ⟨[c], [c], .quoted c false⟩
    else ⟨[c], [c], .code⟩

/-- What a step leaves of the text in front of which it was made. -/
def MaskStep.rest (step : MaskStep) (cs : Text) : Text := cs.drop step.taken.length

/-- The text of a step is what it takes and what it leaves, and the mask is what it writes in front
of the mask of what it leaves. -/
theorem maskStep_masks (st : IndentState) (c : Char) (cs : Text) :
    c :: cs = (maskStep st c cs).taken ++ (maskStep st c cs).rest (c :: cs) ∧
      maskIndentFrom st (c :: cs) = (maskStep st c cs).written ++
        maskIndentFrom (maskStep st c cs).next ((maskStep st c cs).rest (c :: cs)) := by
  fun_cases maskStep st c cs <;> simp_all [MaskStep.rest, maskIndentFrom]

def IndentState.isQuoted : IndentState → Bool
  | .quoted .. => true
  | _ => false

theorem maskStep_size (st : IndentState) (c : Char) (cs : Text) :
    Text.size (maskStep st c cs).written = Text.size (maskStep st c cs).taken ∧
      (maskStep st c cs).taken ≠ [] := by
  fun_cases maskStep st c cs <;> simp_all [size_blank] <;> decide

theorem maskStep_proper {st : IndentState} (h : st.Proper) (c : Char) (cs : Text) :
    (maskStep st c cs).next.Proper := by
  fun_cases maskStep st c cs with
  | case1 =>
    show IndentState.Proper (if c = '\n' then .code else .comment)
    split <;> trivial
  | case2 | case4 | case5 | case6 | case9 => exact h
  | case3 | case7 | case8 | case12 | case14 => trivial
  | case10 => exact .inl rfl
  | case11 => exact .inr rfl
  | case13 _ _ _ _ _ quote => exact quote

/-- A step takes a newline alone, or as an escaped character inside a literal. -/
theorem maskStep_newline {st : IndentState} (h : st.Proper) (c : Char) (cs : Text) :
    (maskStep st c cs).taken = ['\n'] ∧ (maskStep st c cs).written = ['\n'] ∨
      (maskStep st c cs).next.isQuoted = true ∨ '\n' ∉ (maskStep st c cs).taken := by
  have single (c : Char) (next : IndentState) :
      [c] = ['\n'] ∧ [c] = ['\n'] ∨ next.isQuoted = true ∨ '\n' ∉ [c] := by
    by_cases hc : c = '\n'
    · exact .inl (by simp [hc])
    · exact .inr (.inr (by simp [Ne.symm hc]))
  fun_cases maskStep st c cs with
  | case1 =>
    by_cases hc : c = '\n'
    · exact .inl (by simp [hc, blank])
    · exact .inr (.inr (by simp [Ne.symm hc]))
  | case2 | case4 | case5 | case6 | case9 | case10 | case11 | case13 => exact .inr (.inl rfl)
  | case3 _ _ _ _ _ _ closes =>
    obtain ⟨rfl, rfl, rfl⟩ := closes
    refine .inr (.inr ?_)
    cases h with
    | inl h => simp [h]
    | inr h => simp [h]
  | case7 | case8 | case14 => exact single _ _
  | case12 => exact .inr (.inr (by simp))

theorem MaskStep.rest_length (step : MaskStep) (cs : Text) (h : step.taken ≠ []) :
    (step.rest (c :: cs)).length < (c :: cs).length := by
  have pos := List.length_pos_iff.mpr h
  simp only [MaskStep.rest, List.length_drop, List.length_cons]
  omega

/-! ### Clear newlines -/

/-- The bracket counter of the line scanner behind a character. -/
def countStep (depth : Int32) (c : Char) : Int32 :=
  if c = '(' ∨ c = '[' ∨ c = '\x7b' then depth + 1
  else if c = ')' ∨ c = ']' ∨ c = '\x7d' then max (depth - 1) 0
  else depth

def bracketCount (front : Text) : Int32 := front.foldl countStep 0

/-- The mask up to here leaves the bracket counter at zero and does not end in a backslash. -/
def Settled (done : Text) : Prop := bracketCount done = 0 ∧ done.getLast? ≠ some '\\'

instance (done : Text) : Decidable (Settled done) := inferInstanceAs (Decidable (_ ∧ _))

/-- The offsets of the newlines that the masking scanner reads where the mask is settled and after
which it is in no literal; `done` is the mask of what it has read before. -/
def clearings (st : IndentState) (done : Text) : Text → List Nat
  | [] => []
  | c :: cs =>
    let step := maskStep st c cs
    have : (step.rest (c :: cs)).length < (c :: cs).length :=
      step.rest_length cs (maskStep_size st c cs).2
    let later := clearings step.next (done ++ step.written) (step.rest (c :: cs))
    if c = '\n' ∧ step.next.isQuoted = false ∧ Settled done then Text.size done :: later else later
termination_by cs => cs.length
decreasing_by exact this

/-- The offsets at which pieces end that have another piece behind a newline. -/
def breaks (offset : Nat) : List Text → List Nat
  | [] => []
  | [_] => []
  | line :: lines@(_ :: _) => (offset + Text.size line) :: breaks (offset + Text.size line + 1) lines

theorem breaks_consLine (offset : Nat) (w : Text) {lines : List Text} (full : lines ≠ []) :
    breaks offset (consLine w lines) = breaks (offset + Text.size w) lines := by
  match lines with
  | [] => exact absurd rfl full
  | [line] => simp [consLine, breaks]
  | line :: next :: lines => simp [consLine, breaks, Text.size_append, Nat.add_assoc]

theorem breaks_nil_cons (offset : Nat) {lines : List Text} (full : lines ≠ []) :
    breaks offset ([] :: lines) = offset :: breaks (offset + 1) lines := by
  match lines with
  | [] => exact absurd rfl full
  | line :: lines => simp [breaks]

theorem clearings_skip {st : IndentState} {done : Text} {c : Char} {cs : Text}
    (h : c = '\n' → (maskStep st c cs).next.isQuoted = true ∨ ¬Settled done) :
    clearings st done (c :: cs) = clearings (maskStep st c cs).next
      (done ++ (maskStep st c cs).written) ((maskStep st c cs).rest (c :: cs)) := by
  rw [clearings, if_neg]
  rintro ⟨hc, outside, settled⟩
  cases h hc with
  | inl inside => simp [inside] at outside
  | inr unsettled => exact unsettled settled

/-- Where the line scanner stands beside the masking scanner: its depth is that of the mask, and it
is not between a backslash and the newline behind it. -/
structure Abreast (depth : Int32) (done cs : Text) : Prop where
  depth : bracketCount done = depth
  joined : done.getLast? = some '\\' → cs.head? ≠ some '\n'

/-- Blanks, newlines and quotes: what a mask shows of comments and literals. -/
def Pale (w : Text) : Prop := ∀ c ∈ w, c = ' ' ∨ c = '\n' ∨ c = '\x22' ∨ c = '\x27'

theorem pale_blank (c : Char) : Pale (blank c) := by
  intro x hx
  cases mem_blank hx with
  | inl space => exact .inl space
  | inr newline => exact .inr (.inl newline.2)

theorem blank_ne_nil (c : Char) : blank c ≠ [] := by
  intro nil
  have size := size_blank c
  have pos := c.utf8Size_pos
  rw [nil, Text.size_nil] at size
  omega

theorem pale_newline : Pale ['\n'] := pale_blank '\n'

theorem ne_quote {quote c : Char} (proper : quote = '\x22' ∨ quote = '\x27')
    (other : c ≠ '\x22' ∧ c ≠ '\x27') : c ≠ quote := by
  rcases proper with rfl | rfl
  · exact other.1
  · exact other.2

theorem pale_quotes {quote : Char} (h : quote = '\x22' ∨ quote = '\x27') (n : Nat) :
    Pale (List.replicate n quote) := by
  intro x hx
  obtain rfl := (List.mem_replicate.mp hx).2
  exact .inr (.inr h)

theorem bracketCount_append (front w : Text) :
    bracketCount (front ++ w) = w.foldl countStep (bracketCount front) :=
  List.foldl_append

theorem Pale.foldl {w : Text} (h : Pale w) (depth : Int32) : w.foldl countStep depth = depth := by
  induction w with
  | nil => rfl
  | cons c w ih =>
    have same : countStep depth c = depth := by
      rcases h c (by simp) with rfl | rfl | rfl | rfl <;> rfl
    rw [List.foldl_cons, same, ih fun x hx => h x (by simp [hx])]

namespace Abreast

variable {depth : Int32} {done cs w tail : Text}

theorem pale (h : Abreast depth done cs) (pale : Pale w) (full : w ≠ []) :
    Abreast depth (done ++ w) tail := by
  constructor
  · rw [bracketCount_append, pale.foldl, h.depth]
  · intro last
    obtain ⟨init, c, rfl⟩ := List.eq_nil_or_concat w |>.resolve_left full
    have backslash : c = '\\' := by simpa using last
    have shown := pale c (by simp)
    simp [backslash] at shown

theorem code (h : Abreast depth done cs) {c : Char}
    (joined : c = '\\' → tail.head? ≠ some '\n') :
    Abreast (countStep depth c) (done ++ [c]) tail := by
  constructor
  · rw [bracketCount_append, h.depth]
    rfl
  · intro last
    exact joined (by simpa using last)

theorem settled (h : Abreast 0 done ('\n' :: cs)) : Settled done :=
  ⟨h.depth, fun last => h.joined last rfl⟩

theorem unsettled (h : Abreast depth done cs) (inside : depth ≠ 0) : ¬Settled done :=
  fun settled => inside (h.depth.symm.trans settled.1)

end Abreast

section Together

variable {st next : IndentState} {c : Char} {cs done w painted tail : Text} {lines : List Text}

/-- A word in which no line ends moves both scanners on. -/
theorem breaks_word (full : lines ≠ []) (step : maskStep st c cs = ⟨w, painted, next⟩)
    (split : c :: cs = w ++ tail) (quiet : c = '\n' → next.isQuoted = true ∨ ¬Settled done)
    (later : breaks (Text.size (done ++ painted)) lines = clearings next (done ++ painted) tail) :
    breaks (Text.size done) (consLine w lines) = clearings st done (c :: cs) := by
  have size : Text.size painted = Text.size w := by
    have h := (maskStep_size st c cs).1
    rwa [step] at h
  have rest : (maskStep st c cs).rest (c :: cs) = tail := by
    rw [step, split]
    exact List.drop_left
  rw [clearings_skip (by rwa [step]), rest, step, breaks_consLine _ _ full, ← later,
    Text.size_append, size]

/-- A newline at which a line ends is clear. -/
theorem breaks_newline (full : lines ≠ []) (step : maskStep st '\n' cs = ⟨['\n'], ['\n'], .code⟩)
    (settled : Settled done)
    (later : breaks (Text.size (done ++ ['\n'])) lines = clearings .code (done ++ ['\n']) cs) :
    breaks (Text.size done) ([] :: lines) = clearings st done ('\n' :: cs) := by
  have rest : (maskStep st '\n' cs).rest ('\n' :: cs) = cs := by
    rw [step]
    rfl
  have clear : '\n' = '\n' ∧ (maskStep st '\n' cs).next.isQuoted = false ∧ Settled done := by
    rw [step]
    exact ⟨rfl, rfl, settled⟩
  have size : Text.size (done ++ ['\n']) = Text.size done + 1 := Text.size_append done ['\n']
  rw [clearings, if_pos clear, rest, step, breaks_nil_cons _ full, ← later, size]

end Together

theorem maskStep_code {c : Char} {cs : Text} (hash : c ≠ '#') (quote : ¬(c = '\x22' ∨ c = '\x27')) :
    maskStep .code c cs = ⟨[c], [c], .code⟩ := by
  have plain := not_or.mp quote
  rw [maskStep.eq_8 _ _ (fun _ hc => absurd hc plain.1) (fun _ hc => absurd hc plain.2), if_neg hash,
    if_neg quote]

theorem breaks_cutLines {st : LineState} {depth : Int32} {done : Text} (cs : Text)
    (proper : st.masking.Proper) (h : Abreast depth done cs) :
    breaks (Text.size done) (cutLines st depth cs) = clearings st.masking done cs := by
  fun_induction cutLines st depth cs generalizing done with
  | case1 => simp [breaks, clearings]
  | case2 cs ih =>
    have step : maskStep .comment '\n' cs = ⟨['\n'], ['\n'], .code⟩ := by simp [maskStep, blank]
    exact breaks_newline (cutLines_ne_nil _ _ _) step h.settled
      (ih trivial (h.pale pale_newline (by simp)))
  | case3 depth cs inside ih =>
    have step : maskStep .comment '\n' cs = ⟨['\n'], ['\n'], .code⟩ := by simp [maskStep, blank]
    exact breaks_word (cutLines_ne_nil _ _ _) step rfl (fun _ => .inr (h.unsettled inside))
      (ih trivial (h.pale pale_newline (by simp)))
  | case4 depth c cs other ih =>
    have step : maskStep .comment c cs = ⟨[c], blank c, .comment⟩ := by simp [maskStep, other]
    exact breaks_word (cutLines_ne_nil _ _ _) step rfl (fun hc => absurd hc other)
      (ih trivial (h.pale (pale_blank c) (blank_ne_nil c)))
  | case5 quote triple depth escaped cs ih =>
    have step : maskStep (.quoted quote triple) '\\' (escaped :: cs) =
        ⟨['\\', escaped], ' ' :: blank escaped, .quoted quote triple⟩ := rfl
    have pale : Pale (' ' :: blank escaped) := List.forall_mem_cons.mpr ⟨.inl rfl, pale_blank _⟩
    exact breaks_word (cutLines_ne_nil _ _ _) step rfl (fun _ => .inl rfl)
      (ih proper (h.pale pale (by simp)))
  | case6 quote depth a b c cs plain closes ih =>
    obtain ⟨rfl, rfl, rfl⟩ := closes
    have step : maskStep (.quoted c true) c (c :: c :: cs) = ⟨[c, c, c], [c, c, c], .code⟩ := by
      simp [maskStep]
    have pale : Pale [c, c, c] := pale_quotes proper 3
    have other : c ≠ '\n' := by
      cases proper with
      | inl hc => simp [hc]
      | inr hc => simp [hc]
    exact breaks_word (cutLines_ne_nil _ _ _) step rfl (fun hc => absurd hc other)
      (ih trivial (h.pale pale (by simp)))
  | case7 quote depth a b c cs plain opens ih =>
    have step : maskStep (.quoted quote true) a (b :: c :: cs) =
        ⟨[a], blank a, .quoted quote true⟩ := by simp [maskStep, opens]
    exact breaks_word (cutLines_ne_nil _ _ _) step rfl (fun _ => .inl rfl)
      (ih proper (h.pale (pale_blank a) (blank_ne_nil a)))
  | case8 quote depth c cs plain short ih =>
    have step : maskStep (.quoted quote true) c cs = ⟨[c], blank c, .quoted quote true⟩ :=
      maskStep.eq_4 c cs quote short plain
    exact breaks_word (cutLines_ne_nil _ _ _) step rfl (fun _ => .inl rfl)
      (ih proper (h.pale (pale_blank c) (blank_ne_nil c)))
  | case9 quote cs plain ih =>
    have step : maskStep (.quoted quote false) '\n' cs = ⟨['\n'], ['\n'], .code⟩ := by
      simp [maskStep]
    exact breaks_newline (cutLines_ne_nil _ _ _) step h.settled
      (ih trivial (h.pale pale_newline (by simp)))
  | case10 quote depth cs inside plain ih =>
    have step : maskStep (.quoted quote false) '\n' cs = ⟨['\n'], ['\n'], .code⟩ := by
      simp [maskStep]
    exact breaks_word (cutLines_ne_nil _ _ _) step rfl (fun _ => .inr (h.unsettled inside))
      (ih trivial (h.pale pale_newline (by simp)))
  | case11 depth c cs plain other ih =>
    have slash : c ≠ '\\' := by
      cases proper with
      | inl hc => simp [hc]
      | inr hc => simp [hc]
    have step : maskStep (.quoted c false) c cs = ⟨[c], [c], .code⟩ := by
      simp [maskStep, slash]
    have pale : Pale [c] := pale_quotes proper 1
    exact breaks_word (cutLines_ne_nil _ _ _) step rfl (fun hc => absurd hc other)
      (ih trivial (h.pale pale (by simp)))
  | case12 quote depth c cs plain other opens ih =>
    have step : maskStep (.quoted quote false) c cs = ⟨[c], blank c, .quoted quote false⟩ := by
      by_cases slash : c = '\\'
      · subst slash
        have blanked : blank '\\' = [' '] := by decide
        simp [maskStep, blanked]
      · simp [maskStep, slash, opens, other]
    exact breaks_word (cutLines_ne_nil _ _ _) step rfl (fun hc => absurd hc other)
      (ih proper (h.pale (pale_blank c) (blank_ne_nil c)))
  | case13 depth cs ih =>
    have pale : Pale ['\x22', '\x22', '\x22'] := pale_quotes (.inl rfl) 3
    exact breaks_word (cutLines_ne_nil _ _ _) rfl rfl (fun hc => by cases hc)
      (ih (.inl rfl) (h.pale pale (by simp)))
  | case14 depth cs ih =>
    have pale : Pale ['\x27', '\x27', '\x27'] := pale_quotes (.inr rfl) 3
    exact breaks_word (cutLines_ne_nil _ _ _) rfl rfl (fun hc => by cases hc)
      (ih (.inr rfl) (h.pale pale (by simp)))
  | case15 depth cs ih =>
    -- For the mask the backslash and the newline behind it are two steps.
    have full := cutLines_ne_nil .code depth cs
    have back : Abreast (countStep depth '\\') (done ++ ['\\']) [] := h.code (by simp)
    have unsettled : ¬Settled (done ++ ['\\']) := fun settled => settled.2 (by simp)
    have newline := breaks_word full (maskStep_code (by decide) (by decide)) rfl
      (fun _ => .inr unsettled) (ih trivial (back.pale pale_newline (by simp)))
    have both : consLine ['\\', '\n'] (cutLines .code depth cs) =
        consLine ['\\'] (consLine ['\n'] (cutLines .code depth cs)) := by
      cases cutLines .code depth cs <;> rfl
    rw [both]
    exact breaks_word (by cases cutLines .code depth cs <;> simp [consLine])
      (maskStep_code (by decide) (by decide)) rfl (fun hc => by cases hc) newline
  | case16 depth cs _ _ _ ih =>
    have step : maskStep .code '#' cs = ⟨['#'], [' '], .comment⟩ := by simp [maskStep]
    have pale : Pale [' '] := by simp [Pale]
    exact breaks_word (cutLines_ne_nil _ _ _) step rfl (fun hc => by cases hc)
      (ih trivial (h.pale pale (by simp)))
  | case17 depth c cs double single _ hash quote ih =>
    have step : maskStep .code c cs = ⟨[c], [c], .quoted c false⟩ := by
      rw [maskStep.eq_8 _ _ double single, if_neg hash, if_pos quote]
    have pale : Pale [c] := pale_quotes quote 1
    exact breaks_word (cutLines_ne_nil _ _ _) step rfl (fun _ => .inl rfl)
      (ih quote (h.pale pale (by simp)))
  | case18 depth c cs _ _ plain hash quote opener ih =>
    have other : c ≠ '\n' := by rintro rfl; simp at opener
    have next : countStep depth c = depth + 1 := if_pos opener
    have code : Abreast (countStep depth c) (done ++ [c]) cs :=
      h.code fun hc => by simp [hc] at opener
    exact breaks_word (cutLines_ne_nil _ _ _) (maskStep_code hash quote) rfl (fun hc => absurd hc other)
      (ih trivial (next ▸ code))
  | case19 depth c cs _ _ plain hash quote opener closer ih =>
    have other : c ≠ '\n' := by rintro rfl; simp at closer
    have next : countStep depth c = max (depth - 1) 0 := (if_neg opener).trans (if_pos closer)
    have code : Abreast (countStep depth c) (done ++ [c]) cs :=
      h.code fun hc => by simp [hc] at closer
    exact breaks_word (cutLines_ne_nil _ _ _) (maskStep_code hash quote) rfl (fun hc => absurd hc other)
      (ih trivial (next ▸ code))
  | case20 depth c cs _ _ plain hash quote opener closer newline ih =>
    obtain ⟨rfl, rfl⟩ := newline
    have step : maskStep .code '\n' cs = ⟨['\n'], ['\n'], .code⟩ := maskStep_code hash quote
    exact breaks_newline (cutLines_ne_nil _ _ _) step h.settled
      (ih trivial (h.pale pale_newline (by simp)))
  | case21 depth c cs _ _ plain hash quote opener closer newline ih =>
    have next : countStep depth c = depth := (if_neg opener).trans (if_neg closer)
    have joined : c = '\\' → cs.head? ≠ some '\n' := by
      intro hc hh
      obtain ⟨more, rfl⟩ := List.head?_eq_some_iff.mp hh
      exact plain more hc rfl
    have quiet : c = '\n' → IndentState.code.isQuoted = true ∨ ¬Settled done :=
      fun hc => .inr (h.unsettled fun hd => newline ⟨hc, hd⟩)
    exact breaks_word (cutLines_ne_nil _ _ _) (maskStep_code hash quote) rfl quiet
      (ih trivial (next ▸ h.code joined))

/-! ### Offsets of clear newlines -/

/-- The state of the masking scanner once it has read the character at offset `n`. -/
def stateAfter (st : IndentState) (n : Nat) : Text → IndentState
  | [] => st
  | c :: cs =>
    let step := maskStep st c cs
    have : (step.rest (c :: cs)).length < (c :: cs).length :=
      step.rest_length cs (maskStep_size st c cs).2
    if n < Text.size step.taken then step.next
    else stateAfter step.next (n - Text.size step.taken) (step.rest (c :: cs))
termination_by cs => cs.length
decreasing_by exact this

end SourceTree.Scan

namespace SourceTree.Text

theorem at?_add (a b : Text) (n : Nat) : at? (a ++ b) (size a + n) = at? b n := by
  have same : drop? (a ++ b) (size a + n) = drop? b n := by
    apply Option.ext
    intro rest
    rw [drop?_eq_some_iff, drop?_eq_some_iff]
    constructor
    · rintro ⟨front, h, size⟩
      obtain ⟨mid, rfl, hb⟩ := exists_between h (by omega)
      rw [size_append] at size
      exact ⟨mid, hb, by omega⟩
    · rintro ⟨mid, rfl, rfl⟩
      exact ⟨a ++ mid, by simp, size_append a mid⟩
  rw [at?, at?, same]

theorem take?_add (a b : Text) (n : Nat) :
    take? (a ++ b) (size a + n) = (take? b n).map (a ++ ·) := by
  apply Option.ext
  intro front
  rw [Option.map_eq_some_iff]
  constructor
  · intro h
    obtain ⟨back, hs, size⟩ := split_of_take? h
    obtain ⟨mid, rfl, rfl⟩ := exists_between hs (by omega)
    rw [size_append] at size
    obtain rfl : Text.size mid = n := by omega
    exact ⟨mid, take?_append mid back, rfl⟩
  · rintro ⟨mid, h, rfl⟩
    obtain ⟨back, rfl, rfl⟩ := split_of_take? h
    rw [← List.append_assoc, ← size_append]
    exact take?_append (a ++ mid) back

end SourceTree.Text

namespace SourceTree.Scan

/-- At offset `n` of the text there is a newline behind which the scanner is in no literal, and the
mask in front of it is settled; `done` is the mask of what stands in front of the text. -/
def ClearAt (st : IndentState) (done : Text) (n : Nat) (cs : Text) : Prop :=
  Text.at? cs n = some '\n' ∧ (stateAfter st n cs).isQuoted = false ∧
    ∃ front, Text.take? (maskIndentFrom st cs) n = some front ∧ Settled (done ++ front)

theorem mem_clearings_cons {st : IndentState} {done cs : Text} {c : Char} {p : Nat} :
    p ∈ clearings st done (c :: cs) ↔
      (p = Text.size done ∧ c = '\n' ∧ (maskStep st c cs).next.isQuoted = false ∧ Settled done) ∨
        p ∈ clearings (maskStep st c cs).next (done ++ (maskStep st c cs).written)
          ((maskStep st c cs).rest (c :: cs)) := by
  rw [clearings]
  split
  case isTrue clear => rw [List.mem_cons, and_iff_left clear]
  case isFalse unclear => simp only [unclear, and_false, false_or]

theorem le_of_mem_clearings {st : IndentState} {done cs : Text} {p : Nat}
    (h : p ∈ clearings st done cs) : Text.size done ≤ p := by
  fun_induction clearings st done cs with
  | case1 => cases h
  | case2 st done c cs step _ later clear ih =>
    cases h with
    | head => exact Nat.le_refl _
    | tail _ h =>
      have le := ih h
      rw [Text.size_append] at le
      omega
  | case3 st done c cs step _ later clear ih =>
    have le := ih h
    rw [Text.size_append] at le
    omega

/-- Behind the word of a step, a text shows what the rest of the scan shows. -/
theorem shown_behind (st : IndentState) (c : Char) (cs : Text) (n : Nat) :
    Text.at? (c :: cs) (Text.size (maskStep st c cs).taken + n) =
        Text.at? ((maskStep st c cs).rest (c :: cs)) n ∧
      stateAfter st (Text.size (maskStep st c cs).taken + n) (c :: cs) =
        stateAfter (maskStep st c cs).next n ((maskStep st c cs).rest (c :: cs)) ∧
      Text.take? (maskIndentFrom st (c :: cs)) (Text.size (maskStep st c cs).taken + n) =
        (Text.take? (maskIndentFrom (maskStep st c cs).next
          ((maskStep st c cs).rest (c :: cs))) n).map ((maskStep st c cs).written ++ ·) := by
  obtain ⟨split, mask⟩ := maskStep_masks st c cs
  have size := (maskStep_size st c cs).1
  generalize hstep : maskStep st c cs = step at split mask size
  refine ⟨(congrArg (Text.at? · _) split).trans (Text.at?_add _ _ n), ?_, ?_⟩
  · rw [stateAfter, hstep, if_neg (by omega), Nat.add_sub_cancel_left]
  · rw [mask, ← size, Text.take?_add]

/-- Behind the word of a step, what is clear is what the rest of the scan finds clear. -/
theorem clearAt_behind (st : IndentState) (done : Text) (c : Char) (cs : Text) (n : Nat) :
    ClearAt st done (Text.size (maskStep st c cs).taken + n) (c :: cs) ↔
      ClearAt (maskStep st c cs).next (done ++ (maskStep st c cs).written) n
        ((maskStep st c cs).rest (c :: cs)) := by
  obtain ⟨char, state, front⟩ := shown_behind st c cs n
  unfold ClearAt
  rw [char, state, front]
  simp only [Option.map_eq_some_iff, List.append_assoc]
  constructor
  · rintro ⟨newline, outside, -, ⟨front, cut, rfl⟩, settled⟩
    exact ⟨newline, outside, front, cut, settled⟩
  · rintro ⟨newline, outside, front, cut, settled⟩
    exact ⟨newline, outside, _, ⟨front, cut, rfl⟩, settled⟩

/-- In the word of a step, only a newline that the step takes alone can be clear. -/
theorem clearAt_inside {st : IndentState} (proper : st.Proper) (done : Text) {c : Char} {cs : Text}
    {n : Nat} (inside : n < Text.size (maskStep st c cs).taken) :
    ClearAt st done n (c :: cs) ↔
      n = 0 ∧ c = '\n' ∧ (maskStep st c cs).next.isQuoted = false ∧ Settled done := by
  have state : stateAfter st n (c :: cs) = (maskStep st c cs).next := by
    rw [stateAfter, if_pos inside]
  unfold ClearAt
  rw [state]
  constructor
  · rintro ⟨newline, outside, front, cut, settled⟩
    rcases maskStep_newline proper c cs with ⟨alone, -⟩ | quoted | none
    · rw [alone] at inside
      obtain rfl : n = 0 := Nat.lt_one_iff.mp inside
      have nothing : [] = front := by simpa [Text.take?] using cut
      subst nothing
      have hc : c = '\n' := by simpa [Text.at?, Text.drop?] using newline
      exact ⟨rfl, hc, outside, by simpa using settled⟩
    · rw [quoted] at outside
      cases outside
    · obtain ⟨before, behind, split, rfl⟩ := Text.at?_eq_some newline
      rw [(maskStep_masks st c cs).1] at split
      obtain ⟨mid, taken, hb⟩ := Text.exists_between split.symm (Nat.le_of_lt inside)
      cases mid with
      | nil => simp [taken] at inside
      | cons x mid =>
        obtain rfl : '\n' = x := (List.cons.inj hb).1
        exact absurd (by simp [taken]) none
  · rintro ⟨rfl, rfl, outside, settled⟩
    exact ⟨rfl, outside, [], by simp [Text.take?], by simpa using settled⟩

theorem mem_clearings_iff {st : IndentState} (proper : st.Proper) (done cs : Text) (n : Nat) :
    Text.size done + n ∈ clearings st done cs ↔ ClearAt st done n cs := by
  generalize len : cs.length = k
  induction k using Nat.strongRecOn generalizing st done cs n with
  | ind k ih =>
    cases cs with
    | nil =>
      have nothing : Text.at? [] n = none := by cases n <;> rfl
      simp [ClearAt, nothing, clearings]
    | cons c cs =>
      have size := (maskStep_size st c cs).1
      have shorter := (maskStep st c cs).rest_length (c := c) cs (maskStep_size st c cs).2
      rw [mem_clearings_cons]
      by_cases inside : n < Text.size (maskStep st c cs).taken
      · have early : Text.size done + n ∉ clearings (maskStep st c cs).next
            (done ++ (maskStep st c cs).written) ((maskStep st c cs).rest (c :: cs)) := by
          intro mem
          have le := le_of_mem_clearings mem
          rw [Text.size_append] at le
          omega
        rw [clearAt_inside proper done inside, or_iff_left early]
        simp
      · obtain ⟨m, rfl⟩ := Nat.exists_eq_add_of_le (Nat.le_of_not_lt inside)
        have past : Text.size done + (Text.size (maskStep st c cs).taken + m) =
            Text.size (done ++ (maskStep st c cs).written) + m := by
          rw [Text.size_append, size]
          omega
        have pos : Text.size (maskStep st c cs).taken ≠ 0 := fun zero =>
          (maskStep_size st c cs).2 (Text.size_eq_zero zero)
        rw [clearAt_behind, or_iff_right (by omega), past]
        exact ih _ (len ▸ shorter) (maskStep_proper proper c cs) _ _ m rfl

/-! ### Lines and their newlines -/

/-- The newline at offset `p` ends the line: behind the line it comes at once or after a carriage
return. -/
def LogicalLine.EndsAt (source : Text) (p : Nat) (line : LogicalLine) : Prop :=
  Text.slice? source line.stop (p + 1) = some ['\n'] ∨
    Text.slice? source line.stop (p + 1) = some ['\r', '\n']

/-- What a newline at `p` shows of the text behind the line that it ends. -/
theorem LogicalLine.EndsAt.split {pre back : Text} {p : Nat} {line : LogicalLine}
    (h : line.EndsAt (pre ++ back) p) (stop : line.stop = Text.size pre) :
    ∃ more, back = '\n' :: more ∧ p = Text.size pre ∨
      back = '\r' :: '\n' :: more ∧ p = Text.size pre + 1 := by
  cases h with
  | inl h =>
    obtain ⟨front, more, split, size, p⟩ := Text.slice?_eq_some_iff.mp h
    rw [stop] at size p
    rw [List.append_assoc] at split
    obtain ⟨-, rfl⟩ := Text.cut_unique split size.symm
    exact ⟨more, .inl ⟨rfl, (Nat.add_right_cancel p).symm⟩⟩
  | inr h =>
    obtain ⟨front, more, split, size, p⟩ := Text.slice?_eq_some_iff.mp h
    rw [stop] at size p
    rw [List.append_assoc] at split
    obtain ⟨-, rfl⟩ := Text.cut_unique split size.symm
    exact ⟨more, .inr ⟨rfl, (Nat.succ.inj p).symm⟩⟩

theorem ofRaw_stop (pre raw : Text) : ∃ ending, (ending = [] ∨ ending = ['\r']) ∧
    (LogicalLine.ofRaw (Text.size pre) raw).text ++ ending = raw ∧
    (LogicalLine.ofRaw (Text.size pre) raw).stop =
      Text.size (pre ++ (LogicalLine.ofRaw (Text.size pre) raw).text) := by
  obtain ⟨ending, he, hraw⟩ := ofRaw_split (Text.size pre) raw
  exact ⟨ending, he, hraw, (Text.size_append _ _).symm⟩

theorem ofRaw_endsAt {pre raw rest : Text} {p : Nat} :
    (LogicalLine.ofRaw (Text.size pre) raw).EndsAt (pre ++ raw ++ '\n' :: rest) p ↔
      p = Text.size pre + Text.size raw := by
  obtain ⟨ending, he, hraw, stop⟩ := ofRaw_stop pre raw
  generalize LogicalLine.ofRaw (Text.size pre) raw = line at hraw stop
  have source : pre ++ raw ++ '\n' :: rest = pre ++ line.text ++ (ending ++ '\n' :: rest) := by
    simp [← hraw]
  have size : Text.size pre + Text.size raw = line.stop + Text.size ending := by
    rw [stop, ← hraw, Text.size_append, Text.size_append, Nat.add_assoc]
  rw [source, size]
  constructor
  · intro ends
    obtain ⟨more, newline⟩ := ends.split stop
    rcases he with rfl | rfl <;> rcases newline with ⟨back, rfl⟩ | ⟨back, rfl⟩
    · exact stop.symm
    · cases back
    · cases back
    · rw [stop]
      rfl
  · rintro rfl
    rcases he with rfl | rfl
    · exact .inl (Text.slice?_eq_some_iff.mpr ⟨_, rest, by simp, stop.symm, rfl⟩)
    · exact .inr (Text.slice?_eq_some_iff.mpr ⟨_, rest, by simp, stop.symm, rfl⟩)

theorem ofRaw_not_endsAt {pre raw : Text} {p : Nat} :
    ¬(LogicalLine.ofRaw (Text.size pre) raw).EndsAt (pre ++ raw) p := by
  obtain ⟨ending, he, hraw, stop⟩ := ofRaw_stop pre raw
  generalize LogicalLine.ofRaw (Text.size pre) raw = line at hraw stop
  rw [← hraw, ← List.append_assoc]
  intro ends
  obtain ⟨more, newline⟩ := ends.split stop
  rcases he with rfl | rfl <;> rcases newline with ⟨back, -⟩ | ⟨back, -⟩ <;> cases back

/-- The pieces of a text end where lines end. -/
theorem breaks_ends (pre cs : Text) (p : Nat) :
    (p ∈ breaks (Text.size pre) (cutLines .code 0 cs) →
      ∃ line ∈ placeLines (Text.size pre) (cutLines .code 0 cs).dropLast,
        line.EndsAt (pre ++ cs) p) ∧
    ∀ line ∈ placeLines (Text.size pre) (cutLines .code 0 cs),
      line.EndsAt (pre ++ cs) p → p ∈ breaks (Text.size pre) (cutLines .code 0 cs) := by
  generalize hn : cs.length = n
  induction n using Nat.strongRecOn generalizing pre cs with
  | ind n ih =>
    obtain ⟨raw, single, rest⟩ := cutLines_first .code 0 cs
    cases rest with
    | inl whole =>
      subst whole
      rw [single]
      constructor
      · intro mem
        simp [breaks] at mem
      · intro line mem ends
        obtain rfl : line = LogicalLine.ofRaw (Text.size pre) cs := by
          simpa [placeLines] using mem
        exact absurd ends ofRaw_not_endsAt
    | inr rest =>
      obtain ⟨rest, rfl, cut, -⟩ := rest
      have full := cutLines_ne_nil .code 0 rest
      have source : pre ++ (raw ++ '\n' :: rest) = pre ++ raw ++ ['\n'] ++ rest := by simp
      have next : Text.size (pre ++ raw ++ ['\n']) = Text.size pre + Text.size raw + 1 := by
        simp only [Text.size_append]
        rfl
      obtain ⟨found, only⟩ := ih rest.length (by simp [← hn]; omega) (pre ++ raw ++ ['\n']) rest rfl
      rw [next] at found only
      have first : (LogicalLine.ofRaw (Text.size pre) raw).EndsAt (pre ++ (raw ++ '\n' :: rest)) p ↔
          p = Text.size pre + Text.size raw := by
        rw [← List.append_assoc]
        exact ofRaw_endsAt
      have here : breaks (Text.size pre) (raw :: cutLines .code 0 rest) =
          (Text.size pre + Text.size raw) ::
            breaks (Text.size pre + Text.size raw + 1) (cutLines .code 0 rest) := by
        obtain ⟨a, b, hab⟩ := List.exists_cons_of_ne_nil full
        rw [hab, breaks]
      rw [cut, here, List.dropLast_cons_of_ne_nil full, source]
      rw [source] at first
      simp only [placeLines, List.mem_cons, exists_eq_or_imp, forall_eq_or_imp, first]
      constructor
      · rintro (same | later)
        · exact .inl same
        · exact .inr (found later)
      · constructor
        · exact .inl
        · intro line mem ends
          exact .inr (only line mem ends)

theorem endsAt_iff_breaks (source : Text) (p : Nat) :
    (∃ line ∈ logicalLines source, line.EndsAt source p) ↔
      p ∈ breaks 0 (cutLines .code 0 source) := by
  obtain ⟨found, only⟩ := breaks_ends [] source p
  unfold logicalLines lineTexts
  dsimp only
  constructor
  · rintro ⟨line, mem, ends⟩
    refine only line ?_ ends
    split at mem
    next => exact mem_placeLines_dropLast mem
    next => exact mem
  · intro mem
    obtain ⟨line, mem, ends⟩ := found mem
    refine ⟨line, ?_, ends⟩
    split
    next => exact mem
    next => exact mem_placeLines_dropLast mem

/-- A newline ends a logical line exactly if, in the mask, it stands in no literal, where the bracket
counter is at zero and behind no backslash. -/
theorem endsAt_iff_clearAt (source : Text) (p : Nat) :
    (∃ line ∈ logicalLines source, line.EndsAt source p) ↔ ClearAt .code [] p source := by
  have start : Abreast 0 [] source := ⟨rfl, fun h => by cases h⟩
  have scans : breaks 0 (cutLines .code 0 source) = clearings .code [] source :=
    @breaks_cutLines .code 0 [] source trivial start
  have clear := @mem_clearings_iff .code trivial [] source p
  rw [Text.size_nil, Nat.zero_add] at clear
  rw [endsAt_iff_breaks, scans, clear]

/-! ### The counter and the depth -/

def bracketStep (depth : Nat) (c : Char) : Nat :=
  if c = '(' ∨ c = '[' ∨ c = '\x7b' then depth + 1
  else if c = ')' ∨ c = ']' ∨ c = '\x7d' then depth - 1
  else depth

/-- How many brackets are open behind a text; a closing one that matches none does not count. -/
def bracketDepth (front : Text) : Nat := front.foldl bracketStep 0

/-- Nowhere in the text are more brackets open than a counter of 32 bits reaches. -/
def Countable (w : Text) : Prop := ∀ front, front <+: w → bracketDepth front ≤ deepest

theorem countStep_ofNat {depth : Nat} (le : depth ≤ deepest) (c : Char) :
    countStep (Int32.ofNat depth) c = Int32.ofNat (bracketStep depth c) := by
  unfold countStep bracketStep
  split
  · exact (Int32.ofNat_add depth 1).symm
  · split
    · exact Counter.down_clamped le
    · rfl

/-- The counter shows the depth of any front of a text in which it does not run over. -/
theorem bracketCount_eq {w front : Text} (countable : Countable w) (h : front <+: w) :
    bracketCount front = Int32.ofNat (bracketDepth front) := by
  induction front using List.reverseRecOn with
  | nil => rfl
  | append_singleton front c ih =>
    have inner : front <+: w := (List.prefix_append front [c]).trans h
    rw [bracketCount, bracketDepth, List.foldl_append, List.foldl_append]
    exact (congrArg (countStep · c) (ih inner)).trans (countStep_ofNat (countable front inner) c)

theorem bracketCount_eq_zero_iff {w front : Text} (countable : Countable w) (h : front <+: w) :
    bracketCount front = 0 ↔ bracketDepth front = 0 := by
  rw [bracketCount_eq countable h, Counter.eq_zero_iff (countable front h)]

theorem bracketDepth_le_length (front : Text) : bracketDepth front ≤ front.length := by
  induction front using List.reverseRecOn with
  | nil => exact Nat.le_refl 0
  | append_singleton front c ih =>
    have step : bracketStep (bracketDepth front) c ≤ bracketDepth front + 1 := by
      unfold bracketStep
      split
      · exact Nat.le_refl _
      · split <;> omega
    rw [bracketDepth, List.foldl_append, List.length_append]
    exact Nat.le_trans step (Nat.succ_le_succ ih)

/-- In a text that is no longer than the counter reaches, it does not run over. -/
theorem countable_of_length {w : Text} (le : w.length ≤ deepest) : Countable w :=
  fun front h => Nat.le_trans (bracketDepth_le_length front) (Nat.le_trans h.length_le le)

/-- A newline ends a logical line exactly if, in the mask, it stands in no literal, in no bracket and
behind no backslash, as long as no more brackets are open at once than a counter of 32 bits reaches. -/
theorem endsAt_iff_clear (source : Text) (p : Nat) (countable : Countable (maskIndent source)) :
    (∃ line ∈ logicalLines source, line.EndsAt source p) ↔
      Text.at? source p = some '\n' ∧ (stateAfter .code p source).isQuoted = false ∧
        ∃ front, Text.take? (maskIndent source) p = some front ∧ bracketDepth front = 0 ∧
          front.getLast? ≠ some '\\' := by
  rw [endsAt_iff_clearAt]
  refine and_congr_right fun _ => and_congr_right fun _ => exists_congr fun front =>
    and_congr_right fun cut => and_congr_left fun _ => ?_
  obtain ⟨back, split, -⟩ := Text.split_of_take? cut
  exact bracketCount_eq_zero_iff countable ⟨back, split.symm⟩

/-- A comment and a literal hide brackets; the first newline stands in a call, the second in a literal
as well, and the third ends the line. -/
theorem endsAt_iff_clear_call : ∃ source, source = "f(1,  # )\n'''(\n''')\n".toList ∧
    Countable (maskIndent source) ∧ (¬∃ line ∈ logicalLines source, line.EndsAt source 9) ∧
    (¬∃ line ∈ logicalLines source, line.EndsAt source 14) ∧
    ∃ line ∈ logicalLines source, line.EndsAt source 19 := by
  have countable : Countable (maskIndent "f(1,  # )\n'''(\n''')\n".toList) :=
    countable_of_length (by decide)
  have at9 := endsAt_iff_clear _ 9 countable
  have at14 := endsAt_iff_clear _ 14 countable
  have at19 := endsAt_iff_clear _ 19 countable
  refine ⟨_, rfl, countable, ?_, ?_, ?_⟩
  · rw [at9]
    rintro ⟨-, -, front, cut, outside, -⟩
    obtain rfl : "f(1,     ".toList = front := Option.some.inj cut
    exact absurd outside (by decide)
  · rw [at14]
    rintro ⟨-, outside, -⟩
    exact absurd outside (by decide +kernel)
  · rw [at19]
    exact ⟨rfl, by decide +kernel, _, rfl, by decide, by decide⟩

end SourceTree.Scan
