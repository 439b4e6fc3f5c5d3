import SourceTree.Proofs.Scan.Newline
import Mathlib.Data.List.Forall2

/-!
Line endings of two characters. A carriage return in front of a newline is cut off where a line
ends, and where a line goes on it stays in the text. The scanner looks for a newline right behind a
backslash, so there it stands in the way.
-/

namespace SourceTree.Scan

/-! ### Carriage returns -/

/-- The text with a carriage return in front of every newline. -/
def crlf (cs : Text) : Text := cs.flatMap fun c => if c = '\n' then ['\r', '\n'] else [c]

@[simp] theorem crlf_nil : crlf [] = [] := rfl

@[simp] theorem crlf_newline (cs : Text) : crlf ('\n' :: cs) = '\r' :: '\n' :: crlf cs := rfl

theorem crlf_cons {c : Char} (h : c ≠ '\n') (cs : Text) : crlf (c :: cs) = c :: crlf cs := by
  simp [crlf, h]

theorem crlf_append (a b : Text) : crlf (a ++ b) = crlf a ++ crlf b := List.flatMap_append

theorem crlf_eq_nil {cs : Text} : crlf cs = [] ↔ cs = [] := by
  cases cs with
  | nil => simp
  | cons c cs => by_cases h : c = '\n' <;> simp [h, crlf_cons]

/-- What a text with carriage returns begins with, the text without them begins with. -/
theorem crlf_eq_cons {cs rest : Text} {c : Char} (h : crlf cs = c :: rest) (other : c ≠ '\r') :
    ∃ more, cs = c :: more ∧ rest = crlf more := by
  cases cs with
  | nil => simp at h
  | cons x cs =>
    by_cases newline : x = '\n'
    · subst newline
      exact absurd (List.cons.inj h).1.symm other
    · rw [crlf_cons newline] at h
      obtain ⟨rfl, rfl⟩ := List.cons.inj h
      exact ⟨cs, rfl, rfl⟩

theorem crlf_getLast? {cs : Text} (h : '\r' ∉ cs) : (crlf cs).getLast? ≠ some '\r' := by
  intro last
  rcases List.eq_nil_or_concat cs with rfl | ⟨init, c, rfl⟩
  · simp at last
  · rw [List.concat_eq_append, crlf_append] at last
    by_cases newline : c = '\n'
    · simp [newline] at last
    · rw [crlf_cons newline] at last
      obtain rfl : c = '\r' := by simpa using last
      simp at h

theorem crlf_trimStart (cs : Text) : Text.trimStart (crlf cs) = crlf (Text.trimStart cs) := by
  unfold Text.trimStart
  induction cs with
  | nil => rfl
  | cons c cs ih =>
    by_cases newline : c = '\n'
    · subst newline
      have drop : ('\r' :: '\n' :: crlf cs).dropWhile Text.isBlank =
          (crlf cs).dropWhile Text.isBlank := rfl
      rw [crlf_newline, drop, ih]
      rfl
    · rw [crlf_cons newline]
      by_cases hb : Text.isBlank c = true
      · simpa [hb] using ih
      · simp [hb, crlf_cons newline]

theorem crlf_indentWidth (cs : Text) : indentWidth (crlf cs) = indentWidth cs := by
  have go (width : Nat) : indentWidth.go width (crlf cs) = indentWidth.go width cs := by
    fun_induction indentWidth.go width cs with
    | case1 width cs ih => rwa [crlf_cons (by decide), indentWidth.go]
    | case2 width cs ih => rwa [crlf_cons (by decide), indentWidth.go]
    | case3 width cs space tab =>
      rw [indentWidth.go]
      · intro rest h
        obtain ⟨more, rfl, -⟩ := crlf_eq_cons h (by decide)
        exact space more rfl
      · intro rest h
        obtain ⟨more, rfl, -⟩ := crlf_eq_cons h (by decide)
        exact tab more rfl
  exact go 0

/-! ### Pieces -/

/-- The pieces of a text once it has carriage returns: the newline behind each piece but the last
has one in front. -/
def crlfPieces : List Text → List Text
  | [] => []
  | [piece] => [crlf piece]
  | piece :: pieces@(_ :: _) => (crlf piece ++ ['\r']) :: crlfPieces pieces

theorem crlfPieces_cons (piece : Text) {pieces : List Text} (h : pieces ≠ []) :
    crlfPieces (piece :: pieces) = (crlf piece ++ ['\r']) :: crlfPieces pieces := by
  cases pieces with
  | nil => exact absurd rfl h
  | cons => rw [crlfPieces]

theorem crlfPieces_consLine (w : Text) {pieces : List Text} (h : pieces ≠ []) :
    crlfPieces (consLine w pieces) = consLine (crlf w) (crlfPieces pieces) := by
  match pieces with
  | [] => exact absurd rfl h
  | [piece] => simp [consLine, crlfPieces, crlf_append]
  | piece :: next :: pieces => simp [consLine, crlfPieces, crlf_append]

theorem consLine_consLine (v w : Text) (pieces : List Text) :
    consLine v (consLine w pieces) = consLine (v ++ w) pieces := by
  cases pieces <;> simp [consLine]

/-! ### Carried newlines -/

/-- Inside a literal that ends with its line. -/
def IndentState.isOneLine : IndentState → Bool
  | .quoted _ false => true
  | _ => false

/-- At offset `n` of the text there is a newline at which a line would end but for a backslash: it
is escaped in a literal of one line, or stands behind a backslash outside brackets. `done` is the
mask of what stands in front of the text. -/
def CarriedAt (st : IndentState) (done : Text) (n : Nat) (cs : Text) : Prop :=
  Text.at? cs n = some '\n' ∧ ((stateAfter st n cs).isOneLine = true ∨
    ∃ front, Text.take? (maskIndentFrom st cs) n = some front ∧ bracketCount (done ++ front) = 0 ∧
      (done ++ front).getLast? = some '\\')

theorem CarriedAt.behind {st : IndentState} {done : Text} {c : Char} {cs : Text} {n : Nat}
    (h : CarriedAt (maskStep st c cs).next (done ++ (maskStep st c cs).written) n
      ((maskStep st c cs).rest (c :: cs))) :
    CarriedAt st done (Text.size (maskStep st c cs).taken + n) (c :: cs) := by
  obtain ⟨char, state, front⟩ := shown_behind st c cs n
  unfold CarriedAt
  rw [char, state, front]
  obtain ⟨newline, inside | ⟨front, cut, outside, last⟩⟩ := h
  · exact ⟨newline, .inl inside⟩
  · refine ⟨newline, .inr ⟨_, by rw [cut]; rfl, ?_, ?_⟩⟩
    · rwa [← List.append_assoc]
    · rwa [← List.append_assoc]

/-- No newline of the text is carried. -/
def Uncarried (st : IndentState) (done cs : Text) : Prop := ∀ n, ¬CarriedAt st done n cs

theorem Uncarried.behind {st next : IndentState} {c : Char} {cs done w painted tail : Text}
    (h : Uncarried st done (c :: cs)) (step : maskStep st c cs = ⟨w, painted, next⟩)
    (split : c :: cs = w ++ tail) : Uncarried next (done ++ painted) tail := by
  have rest : (maskStep st c cs).rest (c :: cs) = tail := by
    rw [step, split]
    exact List.drop_left
  intro n carried
  refine h _ (CarriedAt.behind (n := n) ?_)
  rwa [rest, step]

/-! ### Cutting -/

/-- In code, a character that opens no longer word and joins no lines does so neither once the text
behind it has carriage returns. -/
theorem cutLines_code_crlf {depth : Int32} {c : Char} {cs : Text}
    (double : ∀ more, c = '\x22' → cs = '\x22' :: '\x22' :: more → False)
    (single : ∀ more, c = '\x27' → cs = '\x27' :: '\x27' :: more → False) (newline : c ≠ '\n') :
    cutLines .code depth (crlf (c :: cs)) =
      if c = '#' then consLine [c] (cutLines .comment depth (crlf cs))
      else if c = '\x22' ∨ c = '\x27' then consLine [c] (cutLines (.quoted c false) depth (crlf cs))
      else if c = '(' ∨ c = '[' ∨ c = '\x7b' then consLine [c] (cutLines .code (depth + 1) (crlf cs))
      else if c = ')' ∨ c = ']' ∨ c = '\x7d' then
        consLine [c] (cutLines .code (max (depth - 1) 0) (crlf cs))
      else consLine [c] (cutLines .code depth (crlf cs)) := by
  rw [crlf_cons newline, cutLines.eq_10]
  · simp [newline]
  · intro more hc h
    obtain ⟨cs, rfl, tail⟩ := crlf_eq_cons h (by decide)
    obtain ⟨cs, rfl, -⟩ := crlf_eq_cons tail.symm (by decide)
    exact double cs hc rfl
  · intro more hc h
    obtain ⟨cs, rfl, tail⟩ := crlf_eq_cons h (by decide)
    obtain ⟨cs, rfl, -⟩ := crlf_eq_cons tail.symm (by decide)
    exact single cs hc rfl
  · -- Behind a backslash there is a carriage return in front of the newline.
    intro more _ h
    cases cs with
    | nil => simp at h
    | cons x cs =>
      by_cases hx : x = '\n'
      · simp [hx] at h
      · rw [crlf_cons hx] at h
        exact hx (List.cons.inj h).1

/-- In a triple-quoted literal a character stands alone if it escapes nothing and does not begin the
quotes that end the literal. -/
theorem cutLines_triple {quote c : Char} {depth : Int32} {cs : Text} (plain : c = '\\' → cs = [])
    (inside : c = quote → ¬∃ more, cs = quote :: quote :: more) :
    cutLines (.quoted quote true) depth (c :: cs) =
      consLine [c] (cutLines (.quoted quote true) depth cs) := by
  match cs with
  | [] => simp [cutLines]
  | [b] =>
    have slash : c ≠ '\\' := fun hc => by simpa using plain hc
    simp [cutLines, slash]
  | b :: b' :: cs =>
    rw [cutLines.eq_4 _ _ _ _ _ _ (fun hc => by simpa using plain hc), if_neg]
    rintro ⟨rfl, rfl, rfl⟩
    exact inside rfl ⟨cs, rfl⟩

theorem maskStep_triple {quote c : Char} {cs : Text} (plain : c = '\\' → cs = [])
    (inside : c = quote → ¬∃ more, cs = quote :: quote :: more) :
    maskStep (.quoted quote true) c cs = ⟨[c], blank c, .quoted quote true⟩ := by
  match cs with
  | [] => simp [maskStep]
  | [b] =>
    have slash : c ≠ '\\' := fun hc => by simpa using plain hc
    simp [maskStep, slash]
  | b :: b' :: cs =>
    rw [maskStep.eq_3 _ _ _ _ _ (fun hc => by simpa using plain hc), if_neg]
    rintro ⟨rfl, rfl, rfl⟩
    exact inside rfl ⟨cs, rfl⟩

theorem cutLines_triple_crlf {quote c : Char} {depth : Int32} {cs : Text}
    (proper : quote = '\x22' ∨ quote = '\x27') (plain : c = '\\' → cs = [])
    (inside : c = quote → ¬∃ more, cs = quote :: quote :: more) :
    cutLines (.quoted quote true) depth (crlf (c :: cs)) =
      consLine (crlf [c]) (cutLines (.quoted quote true) depth (crlf cs)) := by
  have feed : '\n' ≠ quote := ne_quote proper (by decide)
  have carriage : '\r' ≠ quote := ne_quote proper (by decide)
  by_cases newline : c = '\n'
  · subst newline
    rw [crlf_newline, cutLines_triple (by simp) (absurd · carriage),
      cutLines_triple (by simp) (absurd · feed), consLine_consLine]
    rfl
  · rw [crlf_cons newline, crlf_cons newline, crlf_nil, cutLines_triple]
    · intro hc
      rw [plain hc, crlf_nil]
    · rintro hc ⟨more, h⟩
      obtain ⟨cs, rfl, tail⟩ := crlf_eq_cons h carriage.symm
      obtain ⟨cs, rfl, -⟩ := crlf_eq_cons tail.symm carriage.symm
      exact inside hc ⟨cs, rfl⟩

/-- The escaped character is no newline, or the literal has three quotes. -/
theorem cutLines_escaped_crlf {quote escaped : Char} {triple : Bool} {depth : Int32} (cs : Text)
    (proper : quote = '\x22' ∨ quote = '\x27') (held : escaped = '\n' → triple = true) :
    cutLines (.quoted quote triple) depth (crlf ('\\' :: escaped :: cs)) =
      consLine (crlf ['\\', escaped]) (cutLines (.quoted quote triple) depth (crlf cs)) := by
  have slash (rest : Text) : crlf ('\\' :: rest) = '\\' :: crlf rest := crlf_cons (by decide) rest
  by_cases newline : escaped = '\n'
  · -- The carriage return is escaped in place of the newline, and the literal holds the newline.
    obtain rfl := held newline
    have feed : '\n' ≠ quote := ne_quote proper (by decide)
    rw [newline, slash, slash, crlf_newline, cutLines.eq_3, cutLines_triple (by simp) (absurd · feed),
      consLine_consLine]
    rfl
  · rw [slash, slash, crlf_cons newline, crlf_cons newline, cutLines.eq_3, crlf_nil]

/-- A carriage return in front of the newline that ends a literal is one more character of it. -/
theorem cutLines_unended_crlf {quote : Char} {depth : Int32} (cs : Text)
    (proper : quote = '\x22' ∨ quote = '\x27') :
    cutLines (.quoted quote false) depth (crlf ('\n' :: cs)) =
      if depth = 0 then ['\r'] :: cutLines .code 0 (crlf cs)
      else consLine ['\r', '\n'] (cutLines .code depth (crlf cs)) := by
  have carriage : '\r' ≠ quote := ne_quote proper (by decide)
  by_cases hd : depth = 0
  · simp [cutLines, carriage, hd, consLine]
  · simp [cutLines, carriage, hd, consLine_consLine]

theorem at?_behind_slash (cs : Text) : Text.at? ('\\' :: '\n' :: cs) 1 = some '\n' :=
  Text.at?_add ['\\'] ('\n' :: cs) 0

theorem carriedAt_escape (quote : Char) (done cs : Text) :
    CarriedAt (.quoted quote false) done 1 ('\\' :: '\n' :: cs) := by
  refine ⟨at?_behind_slash cs, .inl ?_⟩
  have word : (1 : Nat) < Text.size ['\\', '\n'] := by decide
  rw [stateAfter]
  exact congrArg IndentState.isOneLine (if_pos word)

theorem carriedAt_join {done cs : Text} (outside : bracketCount done = 0) :
    CarriedAt .code done 1 ('\\' :: '\n' :: cs) := by
  refine ⟨at?_behind_slash cs, .inr ⟨['\\'], ?_, ?_, by simp⟩⟩
  · exact Text.take?_append ['\\'] (maskIndentFrom .code ('\n' :: cs))
  · rw [bracketCount_append, outside]
    rfl

/-- The line scanner takes the step of the masking scanner, in a text and in the text with carriage
returns alike: a line ends, or the word moves it on. -/
inductive StepsAlike (st : LineState) : Int32 → Text → MaskStep → Prop where
  | ends {cs : Text} :
      cutLines st 0 ('\n' :: cs) = [] :: cutLines .code 0 cs →
      cutLines st 0 (crlf ('\n' :: cs)) = ['\r'] :: cutLines .code 0 (crlf cs) →
      StepsAlike st 0 ('\n' :: cs) ⟨['\n'], ['\n'], .code⟩
  | word {w painted tail : Text} {st' : LineState} {depth depth' : Int32} :
      painted.foldl countStep depth = depth' →
      cutLines st depth (w ++ tail) = consLine w (cutLines st' depth' tail) →
      cutLines st depth (crlf (w ++ tail)) = consLine (crlf w) (cutLines st' depth' (crlf tail)) →
      StepsAlike st depth (w ++ tail) ⟨w, painted, st'.masking⟩

theorem StepsAlike.newline {st : LineState} {depth : Int32} {cs : Text}
    (cut : cutLines st depth ('\n' :: cs) =
      if depth = 0 then [] :: cutLines .code 0 cs else consLine ['\n'] (cutLines .code depth cs))
    (cut' : cutLines st depth (crlf ('\n' :: cs)) =
      if depth = 0 then ['\r'] :: cutLines .code 0 (crlf cs)
      else consLine ['\r', '\n'] (cutLines .code depth (crlf cs))) :
    StepsAlike st depth ('\n' :: cs) ⟨['\n'], ['\n'], .code⟩ := by
  by_cases outside : depth = 0
  · subst outside
    exact .ends (cut.trans (if_pos rfl)) (cut'.trans (if_pos rfl))
  · exact @StepsAlike.word st ['\n'] ['\n'] cs .code _ _ (pale_newline.foldl depth)
      (cut.trans (if_neg outside)) (cut'.trans (if_neg outside))

/-- A single character other than the newline. -/
theorem StepsAlike.one {st st' : LineState} {depth depth' : Int32} {c : Char} {painted cs : Text}
    (newline : c ≠ '\n') (depths : painted.foldl countStep depth = depth')
    (cut : cutLines st depth (c :: cs) = consLine [c] (cutLines st' depth' cs))
    (cut' : cutLines st depth (c :: crlf cs) = consLine [c] (cutLines st' depth' (crlf cs))) :
    StepsAlike st depth (c :: cs) ⟨[c], painted, st'.masking⟩ := by
  refine @StepsAlike.word st [c] painted cs st' depth depth' depths cut ?_
  rw [List.singleton_append, crlf_cons newline, crlf_cons newline, crlf_nil]
  exact cut'

theorem comment_alike (depth : Int32) (c : Char) (cs : Text) :
    StepsAlike .comment depth (c :: cs) (maskStep .comment c cs) := by
  by_cases newline : c = '\n'
  · subst newline
    have step : maskStep .comment '\n' cs = ⟨['\n'], ['\n'], .code⟩ := by simp [maskStep, blank]
    rw [step]
    refine .newline (by simp [cutLines]) ?_
    by_cases outside : depth = 0
    · simp [cutLines, outside, consLine]
    · simp [cutLines, outside, consLine_consLine]
  · have step : maskStep .comment c cs = ⟨[c], blank c, .comment⟩ := by simp [maskStep, newline]
    rw [step]
    exact @StepsAlike.one .comment .comment _ _ c _ cs newline ((pale_blank c).foldl depth)
      (by simp [cutLines, newline]) (by simp [cutLines, newline])

section

variable {quote : Char} (proper : quote = '\x22' ∨ quote = '\x27')

include proper

theorem escaped_alike {triple : Bool} (depth : Int32) {escaped : Char} (cs : Text)
    (held : escaped = '\n' → triple = true) :
    StepsAlike (.quoted quote triple) depth ('\\' :: escaped :: cs)
      (maskStep (.quoted quote triple) '\\' (escaped :: cs)) := by
  have pale : Pale (' ' :: blank escaped) := List.forall_mem_cons.mpr ⟨.inl rfl, pale_blank _⟩
  refine @StepsAlike.word _ ['\\', escaped] (' ' :: blank escaped) cs (.quoted quote triple) _ _
    (pale.foldl depth) ?_ ?_
  · exact cutLines.eq_3 depth quote triple escaped cs
  · exact cutLines_escaped_crlf cs proper held

theorem triple_alike (depth : Int32) {c : Char} {cs : Text} (plain : c = '\\' → cs = []) :
    StepsAlike (.quoted quote true) depth (c :: cs) (maskStep (.quoted quote true) c cs) := by
  by_cases closes : c = quote ∧ ∃ more, cs = quote :: quote :: more
  · obtain ⟨rfl, more, rfl⟩ := closes
    have slash : c ≠ '\\' := (ne_quote proper (by decide)).symm
    have other : c ≠ '\n' := (ne_quote proper (by decide)).symm
    have ends : c = c ∧ c = c ∧ c = c := ⟨rfl, rfl, rfl⟩
    rw [maskStep.eq_3 _ _ _ _ _ slash, if_pos ends]
    refine @StepsAlike.word _ [c, c, c] [c, c, c] more .code _ _ ((pale_quotes proper 3).foldl depth)
      ?_ ?_
    · exact (cutLines.eq_4 _ _ _ _ _ _ slash).trans (if_pos ends)
    · have same : crlf (c :: c :: c :: more) = c :: c :: c :: crlf more := by
        rw [crlf_cons other, crlf_cons other, crlf_cons other]
      have word : crlf [c, c, c] = [c, c, c] := by
        rw [crlf_cons other, crlf_cons other, crlf_cons other, crlf_nil]
      rw [word]
      exact (congrArg _ same).trans ((cutLines.eq_4 _ _ _ _ _ _ slash).trans (if_pos ends))
  · have inside : c = quote → ¬∃ more, cs = quote :: quote :: more := not_and.mp closes
    rw [maskStep_triple plain inside]
    refine @StepsAlike.word _ [c] _ cs (.quoted quote true) _ _ ((pale_blank c).foldl depth) ?_ ?_
    · exact cutLines_triple plain inside
    · exact cutLines_triple_crlf proper plain inside

theorem single_alike (depth : Int32) {c : Char} {cs : Text} (plain : c = '\\' → cs = []) :
    StepsAlike (.quoted quote false) depth (c :: cs) (maskStep (.quoted quote false) c cs) := by
  by_cases newline : c = '\n'
  · subst newline
    have step : maskStep (.quoted quote false) '\n' cs = ⟨['\n'], ['\n'], .code⟩ := by
      simp [maskStep]
    rw [step]
    exact .newline (by simp [cutLines]) (cutLines_unended_crlf cs proper)
  · have cut (rest : Text) (short : c = '\\' → rest = []) :
        cutLines (.quoted quote false) depth (c :: rest) =
          if c = quote then consLine [c] (cutLines .code depth rest)
          else consLine [c] (cutLines (.quoted quote false) depth rest) := by
      rw [cutLines.eq_6 _ _ _ _ fun _ _ hc h => by simp [short hc] at h, if_neg newline]
    have long : c = '\\' → crlf cs = [] := fun hc => by rw [plain hc, crlf_nil]
    by_cases closes : c = quote
    · subst closes
      have slash : c ≠ '\\' := (ne_quote proper (by decide)).symm
      have step : maskStep (.quoted c false) c cs = ⟨[c], [c], .code⟩ := by simp [maskStep, slash]
      rw [step]
      exact @StepsAlike.one _ .code _ _ c _ cs newline ((pale_quotes proper 1).foldl depth)
        ((cut cs plain).trans (if_pos rfl)) ((cut _ long).trans (if_pos rfl))
    · have step : maskStep (.quoted quote false) c cs = ⟨[c], blank c, .quoted quote false⟩ := by
        by_cases slash : c = '\\'
        · have blanked : blank '\\' = [' '] := by decide
          simp [maskStep, slash, plain slash, blanked]
        · simp [maskStep, slash, closes, newline]
      rw [step]
      exact @StepsAlike.one _ (.quoted quote false) _ _ c _ cs newline ((pale_blank c).foldl depth)
        ((cut cs plain).trans (if_neg closes)) ((cut _ long).trans (if_neg closes))

end

theorem code_alike (depth : Int32) {c : Char} {cs : Text} (joined : c = '\\' → cs.head? ≠ some '\n') :
    StepsAlike .code depth (c :: cs) (maskStep .code c cs) := by
  by_cases triple : OpensTriple (c :: cs)
  · obtain ⟨quote, more, same, proper⟩ := triple
    obtain ⟨rfl, rfl⟩ := List.cons.inj same
    have pale := (pale_quotes proper 3).foldl depth
    rcases proper with rfl | rfl
    · exact @StepsAlike.word .code ['\x22', '\x22', '\x22'] _ more (.quoted '\x22' true) _ _ pale
        (by simp [cutLines]) (by simp [cutLines, crlf_cons])
    · exact @StepsAlike.word .code ['\x27', '\x27', '\x27'] _ more (.quoted '\x27' true) _ _ pale
        (by simp [cutLines]) (by simp [cutLines, crlf_cons])
  have double (more : List Char) (hc : c = '\x22') (h : cs = '\x22' :: '\x22' :: more) : False :=
    triple ⟨'\x22', more, by rw [hc, h], .inl rfl⟩
  have single (more : List Char) (hc : c = '\x27') (h : cs = '\x27' :: '\x27' :: more) : False :=
    triple ⟨'\x27', more, by rw [hc, h], .inr rfl⟩
  by_cases newline : c = '\n'
  · subst newline
    rw [maskStep_code (by decide) (by decide)]
    refine .newline (by simp [cutLines]) ?_
    by_cases outside : depth = 0
    · simp [cutLines, outside, consLine]
    · simp [cutLines, outside, consLine_consLine]
  have cut := cutLines.eq_10 depth c cs double single fun more hc h => joined hc (by rw [h]; rfl)
  have cut' := @cutLines_code_crlf depth c cs double single newline
  rw [crlf_cons newline] at cut'
  by_cases hash : c = '#'
  · subst hash
    have step : maskStep .code '#' cs = ⟨['#'], [' '], .comment⟩ := by simp [maskStep]
    rw [step]
    exact @StepsAlike.one .code .comment depth depth _ [' '] cs newline rfl
      (cut.trans (if_pos rfl)) (cut'.trans (if_pos rfl))
  rw [if_neg hash] at cut cut'
  by_cases quote : c = '\x22' ∨ c = '\x27'
  · have step : maskStep .code c cs = ⟨[c], [c], .quoted c false⟩ := by
      rw [maskStep.eq_8 _ _ double single, if_neg hash, if_pos quote]
    rw [step]
    exact @StepsAlike.one .code (.quoted c false) _ _ c _ cs newline
      ((pale_quotes quote 1).foldl depth) (cut.trans (if_pos quote)) (cut'.trans (if_pos quote))
  have stays : ¬(c = '\n' ∧ depth = 0) := fun h => newline h.1
  rw [if_neg quote] at cut cut'
  rw [if_neg stays] at cut
  rw [maskStep_code hash quote]
  refine @StepsAlike.one .code .code depth (countStep depth c) c [c] cs newline rfl ?_ ?_
  · rw [cut, countStep]
    split
    · rfl
    · split <;> rfl
  · rw [cut', countStep]
    split
    · rfl
    · split <;> rfl

/-- A step for which the line scanner joins no lines is taken alike, unless it carries a newline. -/
theorem steps_alike {st : LineState} {done : Text} {c : Char} {cs : Text} (depth : Int32)
    (proper : st.masking.Proper) (uncarried : Uncarried st.masking done (c :: cs))
    (plain : st.masking = .code → c = '\\' → cs.head? ≠ some '\n') :
    StepsAlike st depth (c :: cs) (maskStep st.masking c cs) := by
  cases st with
  | code => exact code_alike depth (plain rfl)
  | comment => exact comment_alike depth c cs
  | quoted quote triple =>
    by_cases escapes : c = '\\' ∧ cs ≠ []
    · obtain ⟨rfl, full⟩ := escapes
      obtain ⟨escaped, cs, rfl⟩ := List.exists_cons_of_ne_nil full
      refine escaped_alike proper depth cs fun newline => ?_
      subst newline
      cases triple with
      | true => rfl
      | false => exact absurd (carriedAt_escape quote done cs) (uncarried 1)
    · have short : c = '\\' → cs = [] := fun hc => not_not.mp fun full => escapes ⟨hc, full⟩
      cases triple with
      | true => exact triple_alike proper depth short
      | false => exact single_alike proper depth short

/-! ### Whole texts -/

theorem Pale.getLast? {w : Text} (h : Pale w) : w.getLast? ≠ some '\\' := by
  intro last
  have shown := h '\\' (List.mem_of_getLast? last)
  simp at shown

/-- The mask of a step ends in a backslash only if that stands in code. -/
theorem code_of_maskStep_backslash {st : IndentState} (proper : st.Proper) (c : Char) (cs : Text) :
    (maskStep st c cs).written.getLast? = some '\\' → st = .code ∧ c = '\\' := by
  fun_cases maskStep st c cs with
  | case1 | case4 | case5 | case9 => exact fun last => absurd last (pale_blank _).getLast?
  | case2 quote triple escaped tail =>
    have pale : Pale (' ' :: blank escaped) := List.forall_mem_cons.mpr ⟨.inl rfl, pale_blank _⟩
    exact fun last => absurd last pale.getLast?
  | case3 _ _ _ _ _ _ closes =>
    obtain ⟨rfl, rfl, rfl⟩ := closes
    exact fun last => absurd last (pale_quotes proper 3).getLast?
  | case6 | case8 | case10 | case11 | case12 => simp
  | case7 => exact fun last => absurd last (pale_quotes proper 1).getLast?
  | case13 _ _ _ _ _ quote => exact fun last => absurd last (pale_quotes quote 1).getLast?
  | case14 => exact fun last => ⟨rfl, by simpa using last⟩

/-- Both scanners stay together over a step for which the line scanner joins no lines. -/
theorem Abreast.behind {st next : IndentState} {depth : Int32} {done w painted cs tail : Text}
    {c : Char} (h : Abreast depth done (c :: cs)) (proper : st.Proper)
    (plain : st = .code → c = '\\' → cs.head? ≠ some '\n')
    (step : maskStep st c cs = ⟨w, painted, next⟩) (split : c :: cs = w ++ tail) :
    Abreast (painted.foldl countStep depth) (done ++ painted) tail := by
  have size := maskStep_size st c cs
  have backslash := code_of_maskStep_backslash proper c cs
  rw [step] at size backslash
  constructor
  · rw [bracketCount_append, h.depth]
  · intro last
    have full : painted ≠ [] := by
      intro none
      rw [none, Text.size_nil] at size
      exact size.2 (Text.size_eq_zero size.1.symm)
    rw [List.getLast?_append_of_ne_nil _ full] at last
    obtain ⟨rfl, rfl⟩ := backslash last
    rw [maskStep_code (by decide) (by decide)] at step
    obtain ⟨rfl, -, -⟩ := MaskStep.mk.inj step
    obtain ⟨-, rfl⟩ := List.cons.inj split
    exact plain rfl rfl

theorem cutLines_join_crlf {depth : Int32} {cs : Text} (inside : depth ≠ 0)
    (later : cutLines .code depth (crlf cs) = crlfPieces (cutLines .code depth cs)) :
    cutLines .code depth (crlf ('\\' :: '\n' :: cs)) =
      crlfPieces (cutLines .code depth ('\\' :: '\n' :: cs)) := by
  have slash : crlf ('\\' :: '\n' :: cs) = '\\' :: '\r' :: '\n' :: crlf cs := rfl
  have word : crlf ['\\', '\n'] = ['\\', '\r', '\n'] := rfl
  have pieces : cutLines .code depth ('\\' :: '\n' :: cs) =
      consLine ['\\', '\n'] (cutLines .code depth cs) := by simp [cutLines]
  rw [pieces, crlfPieces_consLine _ (cutLines_ne_nil _ _ _), slash, word, ← later]
  simp [cutLines, inside, consLine_consLine]

/-- If no newline is carried, a text is cut at the same newlines once it has carriage returns. -/
theorem cutLines_crlf {st : LineState} {depth : Int32} {done : Text} (cs : Text)
    (proper : st.masking.Proper) (h : Abreast depth done cs)
    (uncarried : Uncarried st.masking done cs) :
    cutLines st depth (crlf cs) = crlfPieces (cutLines st depth cs) := by
  generalize hn : cs.length = n
  induction n using Nat.strongRecOn generalizing st depth done cs with
  | ind n ih =>
    cases cs with
    | nil => simp [cutLines, crlfPieces]
    | cons c cs =>
      by_cases join : st.masking = .code ∧ c = '\\' ∧ cs.head? = some '\n'
      · obtain ⟨code, rfl, newline⟩ := join
        obtain ⟨cs, rfl⟩ := List.head?_eq_some_iff.mp newline
        cases st with
        | comment | quoted => cases code
        | code =>
          -- For the mask the backslash and the newline behind it are two steps.
          have back : Abreast (countStep depth '\\') (done ++ ['\\']) [] := h.code (by simp)
          have newline : Uncarried .code (done ++ ['\\']) ('\n' :: cs) :=
            uncarried.behind (maskStep_code (by decide) (by decide)) rfl
          have behind : Uncarried .code (done ++ ['\\'] ++ ['\n']) cs :=
            newline.behind (maskStep_code (by decide) (by decide)) rfl
          have shorter : cs.length < n := by
            rw [← hn, List.length_cons, List.length_cons]
            omega
          have later := @ih cs.length shorter .code depth _ cs trivial
            (back.pale pale_newline (by simp)) behind rfl
          have inside : depth ≠ 0 :=
            fun outside => uncarried 1 (carriedAt_join (h.depth.trans outside))
          exact cutLines_join_crlf inside later
      · have plain (code : st.masking = .code) (hc : c = '\\') : cs.head? ≠ some '\n' :=
          fun newline => join ⟨code, hc, newline⟩
        have proper' := maskStep_proper proper c cs
        have full := (maskStep_size st.masking c cs).2
        have step := steps_alike depth proper uncarried plain
        generalize made : maskStep st.masking c cs = s at step proper' full
        generalize split : c :: cs = text at step
        cases step with
        | @ends tail cut cut' =>
          have shorter : tail.length < n := by
            rw [← hn, split]
            simp
          have abreast := h.behind proper plain made split
          rw [pale_newline.foldl] at abreast
          have later := @ih tail.length shorter .code 0 _ tail trivial abreast
            (uncarried.behind made split) rfl
          rw [cut, cut', later, crlfPieces_cons _ (cutLines_ne_nil _ _ _)]
          rfl
        | @word w painted tail st' _ depth' same cut cut' =>
          have shorter : tail.length < n := by
            have pos : 0 < w.length := List.length_pos_iff.mpr full
            rw [← hn, split, List.length_append]
            omega
          have abreast := h.behind proper plain made split
          rw [same] at abreast
          have later := @ih tail.length shorter st' depth' _ tail proper' abreast
            (uncarried.behind made split) rfl
          rw [cut, cut', later, crlfPieces_consLine _ (cutLines_ne_nil _ _ _)]

/-! ### Lines -/

theorem subset_of_mem_cutLines {cs raw : Text} (h : raw ∈ cutLines .code 0 cs) : raw ⊆ cs := by
  generalize hn : cs.length = n
  induction n using Nat.strongRecOn generalizing cs with
  | ind n ih =>
    obtain ⟨line, single, rfl | ⟨rest, rfl, cut, -⟩⟩ := cutLines_first .code 0 cs
    · rw [single, List.mem_singleton] at h
      rw [h]
      exact List.Subset.refl _
    · rw [cut] at h
      cases h with
      | head => exact List.subset_append_left _ _
      | tail _ h =>
        have later := ih rest.length (by simp [← hn]; omega) h rfl
        have behind : rest ⊆ line ++ '\n' :: rest :=
          fun c hc => List.mem_append_right line (List.mem_cons_of_mem _ hc)
        exact fun c hc => behind (later hc)

/-- The second raw text is the first one in a source with carriage returns. -/
def RawReturned (raw raw' : Text) : Prop :=
  '\r' ∉ raw ∧ (raw' = crlf raw ∨ raw' = crlf raw ++ ['\r'])

/-- The second line is the first one in a source with carriage returns. -/
structure LogicalLine.Returned (line line' : LogicalLine) : Prop where
  kind : line'.kind = line.kind
  indent : line'.indent = line.indent
  content : line'.content = crlf line.content

theorem RawReturned.text {raw raw' : Text} (h : RawReturned raw raw') (start start' : Nat) :
    (LogicalLine.ofRaw start' raw').text = crlf (LogicalLine.ofRaw start raw).text := by
  obtain ⟨plain, h⟩ := h
  have kept : (LogicalLine.ofRaw start raw).text = raw :=
    if_neg fun last => plain (List.mem_of_getLast? last)
  rw [kept]
  rcases h with rfl | rfl
  · exact if_neg (crlf_getLast? plain)
  · exact (if_pos (by simp)).trans (by simp)

theorem LogicalLine.Returned.of_text {line line' : LogicalLine} (h : line'.text = crlf line.text) :
    line.Returned line' := by
  have content : line'.content = crlf line.content := by
    unfold LogicalLine.content
    rw [h, crlf_trimStart]
  refine ⟨?_, (congrArg indentWidth h).trans (crlf_indentWidth _), content⟩
  unfold LogicalLine.kind
  rw [content]
  rcases line.content with _ | ⟨c, cs⟩
  · rfl
  · by_cases newline : c = '\n'
    · rw [newline]
      rfl
    · rw [crlf_cons newline]
      split <;> simp_all

theorem placeLines_returned {raws raws' : List Text} (h : List.Forall₂ RawReturned raws raws')
    (offset offset' : Nat) :
    List.Forall₂ LogicalLine.Returned (placeLines offset raws) (placeLines offset' raws') := by
  induction h generalizing offset offset' with
  | nil => exact .nil
  | cons raw _ ih => exact .cons (.of_text (raw.text offset offset')) (ih _ _)

theorem crlfPieces_returned {pieces : List Text} (h : ∀ piece ∈ pieces, '\r' ∉ piece) :
    List.Forall₂ RawReturned pieces (crlfPieces pieces) := by
  fun_induction crlfPieces pieces with
  | case1 => exact .nil
  | case2 piece => exact .cons ⟨h piece (by simp), .inl rfl⟩ .nil
  | case3 piece next pieces ih =>
    exact .cons ⟨h piece (by simp), .inr rfl⟩ (ih fun p mem => h p (List.mem_cons_of_mem _ mem))

theorem crlfPieces_getLast? (pieces : List Text) :
    (crlfPieces pieces).getLast? = pieces.getLast?.map crlf := by
  fun_induction crlfPieces pieces with
  | case1 => rfl
  | case2 piece => rfl
  | case3 piece next pieces ih => simp [List.getLast?_cons, ih]

/-- No backslash carries the text over a newline at which a line would end without it. -/
def NoneCarried (source : Text) : Prop := Uncarried .code [] source

theorem CarriedAt.lt {st : IndentState} {done cs : Text} {n : Nat} (h : CarriedAt st done n cs) :
    n < Text.size cs := by
  obtain ⟨front, back, rfl, rfl⟩ := Text.at?_eq_some h.1
  rw [Text.size_append]
  exact Nat.lt_add_of_pos_right (Nat.pos_of_ne_zero fun none => by cases Text.size_eq_zero none)

instance (st : IndentState) (done : Text) (n : Nat) (cs : Text) :
    Decidable (CarriedAt st done n cs) :=
  decidable_of_iff (Text.at? cs n = some '\n' ∧ ((stateAfter st n cs).isOneLine = true ∨
    (Text.take? (maskIndentFrom st cs) n).any (fun front =>
      bracketCount (done ++ front) = 0 ∧ (done ++ front).getLast? = some '\\') = true))
    (by simp [CarriedAt, Option.any_eq_true])

instance (source : Text) : Decidable (NoneCarried source) :=
  decidable_of_iff (∀ n < Text.size source, ¬CarriedAt .code [] n source)
    ⟨fun h n carried => h n carried.lt carried, fun h n _ => h n⟩

theorem cutLines_source_crlf {source : Text} (uncarried : NoneCarried source) :
    cutLines .code 0 (crlf source) = crlfPieces (cutLines .code 0 source) :=
  cutLines_crlf source trivial ⟨rfl, fun last => by simp at last⟩ uncarried

theorem lineTexts_returned {source : Text} (plain : '\r' ∉ source)
    (uncarried : NoneCarried source) :
    List.Forall₂ RawReturned (lineTexts source) (lineTexts (crlf source)) := by
  have all : List.Forall₂ RawReturned (cutLines .code 0 source) (cutLines .code 0 (crlf source)) := by
    rw [cutLines_source_crlf uncarried]
    exact crlfPieces_returned fun piece mem held => plain (subset_of_mem_cutLines mem held)
  have last : (cutLines .code 0 (crlf source)).getLast? = some [] ↔
      (cutLines .code 0 source).getLast? = some [] := by
    simp [cutLines_source_crlf uncarried, crlfPieces_getLast?, crlf_eq_nil]
  unfold lineTexts
  simp only [last]
  split
  · rw [List.dropLast_eq_take, List.dropLast_eq_take, all.length_eq]
    exact List.forall₂_take _ all
  · exact all

/-- Carriage returns in front of the newlines change no line but for those that its inner newlines
get, as long as no backslash carries the text over a newline. -/
theorem logicalLines_crlf {source : Text} (plain : '\r' ∉ source)
    (uncarried : NoneCarried source) :
    List.Forall₂ LogicalLine.Returned (logicalLines source) (logicalLines (crlf source)) :=
  placeLines_returned (lineTexts_returned plain uncarried) 0 0

/-- Joins in brackets, in a comment and in a literal of three quotes, each behind a backslash. -/
theorem logicalLines_crlf_held :
    List.Forall₂ LogicalLine.Returned
      (logicalLines "f(1, \\\n  2)  # \\\ns = '''a \\\nb'''\n".toList)
      (logicalLines (crlf "f(1, \\\n  2)  # \\\ns = '''a \\\nb'''\n".toList)) :=
  logicalLines_crlf (by decide) (by decide +kernel)

/-- A backslash joins two lines, and with carriage returns it does not. -/
theorem logicalLines_crlf_joined : ¬∀ source : Text, '\r' ∉ source →
    List.Forall₂ LogicalLine.Returned (logicalLines source) (logicalLines (crlf source)) := by
  intro all
  have same := (all "x = 1 + \\\n2".toList (by decide)).length_eq
  have one : (logicalLines "x = 1 + \\\n2".toList).length = 1 := by decide
  have two : (logicalLines (crlf "x = 1 + \\\n2".toList)).length = 2 := by decide
  omega

end SourceTree.Scan
