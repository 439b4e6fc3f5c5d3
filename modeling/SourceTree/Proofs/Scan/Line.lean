import SourceTree.Proofs.Scan.Mask
import SourceTree.Scan.LogicalLine

/-!
Logical lines and the mask of a source. The scanner that cuts a source into lines and the one that
masks it read the same words and change their states alike, so the mask of a line is the piece of
the mask that lies over it.
-/

namespace SourceTree.Scan

/-- The state of the masking scanner where the line scanner is in this state. -/
def LineState.masking : LineState → IndentState
  | code => .code
  | comment => .comment
  | quoted quote triple => .quoted quote triple

/-- From the first state and depth both scanners read the word `w`, with `painted` as its mask, and
go on in the second; they do so in front of every front of `tail`. -/
def Reads (st : LineState) (depth : Int32) (w tail painted : Text) (st' : LineState) (depth' : Int32) :
    Prop :=
  ∀ front back, tail = front ++ back →
    cutLines st depth (w ++ front) = consLine w (cutLines st' depth' front) ∧
      maskIndentFrom st.masking (w ++ front) = painted ++ maskIndentFrom st'.masking front

/-- At the newline `c` the line ends. -/
def EndsLine (st : LineState) (depth : Int32) (c : Char) (cs : Text) : Prop :=
  c = '\n' ∧ cutLines st depth (c :: cs) = [] :: cutLines .code 0 cs ∧
    maskIndentFrom st.masking (c :: cs) = '\n' :: maskIndentFrom .code cs

def ReadsWord (st : LineState) (depth : Int32) (cs : Text) : Prop :=
  ∃ w tail painted st' depth', cs = w ++ tail ∧ w ≠ [] ∧ Reads st depth w tail painted st' depth'

theorem comment_reads (depth : Int32) (c : Char) (cs : Text) :
    EndsLine .comment depth c cs ∨ ReadsWord .comment depth (c :: cs) := by
  by_cases hc : c = '\n'
  · subst hc
    by_cases hd : depth = 0
    · exact .inl ⟨rfl, by simp [cutLines, hd], by simp [maskIndentFrom, LineState.masking, blank]⟩
    · refine .inr ⟨['\n'], cs, ['\n'], .code, depth, rfl, by simp, ?_⟩
      intro front back _
      simp [cutLines, hd, maskIndentFrom, LineState.masking, blank]
  · refine .inr ⟨[c], cs, blank c, .comment, depth, rfl, by simp, ?_⟩
    intro front back _
    simp [cutLines, hc, maskIndentFrom, LineState.masking]

/-- A backslash takes the next character with it. -/
theorem escaped_reads (quote : Char) (triple : Bool) (depth : Int32) (escaped : Char) (cs : Text) :
    ReadsWord (.quoted quote triple) depth ('\\' :: escaped :: cs) := by
  refine ⟨['\\', escaped], cs, ' ' :: blank escaped, .quoted quote triple, depth, rfl, by simp, ?_⟩
  intro front back _
  simp [cutLines, maskIndentFrom, LineState.masking]

theorem quoted_reads (quote : Char) (depth : Int32) (c : Char) (cs : Text) :
    EndsLine (.quoted quote false) depth c cs ∨
      ReadsWord (.quoted quote false) depth (c :: cs) := by
  by_cases hs : c = '\\'
  · subst hs
    cases cs with
    | cons escaped cs => exact .inr (escaped_reads quote false depth escaped cs)
    | nil =>
      refine .inr ⟨['\\'], [], [' '], .code, depth, rfl, by simp, ?_⟩
      intro front back h
      obtain ⟨rfl, -⟩ := List.append_eq_nil_iff.mp h.symm
      simp [cutLines, maskIndentFrom, LineState.masking, consLine]
  · by_cases hc : c = '\n'
    · subst hc
      by_cases hd : depth = 0
      · exact .inl ⟨rfl, by simp [cutLines, hd], by simp [maskIndentFrom, LineState.masking]⟩
      · refine .inr ⟨['\n'], cs, ['\n'], .code, depth, rfl, by simp, ?_⟩
        intro front back _
        simp [cutLines, hd, maskIndentFrom, LineState.masking]
    · by_cases hq : c = quote
      · subst hq
        refine .inr ⟨[c], cs, [c], .code, depth, rfl, by simp, ?_⟩
        intro front back _
        simp [cutLines, hs, hc, maskIndentFrom, LineState.masking]
      · refine .inr ⟨[c], cs, blank c, .quoted quote false, depth, rfl, by simp, ?_⟩
        intro front back _
        simp [cutLines, hs, hc, hq, maskIndentFrom, LineState.masking]

theorem triple_reads (quote : Char) (depth : Int32) (c : Char) (cs : Text) :
    ReadsWord (.quoted quote true) depth (c :: cs) := by
  by_cases hs : c = '\\' ∧ cs ≠ []
  · obtain ⟨rfl, hs⟩ := hs
    cases cs with
    | nil => exact absurd rfl hs
    | cons escaped cs => exact escaped_reads quote true depth escaped cs
  · by_cases hq : ∃ more, cs = quote :: quote :: more ∧ c = quote
    · obtain ⟨more, rfl, rfl⟩ := hq
      have hs : c ≠ '\\' := by simpa using hs
      refine ⟨[c, c, c], more, [c, c, c], .code, depth, rfl, by simp, ?_⟩
      intro front back _
      simp [cutLines, maskIndentFrom, LineState.masking]
    · refine ⟨[c], cs, blank c, .quoted quote true, depth, rfl, by simp, ?_⟩
      intro front back hf
      match front with
      | [] => simp [cutLines, maskIndentFrom, LineState.masking]
      | [b] =>
        have hs : c ≠ '\\' := by simpa [hf] using hs
        simp [cutLines, hs, maskIndentFrom, LineState.masking]
      | b :: b' :: front =>
        have hs : c ≠ '\\' := by simpa [hf] using hs
        have hq : ¬(c = quote ∧ b = quote ∧ b' = quote) := by
          rintro ⟨rfl, rfl, rfl⟩
          exact hq ⟨front ++ back, hf, rfl⟩
        simp [cutLines, hq, maskIndentFrom, LineState.masking]

/-- Three quotes open a literal. -/
def OpensTriple (cs : Text) : Prop :=
  ∃ quote more, cs = quote :: quote :: quote :: more ∧ (quote = '\x22' ∨ quote = '\x27')

theorem code_reads (depth : Int32) (c : Char) (cs : Text) :
    EndsLine .code depth c cs ∨ ReadsWord .code depth (c :: cs) := by
  by_cases ht : OpensTriple (c :: cs)
  · obtain ⟨quote, more, hm, hq⟩ := ht
    rw [hm]
    refine .inr ⟨[quote, quote, quote], more, [quote, quote, quote], .quoted quote true, depth, rfl,
      by simp, ?_⟩
    intro front back _
    rcases hq with rfl | rfl <;> simp [cutLines, maskIndentFrom, LineState.masking]
  · by_cases hj : c = '\\' ∧ ∃ more, cs = '\n' :: more
    · obtain ⟨rfl, more, rfl⟩ := hj
      refine .inr ⟨['\\', '\n'], more, ['\\', '\n'], .code, depth, rfl, by simp, ?_⟩
      intro front back _
      simp [cutLines, maskIndentFrom, LineState.masking]
    · -- What does not open a longer word does not open one in front of less text either.
      have noDouble {front back : Text} (h : cs = front ++ back) (more : List Char)
          (hc : c = '\x22') (hf : front = '\x22' :: '\x22' :: more) : False :=
        ht ⟨'\x22', more ++ back, by simp [h, hc, hf], .inl rfl⟩
      have noSingle {front back : Text} (h : cs = front ++ back) (more : List Char)
          (hc : c = '\x27') (hf : front = '\x27' :: '\x27' :: more) : False :=
        ht ⟨'\x27', more ++ back, by simp [h, hc, hf], .inr rfl⟩
      have noJoin {front back : Text} (h : cs = front ++ back) (more : List Char)
          (hc : c = '\\') (hf : front = '\n' :: more) : False :=
        hj ⟨hc, more ++ back, by simp [h, hf]⟩
      have cut {front back : Text} (h : cs = front ++ back) :=
        cutLines.eq_10 depth c front (noDouble h) (noSingle h) (noJoin h)
      have paint {front back : Text} (h : cs = front ++ back) :=
        maskIndentFrom.eq_9 c front (noDouble h) (noSingle h)
      by_cases hash : c = '#'
      · subst hash
        refine .inr ⟨['#'], cs, [' '], .comment, depth, rfl, by simp, fun front back h => ?_⟩
        exact ⟨(cut h).trans (by simp), (paint h).trans (by simp [LineState.masking])⟩
      by_cases quote : c = '\x22' ∨ c = '\x27'
      · refine .inr ⟨[c], cs, [c], .quoted c false, depth, rfl, by simp, fun front back h => ?_⟩
        exact ⟨(cut h).trans (by simp [hash, quote]),
          (paint h).trans (by simp [hash, quote, LineState.masking])⟩
      have painted {front back : Text} (h : cs = front ++ back) :
          maskIndentFrom .code (c :: front) = c :: maskIndentFrom .code front :=
        (paint h).trans (by simp [hash, quote])
      by_cases opener : c = '(' ∨ c = '[' ∨ c = '\x7b'
      · refine .inr ⟨[c], cs, [c], .code, depth + 1, rfl, by simp, fun front back h => ?_⟩
        exact ⟨(cut h).trans (by simp [hash, quote, opener]), painted h⟩
      by_cases closer : c = ')' ∨ c = ']' ∨ c = '\x7d'
      · refine .inr ⟨[c], cs, [c], .code, max (depth - 1) 0, rfl, by simp, fun front back h => ?_⟩
        exact ⟨(cut h).trans (by simp [hash, quote, opener, closer]), painted h⟩
      by_cases newline : c = '\n' ∧ depth = 0
      · obtain ⟨rfl, rfl⟩ := newline
        have whole : cs = cs ++ [] := by simp
        exact .inl ⟨rfl, (cut whole).trans (by simp), painted whole⟩
      · refine .inr ⟨[c], cs, [c], .code, depth, rfl, by simp, fun front back h => ?_⟩
        exact ⟨(cut h).trans (by simp [hash, quote, opener, closer, newline]), painted h⟩

theorem endsLine_or_readsWord (st : LineState) (depth : Int32) (c : Char) (cs : Text) :
    EndsLine st depth c cs ∨ ReadsWord st depth (c :: cs) := by
  cases st with
  | code => exact code_reads depth c cs
  | comment => exact comment_reads depth c cs
  | quoted quote triple =>
    cases triple with
    | true => exact .inr (triple_reads quote depth c cs)
    | false => exact quoted_reads quote depth c cs

theorem consLine_singleton (w p : Text) : consLine w [p] = [w ++ p] := rfl

/-- The first line of a text is a line of its own, and the mask is cut where the text is. -/
theorem cutLines_first (st : LineState) (depth : Int32) (cs : Text) : ∃ line,
    cutLines st depth line = [line] ∧
      (cs = line ∨ ∃ rest, cs = line ++ '\n' :: rest ∧
        cutLines st depth cs = line :: cutLines .code 0 rest ∧
        maskIndentFrom st.masking cs =
          maskIndentFrom st.masking line ++ '\n' :: maskIndentFrom .code rest) := by
  generalize hn : cs.length = n
  induction n using Nat.strongRecOn generalizing st depth cs with
  | ind n ih =>
    cases cs with
    | nil => exact ⟨[], by simp [cutLines], .inl rfl⟩
    | cons c cs =>
      rcases endsLine_or_readsWord st depth c cs with ⟨rfl, cut, paint⟩ | h
      · refine ⟨[], by simp [cutLines], .inr ⟨cs, rfl, cut, ?_⟩⟩
        simpa [maskIndentFrom] using paint
      · obtain ⟨w, tail, painted, st', depth', hw, full, reads⟩ := h
        have shorter : tail.length < n := by
          have len := congrArg List.length hw
          have pos := List.length_pos_iff.mpr full
          rw [List.length_append] at len
          omega
        obtain ⟨line, single, rest⟩ := ih tail.length shorter st' depth' tail rfl
        rw [hw]
        refine ⟨w ++ line, ?_, ?_⟩
        · have prefixed : ∃ back, tail = line ++ back := by
            rcases rest with rfl | ⟨rest, rfl, -⟩
            · exact ⟨[], by simp⟩
            · exact ⟨_, rfl⟩
          obtain ⟨back, hb⟩ := prefixed
          rw [(reads line back hb).1, single, consLine_singleton]
        · rcases rest with rfl | ⟨rest, rfl, cut, paint⟩
          · exact .inl rfl
          · refine .inr ⟨rest, by simp, ?_, ?_⟩
            · rw [(reads _ [] (by simp)).1, cut]
              rfl
            · rw [(reads _ [] (by simp)).2, paint, (reads line _ rfl).2]
              simp

theorem maskIndentFrom_code_cons {c : Char} (cs : Text)
    (h : c ≠ '#' ∧ c ≠ '\x22' ∧ c ≠ '\x27') :
    maskIndentFrom .code (c :: cs) = c :: maskIndentFrom .code cs := by
  obtain ⟨hash, double, single⟩ := h
  rw [maskIndentFrom.eq_9 c cs (fun _ hc => absurd hc double) (fun _ hc => absurd hc single)]
  simp [hash, double, single]

/-- The characters at which the scanners change their state or depth. -/
def signals : List Char := ['#', '\x22', '\x27', '(', '[', '\x7b', ')', ']', '\x7d', '\\']

theorem not_mem_signals {p : Char → Bool} (hp : signals.all (fun x => !p x) = true) {c : Char}
    (h : p c = true) : c ∉ signals := by
  intro mem
  have quiet := List.all_eq_true.mp hp c mem
  simp [h] at quiet

theorem maskIndentFrom_code_append {w : Text} (cs : Text) (h : ∀ c ∈ w, c ∉ signals) :
    maskIndentFrom .code (w ++ cs) = w ++ maskIndentFrom .code cs := by
  induction w with
  | nil => rfl
  | cons c w ih =>
    have quiet := h c (by simp)
    have plain : c ≠ '#' ∧ c ≠ '\x22' ∧ c ≠ '\x27' := by
      refine ⟨?_, ?_, ?_⟩ <;> rintro rfl <;> exact quiet (by decide)
    rw [List.cons_append, maskIndentFrom_code_cons _ plain, ih fun x hx => h x (by simp [hx])]
    rfl

theorem blank_not_mem_signals {c : Char} (h : Text.isBlank c = true) : c ∉ signals :=
  not_mem_signals (by decide) h

/-- A carriage return at the end changes nothing in front of it. -/
theorem maskIndentFrom_carriage (st : IndentState) (cs : Text) (h : st.Proper) :
    ∃ x, maskIndentFrom st (cs ++ ['\r']) = maskIndentFrom st cs ++ [x] := by
  fun_induction maskIndentFrom st cs with
  | case1 st =>
    cases st with
    | code => exact ⟨'\r', by simp [maskIndentFrom]⟩
    | comment => exact ⟨' ', by simp [maskIndentFrom, blank]; decide⟩
    | quoted quote triple =>
      have hq : '\r' ≠ quote := by rcases h with rfl | rfl <;> decide
      cases triple
      · exact ⟨' ', by simp [maskIndentFrom, blank, hq]; decide⟩
      · exact ⟨' ', by simp [maskIndentFrom, blank]; decide⟩
  | case2 c cs ih =>
    obtain ⟨x, hx⟩ := ih (by split <;> trivial)
    exact ⟨x, by simp [maskIndentFrom, hx]⟩
  | case3 quote triple escaped cs ih =>
    obtain ⟨x, hx⟩ := ih h
    exact ⟨x, by simp [maskIndentFrom, hx]⟩
  | case4 quote a b c cs ha hq ih =>
    obtain ⟨x, hx⟩ := ih trivial
    obtain ⟨rfl, rfl, rfl⟩ := hq
    exact ⟨x, by simp [maskIndentFrom, hx]⟩
  | case5 quote a b c cs ha hq ih =>
    obtain ⟨x, hx⟩ := ih h
    rw [List.cons_append, List.cons_append] at hx
    refine ⟨x, ?_⟩
    rw [List.cons_append, List.cons_append, List.cons_append, maskIndentFrom.eq_4 _ _ _ _ _ ha,
      if_neg hq, hx, List.append_assoc]
  | case6 quote c cs hs short ih =>
    obtain ⟨x, hx⟩ := ih h
    have hq : '\r' ≠ quote := by rcases h with rfl | rfl <;> decide
    rcases cs with _ | ⟨b, _ | ⟨b', cs⟩⟩
    · by_cases hc : c = '\\'
      · exact ⟨' ', by simp [hc, maskIndentFrom, blank]; decide⟩
      · exact ⟨x, by simpa [hc, maskIndentFrom] using hx⟩
    · have hc : c ≠ '\\' := fun hc => hs b [] hc rfl
      exact ⟨x, by simpa [hc, hq, maskIndentFrom] using hx⟩
    · exact absurd rfl (short b b' cs)
  | case7 quote cs hs ih =>
    cases cs with
    | nil => exact ⟨' ', by simp [maskIndentFrom, blank]; decide⟩
    | cons b cs => exact absurd rfl (hs b cs rfl)
  | case8 c cs _ hc ih =>
    obtain ⟨x, hx⟩ := ih trivial
    exact ⟨x, by simp [maskIndentFrom, hc, hx]⟩
  | case9 quote cs _ _ hq ih =>
    obtain ⟨x, hx⟩ := ih trivial
    exact ⟨x, by simp [maskIndentFrom, hq, hx]⟩
  | case10 quote c cs _ hc hq hn ih =>
    obtain ⟨x, hx⟩ := ih h
    exact ⟨x, by simp [maskIndentFrom, hc, hq, hn, hx]⟩
  | case11 cs ih =>
    obtain ⟨x, hx⟩ := ih (.inl rfl)
    exact ⟨x, by simp [maskIndentFrom, hx]⟩
  | case12 cs ih =>
    obtain ⟨x, hx⟩ := ih (.inr rfl)
    exact ⟨x, by simp [maskIndentFrom, hx]⟩
  | case13 cs _ _ ih =>
    obtain ⟨x, hx⟩ := ih trivial
    exact ⟨x, by simp [maskIndentFrom, hx]⟩
  | case14 c cs double single hash hc ih =>
    obtain ⟨x, hx⟩ := ih hc
    have still {quote : Char} (hq : '\r' ≠ quote)
        (hcs : ∀ more, c = quote → cs = quote :: quote :: more → False) (more : List Char)
        (hc : c = quote) (hm : cs ++ ['\r'] = quote :: quote :: more) : False := by
      rcases cs with _ | ⟨b, _ | ⟨b', cs⟩⟩
      · simp at hm
      · exact hq (by simpa using (List.cons.inj (List.cons.inj hm).2).1)
      · obtain ⟨rfl, rfl, -⟩ : b = quote ∧ b' = quote ∧ cs ++ ['\r'] = more := by simpa using hm
        exact hcs cs hc rfl
    refine ⟨x, ?_⟩
    rw [List.cons_append, maskIndentFrom.eq_9 _ _ (still (by decide) double)
      (still (by decide) single), if_neg hash, if_pos hc, hx]
    rfl
  | case15 c cs _ _ hash hc ih =>
    obtain ⟨x, hx⟩ := ih trivial
    have plain : c ≠ '#' ∧ c ≠ '\x22' ∧ c ≠ '\x27' := by simpa [hash] using hc
    exact ⟨x, by rw [List.cons_append, maskIndentFrom_code_cons _ plain, hx]; rfl⟩

/-- The text is a line of its own. -/
def Unbroken (cs : Text) : Prop := cutLines .code 0 cs = [cs]

/-- The line stands in the source as one line, perhaps in front of a carriage return, and its mask
stands in the mask of the source. -/
def LiesIn (source : Text) (line : LogicalLine) : Prop :=
  ∃ ending, (ending = [] ∨ ending = ['\r']) ∧ Unbroken (line.text ++ ending) ∧
    (∃ front back, source = front ++ line.text ++ back ∧ Text.size front = line.start) ∧
    ∃ front back, maskIndent source = front ++ maskIndent line.text ++ back ∧
      Text.size front = line.start

theorem ofRaw_split (start : Nat) (raw : Text) : ∃ ending, (ending = [] ∨ ending = ['\r']) ∧
    (LogicalLine.ofRaw start raw).text ++ ending = raw := by
  unfold LogicalLine.ofRaw
  split
  next h =>
    obtain ⟨stem, rfl⟩ := List.getLast?_eq_some_iff.mp h
    exact ⟨['\r'], .inr rfl, by simp⟩
  next => exact ⟨[], .inl rfl, by simp⟩

theorem LiesIn.ofRaw {source raw : Text} (pre post : Text) (hs : source = pre ++ raw ++ post)
    (single : Unbroken raw)
    (hm : ∃ front back, maskIndent source = front ++ maskIndent raw ++ back ∧
      Text.size front = Text.size pre) :
    LiesIn source (LogicalLine.ofRaw (Text.size pre) raw) := by
  obtain ⟨ending, he, hraw⟩ := ofRaw_split (Text.size pre) raw
  generalize hl : LogicalLine.ofRaw (Text.size pre) raw = line at hraw
  have start : line.start = Text.size pre := by rw [← hl]; rfl
  obtain ⟨front, back, hf, size⟩ := hm
  refine ⟨ending, he, hraw ▸ single, ⟨pre, ending ++ post, ?_, start.symm⟩, ?_⟩
  · rw [hs, ← hraw]
    simp
  · have cut : ∃ rest, maskIndent raw = maskIndent line.text ++ rest := by
      rw [← hraw]
      rcases he with rfl | rfl
      · exact ⟨[], by simp⟩
      · obtain ⟨x, hx⟩ := maskIndentFrom_carriage .code line.text trivial
        exact ⟨[x], hx⟩
    obtain ⟨rest, hr⟩ := cut
    refine ⟨front, rest ++ back, ?_, by rw [size, start]⟩
    rw [hf, hr]
    simp

theorem placeLines_lie {source cs : Text} (pre : Text) (hs : source = pre ++ cs)
    (hm : ∃ front, maskIndent source = front ++ maskIndent cs ∧ Text.size front = Text.size pre) :
    ∀ line ∈ placeLines (Text.size pre) (cutLines .code 0 cs), LiesIn source line := by
  generalize hn : cs.length = n
  induction n using Nat.strongRecOn generalizing pre cs with
  | ind n ih =>
    obtain ⟨front, hf, size⟩ := hm
    obtain ⟨raw, single, rest⟩ := cutLines_first .code 0 cs
    intro line hl
    rcases rest with rfl | ⟨rest, rfl, cut, paint⟩
    · rw [single] at hl
      obtain rfl : line = LogicalLine.ofRaw (Text.size pre) cs := by simpa [placeLines] using hl
      exact LiesIn.ofRaw pre [] (by simpa using hs) single ⟨front, [], by simpa using hf, size⟩
    · change maskIndent _ = maskIndent raw ++ '\n' :: maskIndent rest at paint
      rw [paint] at hf
      rw [cut] at hl
      rcases List.mem_cons.mp hl with rfl | hl
      · exact LiesIn.ofRaw pre ('\n' :: rest) (by simpa using hs) single
          ⟨front, _, by simpa using hf, size⟩
      · have next : Text.size (pre ++ raw ++ ['\n']) = Text.size pre + Text.size raw + 1 := by
          simp only [Text.size_append]
          rfl
        refine ih rest.length ?_ (pre ++ raw ++ ['\n']) ?_ ?_ rfl line ?_
        · rw [← hn]
          simp
          omega
        · rw [hs]
          simp
        · refine ⟨front ++ maskIndent raw ++ ['\n'], by rw [hf]; simp, ?_⟩
          rw [Text.size_append, Text.size_append, Text.size_append, Text.size_append, size,
            (maskIndent_masks raw).size_eq]
        · rwa [next]

theorem mem_placeLines_dropLast {offset : Nat} {raws : List Text} {line : LogicalLine}
    (h : line ∈ placeLines offset raws.dropLast) : line ∈ placeLines offset raws := by
  induction raws generalizing offset with
  | nil => exact h
  | cons raw raws ih =>
    cases raws with
    | nil => simp [placeLines] at h
    | cons next raws =>
      rcases List.mem_cons.mp h with rfl | h
      · exact List.mem_cons_self
      · exact List.mem_cons_of_mem _ (ih h)

theorem logicalLines_lie {source : Text} {line : LogicalLine} (h : line ∈ logicalLines source) :
    LiesIn source line := by
  have all : ∀ line ∈ placeLines 0 (cutLines .code 0 source), LiesIn source line :=
    placeLines_lie [] rfl ⟨[], rfl, rfl⟩
  unfold logicalLines lineTexts at h
  dsimp only at h
  split at h
  next => exact all line (mem_placeLines_dropLast h)
  next => exact all line h

theorem ofRaw_stop_le (start : Nat) (raw : Text) :
    (LogicalLine.ofRaw start raw).stop ≤ start + Text.size raw := by
  obtain ⟨ending, -, hraw⟩ := ofRaw_split start raw
  have size := congrArg Text.size hraw
  rw [Text.size_append] at size
  have start : (LogicalLine.ofRaw start raw).start = start := rfl
  rw [LogicalLine.stop, start]
  omega

theorem le_start_of_mem_placeLines {offset : Nat} {raws : List Text} {line : LogicalLine}
    (h : line ∈ placeLines offset raws) : offset ≤ line.start := by
  induction raws generalizing offset with
  | nil => simp [placeLines] at h
  | cons raw raws ih =>
    rcases List.mem_cons.mp h with rfl | h
    · exact Nat.le_refl _
    · have le := ih h
      omega

/-- Between two lines there is at least the newline that ends the first. -/
theorem logicalLines_apart (source : Text) :
    (logicalLines source).Pairwise fun a b => a.stop < b.start := by
  have place (raws : List Text) (offset : Nat) :
      (placeLines offset raws).Pairwise fun a b => a.stop < b.start := by
    induction raws generalizing offset with
    | nil => exact .nil
    | cons raw raws ih =>
      refine List.pairwise_cons.mpr ⟨fun line hl => ?_, ih _⟩
      have stop := ofRaw_stop_le offset raw
      have start := le_start_of_mem_placeLines hl
      omega
  exact place _ 0

theorem logicalLines_pairwise (source : Text) :
    (logicalLines source).Pairwise fun a b => a.stop ≤ b.start :=
  (logicalLines_apart source).imp Nat.le_of_lt

section

variable {source : Text} {line : LogicalLine}

theorem LiesIn.slice_text (h : LiesIn source line) :
    Text.slice? source line.start line.stop = some line.text := by
  obtain ⟨-, -, -, ⟨front, back, hs, hf⟩, -⟩ := h
  exact Text.slice?_eq_some_iff.mpr ⟨front, back, hs, hf, rfl⟩

theorem LiesIn.slice_content (h : LiesIn source line) :
    Text.slice? source line.contentStart line.stop = some line.content := by
  obtain ⟨ending, -, -, ⟨front, back, hs, hf⟩, -⟩ := h
  obtain ⟨lead, hl, size, -⟩ := Text.trimStart_split line.text
  refine Text.slice?_eq_some_iff.mpr ⟨front ++ lead, back, ?_, ?_, ?_⟩
  · have split : line.text = lead ++ line.content := hl
    rw [hs, split]
    simp
  · rw [Text.size_append, hf, size]
    rfl
  · have total := congrArg Text.size hl
    rw [Text.size_append, size] at total
    rw [LogicalLine.contentStart, LogicalLine.stop, LogicalLine.content]
    omega

/-- The mask of a line is the mask of its text alone. -/
theorem LiesIn.slice_mask (h : LiesIn source line) :
    Text.slice? (maskIndent source) line.contentStart line.stop =
      some (maskIndent line.content) := by
  obtain ⟨ending, -, -, -, ⟨front, back, hs, hf⟩⟩ := h
  obtain ⟨lead, hl, size, blank, -⟩ := Text.trimStart_split line.text
  have paint : maskIndent line.text = lead ++ maskIndent line.content := by
    have split : line.text = lead ++ line.content := hl
    rw [maskIndent, split]
    exact maskIndentFrom_code_append _ fun c hc => blank_not_mem_signals (blank c hc)
  refine Text.slice?_eq_some_iff.mpr ⟨front ++ lead, back, ?_, ?_, ?_⟩
  · rw [hs, paint]
    simp
  · rw [Text.size_append, hf, size]
    rfl
  · have total := congrArg Text.size hl
    rw [Text.size_append, size] at total
    rw [(maskIndent_masks line.content).size_eq, LogicalLine.contentStart, LogicalLine.stop,
      LogicalLine.content]
    omega

end

theorem cutLines_ne_nil (st : LineState) (depth : Int32) (cs : Text) :
    cutLines st depth cs ≠ [] := by
  obtain ⟨line, single, rfl | ⟨rest, -, cut, -⟩⟩ := cutLines_first st depth cs
  · simp [single]
  · simp [cut]

theorem consLine_eq_singleton {w t : Text} {lines : List Text} (full : lines ≠ [])
    (h : consLine w lines = [w ++ t]) : lines = [t] := by
  cases lines with
  | nil => exact absurd rfl full
  | cons line lines => simpa [consLine] using h

theorem cutLines_code_cons {c : Char} (calm : c ∉ signals) (cs : Text) :
    cutLines .code 0 (c :: cs) =
      if c = '\n' then [] :: cutLines .code 0 cs else consLine [c] (cutLines .code 0 cs) := by
  simp only [signals, List.mem_cons, List.not_mem_nil, or_false, not_or] at calm
  obtain ⟨hash, double, single, o₁, o₂, o₃, c₁, c₂, c₃, back⟩ := calm
  rw [cutLines.eq_10 _ _ _ (fun _ h => absurd h double) (fun _ h => absurd h single)
    (fun _ h => absurd h back)]
  simp [hash, double, single, o₁, o₂, o₃, c₁, c₂, c₃]

/-- A line stays one without its first character, which is no newline. -/
theorem Unbroken.tail {c : Char} {cs : Text} (calm : c ∉ signals) (h : Unbroken (c :: cs)) :
    c ≠ '\n' ∧ Unbroken cs := by
  rw [Unbroken, cutLines_code_cons calm] at h
  split at h
  next => simp at h
  next ne => exact ⟨ne, consLine_eq_singleton (cutLines_ne_nil _ _ _) h⟩

theorem Unbroken.append {w cs : Text} (calm : ∀ c ∈ w, c ∉ signals) (h : Unbroken (w ++ cs)) :
    Unbroken cs := by
  induction w with
  | nil => exact h
  | cons c w ih => exact ih (fun x hx => calm x (by simp [hx])) (h.tail (calm c (by simp))).2

theorem newline_not_mem_comment {cs : Text} (h : cutLines .comment 0 cs = [cs]) : '\n' ∉ cs := by
  induction cs with
  | nil => simp
  | cons c cs ih =>
    rw [cutLines] at h
    split at h
    next => simp at h
    next ne =>
      have rest := ih (consLine_eq_singleton (cutLines_ne_nil _ _ _) h)
      simpa [Ne.symm ne] using rest

theorem Unbroken.comment {cs : Text} (h : Unbroken ('#' :: cs)) : '\n' ∉ cs := by
  have cut : cutLines .code 0 ('#' :: cs) = consLine ['#'] (cutLines .comment 0 cs) := by
    simp [cutLines]
  rw [Unbroken, cut] at h
  exact newline_not_mem_comment (consLine_eq_singleton (cutLines_ne_nil _ _ _) h)

theorem maskIndentFrom_comment {cs : Text} (h : '\n' ∉ cs) :
    maskIndentFrom .comment cs = List.replicate (Text.size cs) ' ' := by
  induction cs with
  | nil => rfl
  | cons c cs ih =>
    obtain ⟨ne, rest⟩ : '\n' ≠ c ∧ '\n' ∉ cs := by simpa using h
    rw [maskIndentFrom, if_neg (Ne.symm ne), ih rest, blank, if_neg (Ne.symm ne), Text.size_cons,
      List.replicate_append_replicate]

theorem maskIndentFrom_code_head {c : Char} (cs : Text) (h : c ≠ '#') :
    ∃ r, maskIndentFrom .code (c :: cs) = c :: r := by
  by_cases triple : OpensTriple (c :: cs)
  · obtain ⟨quote, more, hm, rfl | rfl⟩ := triple
    all_goals
      obtain ⟨rfl, rfl⟩ := List.cons.inj hm
      simp [maskIndentFrom]
  · rw [maskIndentFrom.eq_9 c cs (fun more hc hcs => triple ⟨c, more, by rw [hcs, hc], .inl hc⟩)
      (fun more hc hcs => triple ⟨c, more, by rw [hcs, hc], .inr hc⟩), if_neg h]
    split
    · exact ⟨_, rfl⟩
    · exact ⟨_, rfl⟩

theorem LiesIn.unbroken {source : Text} {line : LogicalLine} (h : LiesIn source line) :
    ∃ ending, Unbroken (line.content ++ ending) := by
  obtain ⟨ending, -, single, -⟩ := h
  obtain ⟨lead, hl, -, blank, -⟩ := Text.trimStart_split line.text
  refine ⟨ending, Unbroken.append (w := lead) ?_ ?_⟩
  · exact fun c hc => blank_not_mem_signals (blank c hc)
  · have split : line.text = lead ++ line.content := hl
    rwa [split, List.append_assoc] at single

/-- Where the mask of a line shows calm characters, the line has them, too, up to a comment that
takes the rest of the line. -/
theorem Unbroken.of_mask {w m cs ending : Text} (h : Unbroken (cs ++ ending))
    (calm : ∀ c ∈ w, c ∉ signals) (hm : maskIndentFrom .code cs = w ++ m) :
    (∃ rest, cs = w ++ rest ∧ maskIndentFrom .code rest = m ∧ Unbroken (rest ++ ending)) ∨
      ∃ w₁ w₂ comment, cs = w₁ ++ '#' :: comment ∧ w = w₁ ++ ' ' :: w₂ ∧ '\n' ∉ comment ∧
        ∀ c ∈ w₂ ++ m, c = ' ' := by
  induction w generalizing cs with
  | nil => exact .inl ⟨cs, rfl, hm, h⟩
  | cons x w ih =>
    cases cs with
    | nil => simp [maskIndentFrom] at hm
    | cons c cs =>
      by_cases hash : c = '#'
      · subst hash
        have newline : '\n' ∉ cs := fun mem => h.comment (by simp [mem])
        have paint : maskIndentFrom .code ('#' :: cs) = ' ' :: List.replicate (Text.size cs) ' ' := by
          rw [← maskIndentFrom_comment newline]
          simp [maskIndentFrom]
        obtain ⟨rfl, spaces⟩ : ' ' = x ∧ List.replicate (Text.size cs) ' ' = w ++ m := by
          simpa [paint] using hm
        refine .inr ⟨[], w, cs, rfl, rfl, newline, fun c hc => ?_⟩
        rw [← spaces] at hc
        exact (List.mem_replicate.mp hc).2
      · obtain ⟨r, hr⟩ := maskIndentFrom_code_head cs hash
        obtain ⟨rfl, hr'⟩ : c = x ∧ r = w ++ m := by simpa [hr] using hm
        have quiet : c ∉ signals := calm c (by simp)
        have plain : c ≠ '#' ∧ c ≠ '\x22' ∧ c ≠ '\x27' := by
          refine ⟨hash, ?_, ?_⟩ <;> rintro rfl <;> exact quiet (by decide)
        rw [maskIndentFrom_code_cons cs plain] at hm
        rcases ih (h.tail quiet).2 (fun y hy => calm y (by simp [hy])) (by simpa using hm) with
          ⟨rest, rfl, hrest, one⟩ | ⟨w₁, w₂, comment, rfl, rfl, newline, spaces⟩
        · exact .inl ⟨rest, rfl, hrest, one⟩
        · exact .inr ⟨c :: w₁, w₂, comment, rfl, rfl, newline, spaces⟩

end SourceTree.Scan
