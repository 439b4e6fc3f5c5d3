import SourceTree.Proofs.Scan.Mask

/-!
Sources without comments. Blanking the comments of a source does not change its mask: what was blank
in the mask because it stood in a comment is then blank because it is a space of the code.
-/

namespace SourceTree.Scan

/-- The state behind a character of the code that begins no comment and no text block. -/
def BraceState.behind (c : Char) : BraceState :=
  if c = '\x22' ∨ c = '\x27' then .quoted c else if c = '\x60' then .raw else .code

/-- Blanks the comments of a source and leaves its code and its literals as they are. -/
def uncommentFrom : BraceState → Text → Text
  | _, [] => []
  | .code, '/' :: '/' :: cs => ' ' :: ' ' :: uncommentFrom .lineComment cs
  | .code, '/' :: '*' :: cs => ' ' :: ' ' :: uncommentFrom .blockComment cs
  | .code, '\x22' :: '\x22' :: '\x22' :: cs =>
    '\x22' :: '\x22' :: '\x22' :: uncommentFrom .textBlock cs
  | .code, c :: cs => c :: uncommentFrom (.behind c) cs
  | .lineComment, c :: cs => blank c ++ uncommentFrom (if c = '\n' then .code else .lineComment) cs
  | .blockComment, '*' :: '/' :: cs => ' ' :: ' ' :: uncommentFrom .code cs
  | .blockComment, c :: cs => blank c ++ uncommentFrom .blockComment cs
  | .quoted _, '\\' :: '\n' :: cs => '\\' :: '\n' :: uncommentFrom .code cs
  | .quoted quote, '\\' :: escaped :: cs => '\\' :: escaped :: uncommentFrom (.quoted quote) cs
  | .quoted quote, c :: cs =>
    c :: uncommentFrom (if c = quote ∨ c = '\n' then .code else .quoted quote) cs
  | .textBlock, '\x22' :: '\x22' :: '\x22' :: cs =>
    '\x22' :: '\x22' :: '\x22' :: uncommentFrom .code cs
  | .textBlock, '\\' :: escaped :: cs => '\\' :: escaped :: uncommentFrom .textBlock cs
  | .textBlock, c :: cs => c :: uncommentFrom .textBlock cs
  | .raw, c :: cs => c :: uncommentFrom (if c = '\x60' then .code else .raw) cs

/-- The source with its comments replaced by spaces. -/
def uncomment (source : Text) : Text := uncommentFrom .code source

/-- The state in which the blanked text is read: a comment is code by then. -/
def BraceState.blanked : BraceState → BraceState
  | .lineComment | .blockComment => .code
  | st => st

theorem BraceState.blanked_behind (c : Char) : (behind c).blanked = behind c := by
  unfold behind
  split
  next => rfl
  next => split <;> rfl

/-- Up to its first space the first text is the beginning of the second. -/
def Leads (u cs : Text) : Prop := ∀ w, ' ' ∉ w → w <+: u → w <+: cs

namespace Leads

variable {u cs : Text}

theorem nil (cs : Text) : Leads [] cs := by
  intro w _ hw
  rw [List.prefix_nil.mp hw]
  exact List.nil_prefix

theorem cons (c : Char) (h : Leads u cs) : Leads (c :: u) (c :: cs) := by
  intro w solid hw
  cases w with
  | nil => exact List.nil_prefix
  | cons x w =>
    obtain ⟨rfl, tail⟩ := List.cons_prefix_cons.mp hw
    have solidTail : ' ' ∉ w := fun hx => solid (List.mem_cons_of_mem _ hx)
    exact List.cons_prefix_cons.mpr ⟨rfl, h w solidTail tail⟩

theorem space (u cs : Text) : Leads (' ' :: u) cs := by
  intro w solid hw
  cases w with
  | nil => exact List.nil_prefix
  | cons x w =>
    obtain ⟨rfl, -⟩ := List.cons_prefix_cons.mp hw
    simp at solid

theorem blank (c : Char) (h : Leads u cs) : Leads (Scan.blank c ++ u) (c :: cs) := by
  unfold Scan.blank
  split
  next newline =>
    rw [newline]
    exact h.cons '\n'
  next =>
    obtain ⟨k, hk⟩ : ∃ k, c.utf8Size = k + 1 := ⟨c.utf8Size - 1, by have := c.utf8Size_pos; omega⟩
    rw [hk, List.replicate_succ, List.cons_append]
    exact space _ _

end Leads

/-- Nothing but comments is changed. -/
theorem uncommentFrom_leads (st : BraceState) (cs : Text) : Leads (uncommentFrom st cs) cs := by
  fun_induction uncommentFrom st cs with
  | case1 => exact .nil []
  | case2 | case3 | case7 => exact .space _ _
  | case4 cs ih | case12 cs ih => exact ((ih.cons _).cons _).cons _
  | case6 c cs ih | case8 c cs _ ih => exact ih.blank c
  | case9 quote cs ih | case10 quote escaped cs _ ih | case13 escaped cs ih =>
    exact (ih.cons _).cons _
  | case5 c cs _ _ _ ih | case11 quote c cs _ _ ih | case14 c cs _ _ ih | case15 c cs ih =>
    exact ih.cons c

/-- No comment and no text block begins with the text. -/
def Plain (cs : Text) : Prop :=
  ∀ w ∈ [['/', '/'], ['/', '*'], ['\x22', '\x22', '\x22']], ¬w <+: cs

theorem Plain.of_leads {u cs : Text} (plain : Plain cs) (h : Leads u cs) : Plain u := by
  intro w hw opens
  refine plain w hw (h w ?_ opens)
  simp only [List.mem_cons, List.not_mem_nil, or_false] at hw
  rcases hw with rfl | rfl | rfl <;> decide

theorem plain_of_unmatched {c : Char} {cs : Text} (line : ∀ r, c = '/' → cs = '/' :: r → False)
    (block : ∀ r, c = '/' → cs = '*' :: r → False)
    (quotes : ∀ r, c = '\x22' → cs = '\x22' :: '\x22' :: r → False) : Plain (c :: cs) := by
  rintro w hw ⟨r, hr⟩
  simp only [List.mem_cons, List.not_mem_nil, or_false] at hw
  rcases hw with rfl | rfl | rfl
  · obtain ⟨rfl, rfl⟩ := List.cons.inj hr
    exact line r rfl rfl
  · obtain ⟨rfl, rfl⟩ := List.cons.inj hr
    exact block r rfl rfl
  · obtain ⟨rfl, rfl⟩ := List.cons.inj hr
    exact quotes r rfl rfl

section Step

variable {c : Char} {cs : Text}

theorem maskBraceFrom_plain (plain : Plain (c :: cs)) :
    maskBraceFrom .code (c :: cs) = c :: maskBraceFrom (.behind c) cs := by
  have line (r : Text) (hc : c = '/') : cs ≠ '/' :: r := by
    rintro rfl
    exact plain ['/', '/'] (by simp) ⟨r, by rw [hc]; rfl⟩
  have block (r : Text) (hc : c = '/') : cs ≠ '*' :: r := by
    rintro rfl
    exact plain ['/', '*'] (by simp) ⟨r, by rw [hc]; rfl⟩
  have quotes (r : Text) (hc : c = '\x22') : cs ≠ '\x22' :: '\x22' :: r := by
    rintro rfl
    exact plain ['\x22', '\x22', '\x22'] (by simp) ⟨r, by rw [hc]; rfl⟩
  rw [maskBraceFrom, BraceState.behind]
  · split
    next => rfl
    next => split <;> rfl
  · exact line
  · exact block
  · exact quotes

theorem maskBraceFrom_blank (c : Char) (cs : Text) :
    maskBraceFrom .code (blank c ++ cs) = blank c ++ maskBraceFrom .code cs := by
  have spaces (k : Nat) : maskBraceFrom .code (List.replicate k ' ' ++ cs) =
      List.replicate k ' ' ++ maskBraceFrom .code cs := by
    induction k with
    | zero => rfl
    | succ k ih => rw [List.replicate_succ, List.cons_append, List.cons_append, ← ih]; rfl
  unfold blank
  split
  next => rfl
  next => exact spaces c.utf8Size

theorem maskBraceFrom_quoted {quote : Char} (cs : Text) (hc : c ≠ '\\') :
    maskBraceFrom (.quoted quote) (c :: cs) =
      if c = quote ∨ c = '\n' then c :: maskBraceFrom .code cs
      else blank c ++ maskBraceFrom (.quoted quote) cs := by
  rw [maskBraceFrom, if_neg hc]
  · by_cases closes : c = quote
    · rw [if_pos closes, if_pos (.inl closes)]
    · by_cases newline : c = '\n'
      · rw [if_neg closes, if_pos newline, if_pos (.inr newline), newline]
      · rw [if_neg closes, if_neg newline, if_neg (by simp [closes, newline])]
  · intro r h
    exact absurd h hc
  · intro escaped r h
    exact absurd h hc

theorem maskBraceFrom_textBlock (hc : c ≠ '\\')
    (inside : ¬['\x22', '\x22', '\x22'] <+: c :: cs) :
    maskBraceFrom .textBlock (c :: cs) = blank c ++ maskBraceFrom .textBlock cs := by
  rw [maskBraceFrom]
  · rintro r rfl rfl
    exact inside ⟨r, rfl⟩
  · intro escaped r h
    exact absurd h hc

end Step

theorem maskBraceFrom_uncommentFrom (st : BraceState) (cs : Text) :
    maskBraceFrom st.blanked (uncommentFrom st cs) = maskBraceFrom st cs := by
  -- A backslash that escapes nothing is the last character: nothing behind it is uncommented.
  have last {c : Char} {cs : Text} (escape : c = '\\')
      (lone : ∀ escaped r, c = '\\' → cs = escaped :: r → False) : cs = [] := by
    cases cs with
    | nil => rfl
    | cons escaped r => exact (lone escaped r escape rfl).elim
  fun_induction uncommentFrom st cs with
  | case1 st => cases st <;> rfl
  | case2 cs ih | case3 cs ih | case7 cs ih => exact congrArg (' ' :: ' ' :: ·) ih
  | case4 cs ih | case12 cs ih => exact congrArg ('\x22' :: '\x22' :: '\x22' :: ·) ih
  | case5 c cs line block quotes ih =>
    have plain := plain_of_unmatched line block quotes
    have plain' := plain.of_leads ((uncommentFrom_leads (.behind c) cs).cons c)
    rw [BraceState.blanked_behind] at ih
    simp only [BraceState.blanked]
    rw [maskBraceFrom_plain plain, maskBraceFrom_plain plain', ih]
  | case6 c cs ih =>
    have code : (if c = '\n' then BraceState.code else .lineComment).blanked = .code := by
      split <;> rfl
    rw [code] at ih
    simp only [BraceState.blanked]
    rw [maskBraceFrom_blank, ih, maskBraceFrom]
  | case8 c cs unclosed ih =>
    simp only [BraceState.blanked] at ih ⊢
    rw [maskBraceFrom_blank, ih, maskBraceFrom]
    exact unclosed
  | case9 quote cs ih => exact congrArg (' ' :: '\n' :: ·) ih
  | case10 quote escaped cs _ ih =>
    simp only [BraceState.blanked] at ih ⊢
    simp [maskBraceFrom, ih]
  | case11 quote c cs _ lone ih =>
    simp only [BraceState.blanked]
    by_cases escape : c = '\\'
    · rw [last escape lone, uncommentFrom]
    · rw [maskBraceFrom_quoted _ escape, maskBraceFrom_quoted _ escape]
      by_cases closes : c = quote ∨ c = '\n'
      · simp only [closes, if_true, BraceState.blanked] at ih ⊢
        rw [ih]
      · simp only [closes, if_false, BraceState.blanked] at ih ⊢
        rw [ih]
  | case13 escaped cs ih =>
    simp only [BraceState.blanked] at ih ⊢
    simp [maskBraceFrom, ih]
  | case14 c cs inside lone ih =>
    simp only [BraceState.blanked] at ih ⊢
    by_cases escape : c = '\\'
    · rw [last escape lone, uncommentFrom]
    · have opens : ¬['\x22', '\x22', '\x22'] <+: c :: cs := by
        rintro ⟨r, hr⟩
        obtain ⟨rfl, rfl⟩ := List.cons.inj hr
        exact inside r rfl rfl
      have opens' : ¬['\x22', '\x22', '\x22'] <+: c :: uncommentFrom .textBlock cs :=
        fun h => opens ((uncommentFrom_leads .textBlock cs).cons c _ (by decide) h)
      rw [maskBraceFrom_textBlock escape opens, maskBraceFrom_textBlock escape opens', ih]
  | case15 c cs ih =>
    simp only [BraceState.blanked]
    by_cases closes : c = '\x60'
    · simp only [closes, if_true, BraceState.blanked] at ih ⊢
      rw [maskBraceFrom, maskBraceFrom, if_pos rfl, if_pos rfl, ih]
    · simp only [closes, if_false, BraceState.blanked] at ih ⊢
      rw [maskBraceFrom, maskBraceFrom, if_neg closes, if_neg closes, ih]

/-- Comments leave no trace in the mask. -/
theorem maskBrace_uncomment (source : Text) : maskBrace (uncomment source) = maskBrace source :=
  maskBraceFrom_uncommentFrom .code source

end SourceTree.Scan
