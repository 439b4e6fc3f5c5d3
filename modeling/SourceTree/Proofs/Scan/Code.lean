import SourceTree.Proofs.Scan.Uncomment

/-!
What the mask of a language with braces says about the scanner. It was in code at every character of
the mask that is neither blank nor a quote, and from code on the source is the same as its mask up to
the next slash.
-/

namespace SourceTree.Scan

open Text (Opens)

variable {st : BraceState} {cs source front back m w t : Text} {c : Char} {start stop : Nat}

/-- What a mask shows of comments and literals: blanks and quotes. -/
def Faint (c : Char) : Prop := c = ' ' ∨ c = '\n' ∨ c = '\x22' ∨ c = '\x27' ∨ c = '\x60'

instance : DecidablePred Faint := fun _ => inferInstanceAs (Decidable (_ ∨ _))

theorem faint_of_quote (h : c = '\x22' ∨ c = '\x27') : Faint c :=
  .inr (.inr (h.imp_right .inl))

/-- The scanner is in code at the place behind as much text as `front`, where the rest of the mask
is `m`. -/
def InCode (cs front m : Text) : Prop :=
  ∃ front' rest, cs = front' ++ rest ∧ Text.size front' = Text.size front ∧
    maskBraceFrom .code rest = m

/-- The place cannot lie at a character that the mask shows as a blank or a quote. -/
theorem InCode.skip {x y : Char} (h : y :: m = front ++ c :: back) (hc : ¬Faint c) (faint : Faint y)
    (size : x.utf8Size = y.utf8Size)
    (later : ∀ {front}, m = front ++ c :: back → InCode cs front (c :: back)) :
    InCode (x :: cs) front (c :: back) := by
  cases front with
  | nil =>
    obtain ⟨rfl, -⟩ := List.cons.inj h
    exact absurd faint hc
  | cons z front =>
    obtain ⟨rfl, hm⟩ := List.cons.inj h
    obtain ⟨left, rest, rfl, same, code⟩ := later hm
    exact ⟨x :: left, rest, rfl, by rw [Text.size_cons, Text.size_cons, same, size], code⟩

theorem InCode.blanked {x : Char} (h : blank x ++ m = front ++ c :: back) (hc : ¬Faint c)
    (later : ∀ {front}, m = front ++ c :: back → InCode cs front (c :: back)) :
    InCode (x :: cs) front (c :: back) := by
  have behind : ∃ front', front = blank x ++ front' ∧ m = front' ++ c :: back := by
    rcases List.append_eq_append_iff.mp h with ⟨more, hf, hm⟩ | ⟨more, hb, hm⟩
    · exact ⟨more, hf, hm⟩
    · cases more with
      | nil => exact ⟨[], by simpa using hb.symm, hm.symm⟩
      | cons y more =>
        obtain ⟨rfl, -⟩ := List.cons.inj hm
        cases mem_blank (show c ∈ blank x by simp [hb]) with
        | inl space => exact absurd (.inl space) hc
        | inr newline => exact absurd (.inr (.inl newline.2)) hc
  obtain ⟨front', rfl, hm⟩ := behind
  obtain ⟨left, rest, rfl, same, code⟩ := later hm
  exact ⟨x :: left, rest, rfl, by rw [Text.size_cons, Text.size_append, same, size_blank], code⟩

/-- Whatever the mask shows apart from blanks and quotes was read as code. -/
theorem inCode_of_not_faint (h : maskBraceFrom st cs = front ++ c :: back) (proper : st.Proper)
    (hc : ¬Faint c) : InCode cs front (c :: back) := by
  fun_induction maskBraceFrom st cs generalizing front with
  | case1 => simp at h
  | case2 cs ih | case3 cs ih =>
    apply InCode.skip h hc (by decide) (by decide)
    exact fun h => InCode.skip h hc (by decide) (by decide) fun h => ih h trivial
  | case4 cs ih =>
    apply InCode.skip h hc (by decide) rfl
    intro _ h
    apply InCode.skip h hc (by decide) rfl
    exact fun h => InCode.skip h hc (by decide) rfl fun h => ih h trivial
  | case5 q cs _ _ _ quote ih =>
    exact InCode.skip h hc (faint_of_quote quote) rfl fun h => ih h quote
  | case6 cs _ _ _ _ ih => exact InCode.skip h hc (by decide) rfl fun h => ih h trivial
  | case7 x cs line block quotes single tick ih =>
    cases front with
    | nil =>
      refine ⟨[], x :: cs, rfl, rfl, ?_⟩
      have plain := maskBraceFrom_plain (plain_of_unmatched line block quotes)
      rw [plain, BraceState.behind, if_neg single, if_neg tick]
      exact h
    | cons y front =>
      obtain ⟨rfl, hm⟩ := List.cons.inj h
      obtain ⟨left, rest, rfl, size, code⟩ := ih hm trivial
      exact ⟨x :: left, rest, rfl, by rw [Text.size_cons, Text.size_cons, size], code⟩
  | case8 x cs ih =>
    refine InCode.blanked h hc fun h => ih h ?_
    split <;> trivial
  | case9 cs ih =>
    apply InCode.skip h hc (by decide) (by decide)
    exact fun h => InCode.skip h hc (by decide) (by decide) fun h => ih h trivial
  | case10 x cs _ ih => exact InCode.blanked h hc fun h => ih h trivial
  | case11 quote cs ih =>
    apply InCode.skip h hc (by decide) (by decide)
    exact fun h => InCode.skip h hc (by decide) rfl fun h => ih h trivial
  | case12 quote escaped cs _ ih =>
    apply InCode.skip h hc (by decide) (by decide)
    exact fun h => InCode.blanked h hc fun h => ih h proper
  | case13 quote cs _ _ ih => exact InCode.skip h hc (by decide) (by decide) fun h => ih h proper
  | case14 q cs _ _ _ ih => exact InCode.skip h hc (faint_of_quote proper) rfl fun h => ih h trivial
  | case15 quote cs _ _ _ _ ih => exact InCode.skip h hc (by decide) rfl fun h => ih h trivial
  | case16 quote x cs _ _ _ _ _ ih => exact InCode.blanked h hc fun h => ih h proper
  | case17 cs ih =>
    apply InCode.skip h hc (by decide) rfl
    intro _ h
    apply InCode.skip h hc (by decide) rfl
    exact fun h => InCode.skip h hc (by decide) rfl fun h => ih h trivial
  | case18 escaped cs ih =>
    apply InCode.skip h hc (by decide) (by decide)
    exact fun h => InCode.blanked h hc fun h => ih h trivial
  | case19 x cs _ _ ih | case21 x cs _ ih => exact InCode.blanked h hc fun h => ih h trivial
  | case20 cs ih => exact InCode.skip h hc (by decide) rfl fun h => ih h trivial

/-- In code a character stands in the mask as it is, and the scanner stays in code behind it unless it
is a slash or a quote. -/
theorem maskBraceFrom_code_cons (cs : Text) (slash : c ≠ '/') :
    ∃ m, maskBraceFrom .code (c :: cs) = c :: m ∧
      (c ≠ '\x22' ∧ c ≠ '\x27' ∧ c ≠ '\x60' → m = maskBraceFrom .code cs) := by
  by_cases quotes : ['\x22', '\x22', '\x22'] <+: c :: cs
  · obtain ⟨cs', same⟩ := quotes
    obtain ⟨rfl, rfl⟩ := List.cons.inj same
    exact ⟨_, rfl, fun other => absurd rfl other.1⟩
  · have plain : Plain (c :: cs) := by
      apply plain_of_unmatched
      · exact fun _ hc _ => slash hc
      · exact fun _ hc _ => slash hc
      · rintro r rfl rfl
        exact quotes ⟨r, rfl⟩
    refine ⟨_, maskBraceFrom_plain plain, fun other => ?_⟩
    simp [BraceState.behind, other]

theorem maskBraceFrom_slash (cs : Text) :
    Opens (fun c => c = ' ' ∨ c = '/') (maskBraceFrom .code ('/' :: cs)) := by
  by_cases plain : Plain ('/' :: cs)
  · rw [maskBraceFrom_plain plain]
    exact ⟨'/', _, rfl, .inr rfl⟩
  · have comment : ∃ c r, cs = c :: r ∧ (c = '/' ∨ c = '*') := by
      apply Classical.byContradiction
      intro other
      apply plain
      apply plain_of_unmatched
      · exact fun r _ hc => other ⟨'/', r, hc, .inl rfl⟩
      · exact fun r _ hc => other ⟨'*', r, hc, .inr rfl⟩
      · intro _ hc
        cases hc
    obtain ⟨c, r, rfl, rfl | rfl⟩ := comment
    · exact ⟨' ', _, rfl, .inl rfl⟩
    · exact ⟨' ', _, rfl, .inl rfl⟩

/-- From code on, as long as the mask shows no quote, the source is the same as its mask up to the
first slash. -/
theorem code_until_slash {rest : Text} (h : maskBraceFrom .code (t ++ rest) = w ++ back)
    (size : Text.size t = Text.size w) (quotes : ∀ c ∈ w, c ≠ '\x22' ∧ c ≠ '\x27' ∧ c ≠ '\x60') :
    t = w ∨ ∃ a b m, t = a ++ '/' :: b ∧ w = a ++ m ∧ Opens (fun c => c = ' ' ∨ c = '/') m := by
  induction t generalizing w with
  | nil => exact .inl (Text.size_eq_zero size.symm).symm
  | cons x t ih =>
    have full : w ≠ [] := by
      rintro rfl
      have width := x.utf8Size_pos
      rw [Text.size_cons, Text.size_nil] at size
      omega
    obtain ⟨y, w, rfl⟩ := List.exists_cons_of_ne_nil full
    by_cases slash : x = '/'
    · subst slash
      obtain ⟨c, r, hm, hc⟩ := maskBraceFrom_slash (t ++ rest)
      obtain ⟨rfl, -⟩ := List.cons.inj (h.symm.trans hm)
      exact .inr ⟨[], t, y :: w, rfl, rfl, y, w, rfl, hc⟩
    · obtain ⟨m, hm, stays⟩ := maskBraceFrom_code_cons (t ++ rest) slash
      obtain ⟨rfl, hw⟩ := List.cons.inj (h.symm.trans hm)
      have code := stays (quotes y (by simp))
      have same : Text.size t = Text.size w := by simpa using size
      rcases ih (hw.trans code).symm same fun c hc => quotes c (by simp [hc]) with rfl | rest
      · exact .inl rfl
      · obtain ⟨a, b, m', rfl, rfl, opens⟩ := rest
        exact .inr ⟨y :: a, b, m', rfl, rfl, opens⟩

/-- A piece of the source whose mask begins with code and shows no quote is the same as its mask, up to
its first slash. -/
theorem slice_until_slash (hw : Text.slice? (maskBrace source) start stop = some w)
    (ht : Text.slice? source start stop = some t) (opens : Opens (¬Faint ·) w)
    (quotes : ∀ c ∈ w, c ≠ '\x22' ∧ c ≠ '\x27' ∧ c ≠ '\x60') :
    t = w ∨ ∃ a b m, t = a ++ '/' :: b ∧ w = a ++ m ∧ Opens (fun c => c = ' ' ∨ c = '/') m := by
  obtain ⟨front, back, hm, hstart, hstop⟩ := Text.slice?_eq_some_iff.mp hw
  obtain ⟨front', back', hs, hstart', hstop'⟩ := Text.slice?_eq_some_iff.mp ht
  obtain ⟨c, r, rfl, hc⟩ := opens
  have here : maskBraceFrom .code source = front ++ c :: (r ++ back) := by
    rw [← maskBrace, hm]
    simp
  obtain ⟨left, rest, split, size, code⟩ := inCode_of_not_faint here trivial hc
  have same : left ++ rest = front' ++ (t ++ back') := by
    rw [← split, hs, List.append_assoc]
  obtain ⟨-, rfl⟩ := Text.cut_unique same (by omega)
  exact code_until_slash code (by omega) quotes

end SourceTree.Scan
