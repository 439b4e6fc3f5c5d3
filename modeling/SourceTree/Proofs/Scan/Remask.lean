import Mathlib.Data.List.Basic
import SourceTree.Proofs.Scan.Uncomment

/-!
Masking a mask. The scanner of brace languages takes each character of a text for code, for a part of
a comment, or for a delimiter or a part of the content of a literal. In the mask of a text it takes
each character for the same, except that what was a comment is now code: it meets the delimiters of
the same literals and finds nothing left to blank. Main statement: `maskBrace_idempotent`.
-/

namespace SourceTree.Scan

/-- What the scanner takes a character for. Literals are told apart by the state in which they are
read. -/
inductive Role where
  | code
  | comment
  | opener (literal : BraceState)
  | content (literal : BraceState)
  | closer (literal : BraceState)
  deriving DecidableEq, Repr

/-- The role of a character of the code in front of a state: it opens a literal, or it is code. -/
def Role.entering : BraceState → Role
  | .code => .code
  | st => .opener st

/-- The role of the characters that a state passes over. -/
def BraceState.inside : BraceState → Role
  | .code => .code
  | .lineComment | .blockComment => .comment
  | st => .content st

/-- The characters of a text, each with its role. A newline that ends a comment or cuts a literal
short is code. -/
def rolesFrom : BraceState → Text → List (Role × Char)
  | _, [] => []
  | .code, '/' :: '/' :: cs => (.comment, '/') :: (.comment, '/') :: rolesFrom .lineComment cs
  | .code, '/' :: '*' :: cs => (.comment, '/') :: (.comment, '*') :: rolesFrom .blockComment cs
  | .code, '\x22' :: '\x22' :: '\x22' :: cs =>
    (.opener .textBlock, '\x22') :: (.opener .textBlock, '\x22') :: (.opener .textBlock, '\x22') ::
      rolesFrom .textBlock cs
  | .code, c :: cs => (.entering (.behind c), c) :: rolesFrom (.behind c) cs
  | .lineComment, c :: cs =>
    if c = '\n' then (.code, c) :: rolesFrom .code cs else (.comment, c) :: rolesFrom .lineComment cs
  | .blockComment, '*' :: '/' :: cs => (.comment, '*') :: (.comment, '/') :: rolesFrom .code cs
  | .blockComment, c :: cs => (.comment, c) :: rolesFrom .blockComment cs
  | .quoted quote, '\\' :: '\n' :: cs =>
    (.content (.quoted quote), '\\') :: (.code, '\n') :: rolesFrom .code cs
  | .quoted quote, '\\' :: escaped :: cs =>
    (.content (.quoted quote), '\\') :: (.content (.quoted quote), escaped) ::
      rolesFrom (.quoted quote) cs
  | .quoted quote, ['\\'] => [(.content (.quoted quote), '\\')]
  | .quoted quote, c :: cs =>
    if c = quote then (.closer (.quoted quote), c) :: rolesFrom .code cs
    else if c = '\n' then (.code, c) :: rolesFrom .code cs
    else (.content (.quoted quote), c) :: rolesFrom (.quoted quote) cs
  | .textBlock, '\x22' :: '\x22' :: '\x22' :: cs =>
    (.closer .textBlock, '\x22') :: (.closer .textBlock, '\x22') :: (.closer .textBlock, '\x22') ::
      rolesFrom .code cs
  | .textBlock, '\\' :: escaped :: cs =>
    (.content .textBlock, '\\') :: (.content .textBlock, escaped) :: rolesFrom .textBlock cs
  | .textBlock, c :: cs => (.content .textBlock, c) :: rolesFrom .textBlock cs
  | .raw, c :: cs =>
    if c = '\x60' then (.closer .raw, c) :: rolesFrom .code cs
    else (.content .raw, c) :: rolesFrom .raw cs

def roles (source : Text) : List (Role × Char) := rolesFrom .code source

/-- What a mask shows of a character: comments and the content of literals are blank. -/
def shown : Role × Char → Text
  | (.comment, c) | (.content _, c) => blank c
  | (_, c) => [c]

/-- The role of what a mask shows: a comment has become code. -/
def Role.faded : Role → Role
  | .comment => .code
  | role => role

/-- What a mask shows of a character, each character of it with its role. -/
def faded (p : Role × Char) : List (Role × Char) := (shown p).map (p.1.faded, ·)

variable {st : BraceState} {c : Char} {cs m : Text}

theorem map_snd_rolesFrom (st : BraceState) (cs : Text) : (rolesFrom st cs).map Prod.snd = cs := by
  fun_induction rolesFrom st cs <;> simp_all

theorem shown_entering (c : Char) : shown (.entering st, c) = [c] := by
  cases st <;> rfl

theorem faded_entering (c : Char) : faded (.entering st, c) = [(.entering st, c)] := by
  cases st <;> rfl

theorem shown_inside (hides : st ≠ .code) (c : Char) : shown (st.inside, c) = blank c := by
  cases st with
  | code => exact absurd rfl hides
  | _ => rfl

theorem blank_backslash : blank '\\' = [' '] := by decide

/-- Behind a backslash there is the end of the text or what it escapes. -/
theorem ne_backslash (escape : ∀ escaped r, c = '\\' → cs = escaped :: r → False)
    (last : c = '\\' → cs = [] → False) : c ≠ '\\' := by
  intro same
  cases cs with
  | nil => exact last same rfl
  | cons escaped r => exact escape escaped r same rfl

/-- What the roles of a text let the mask show is its mask. -/
theorem shown_rolesFrom (st : BraceState) (cs : Text) :
    (rolesFrom st cs).flatMap shown = maskBraceFrom st cs := by
  fun_induction rolesFrom st cs with
  | case1 st => cases st <;> rfl
  | case2 cs ih | case3 cs ih | case8 cs ih => exact congrArg (' ' :: ' ' :: ·) ih
  | case4 cs ih | case16 cs ih => exact congrArg ('\x22' :: '\x22' :: '\x22' :: ·) ih
  | case5 c cs line block quotes ih =>
    rw [maskBraceFrom_plain (plain_of_unmatched line block quotes), List.flatMap_cons,
      shown_entering, ih]
    rfl
  | case6 cs ih => exact congrArg ('\n' :: ·) ih
  | case7 c cs newline ih => simp [shown, maskBraceFrom, newline, ih]
  | case9 c cs _ ih | case11 quote escaped cs _ ih | case17 escaped cs ih =>
    simp [shown, blank_backslash, maskBraceFrom, ih]
  | case10 quote cs ih => exact congrArg (' ' :: '\n' :: ·) ih
  | case12 quote => rfl
  | case13 quote cs _ escape last ih =>
    rw [maskBraceFrom_quoted cs (ne_backslash escape last), if_pos (.inl rfl), ← ih]
    rfl
  | case14 quote cs _ _ _ _ ih =>
    rw [maskBraceFrom_quoted cs (by decide), if_pos (.inr rfl), ← ih]
    rfl
  | case15 quote c cs _ escape last closes newline ih =>
    rw [maskBraceFrom_quoted cs (ne_backslash escape last), if_neg (by simp [closes, newline]), ← ih]
    rfl
  | case18 c cs _ _ ih => simp [shown, maskBraceFrom, ih]
  | case19 cs ih => exact congrArg ('\x60' :: ·) ih
  | case20 c cs closes ih => simp [shown, maskBraceFrom, closes, ih]

/-- The mask shows what a text begins with, as far as it shows anything. -/
theorem leads_shown (ps : List (Role × Char)) : Leads (ps.flatMap shown) (ps.map Prod.snd) := by
  induction ps with
  | nil => exact .nil []
  | cons p ps ih =>
    obtain ⟨role, c⟩ := p
    cases role with
    | comment | content => exact ih.blank c
    | code | opener | closer => exact ih.cons c

theorem rolesFrom_plain (plain : Plain (c :: cs)) :
    rolesFrom .code (c :: cs) = (.entering (.behind c), c) :: rolesFrom (.behind c) cs := by
  rw [rolesFrom]
  · rintro r rfl rfl
    exact plain ['/', '/'] (by simp) ⟨r, rfl⟩
  · rintro r rfl rfl
    exact plain ['/', '*'] (by simp) ⟨r, rfl⟩
  · rintro r rfl rfl
    exact plain ['\x22', '\x22', '\x22'] (by simp) ⟨r, rfl⟩

/-- A blank tells the scanner nothing: it stays in its state. -/
theorem rolesFrom_blank (proper : st.Proper) {x : Char}
    (faint : x = ' ' ∨ x = '\n' ∧ ∀ q, st ≠ .quoted q) (m : Text) :
    rolesFrom st.blanked (x :: m) = (st.inside.faded, x) :: rolesFrom st.blanked m := by
  rcases faint with rfl | ⟨rfl, multiline⟩
  · cases st with
    | quoted q =>
      rcases proper with rfl | rfl <;> rfl
    | _ => rfl
  · cases st with
    | quoted q => exact absurd rfl (multiline q)
    | _ => rfl

/-- Read from a state, what the mask shows of these characters has the roles that they have. -/
def Reread (st : BraceState) (ps : List (Role × Char)) : Prop :=
  rolesFrom st.blanked (ps.flatMap shown) = ps.flatMap faded

theorem Reread.inside {ps : List (Role × Char)} (h : Reread st ps) (proper : st.Proper)
    (hides : st ≠ .code) (newline : c = '\n' → ∀ q, st ≠ .quoted q) :
    Reread st ((st.inside, c) :: ps) := by
  have faint : ∀ x ∈ shown (st.inside, c), x = ' ' ∨ x = '\n' ∧ ∀ q, st ≠ .quoted q := by
    intro x hx
    rw [shown_inside hides] at hx
    exact (mem_blank hx).imp_right fun ⟨hc, hx⟩ => ⟨hx, newline hc⟩
  unfold Reread
  rw [List.flatMap_cons, List.flatMap_cons, ← h, faded]
  generalize shown (st.inside, c) = w at faint
  induction w with
  | nil => rfl
  | cons x w ih =>
    rw [List.cons_append, rolesFrom_blank proper (faint x List.mem_cons_self),
      ih fun y hy => faint y (List.mem_cons_of_mem x hy)]
    rfl

theorem Reread.cutShort {ps : List (Role × Char)} {quote : Char} (h : Reread .code ps)
    (proper : (BraceState.quoted quote).Proper) : Reread (.quoted quote) ((.code, '\n') :: ps) := by
  rcases proper with rfl | rfl <;> exact congrArg ((.code, '\n') :: ·) h

theorem Reread.closed {ps : List (Role × Char)} {quote : Char} (h : Reread .code ps)
    (proper : (BraceState.quoted quote).Proper) :
    Reread (.quoted quote) ((.closer (.quoted quote), quote) :: ps) := by
  have escape : quote ≠ '\\' := by rcases proper with rfl | rfl <;> decide
  have closes (m : Text) : rolesFrom (.quoted quote) (quote :: m) =
      (.closer (.quoted quote), quote) :: rolesFrom .code m := by
    rw [rolesFrom, if_pos rfl]
    · exact fun _ same => absurd same escape
    · exact fun _ _ same => absurd same escape
    · exact fun same => absurd same escape
  unfold Reread at h ⊢
  rw [List.flatMap_cons, List.flatMap_cons, ← h]
  exact closes (ps.flatMap shown)

theorem reread_rolesFrom (st : BraceState) (cs : Text) (proper : st.Proper) :
    Reread st (rolesFrom st cs) := by
  fun_induction rolesFrom st cs with
  | case1 st => cases st <;> rfl
  | case2 cs ih | case3 cs ih | case8 cs ih =>
    exact congrArg ((.code, ' ') :: (.code, ' ') :: ·) (ih trivial)
  | case4 cs ih =>
    exact congrArg ((.opener .textBlock, '\x22') :: (.opener .textBlock, '\x22') ::
      (.opener .textBlock, '\x22') :: ·) (ih trivial)
  | case5 c cs line block quotes ih =>
    have leads := leads_shown (rolesFrom (.behind c) cs)
    rw [map_snd_rolesFrom] at leads
    have plain := (plain_of_unmatched line block quotes).of_leads (leads.cons c)
    have behind : (BraceState.behind c).Proper := by
      unfold BraceState.behind
      split
      next quote => exact quote
      next => split <;> trivial
    have rest := ih behind
    unfold Reread at rest ⊢
    rw [BraceState.blanked_behind] at rest
    rw [List.flatMap_cons, List.flatMap_cons, shown_entering, faded_entering, ← rest]
    exact rolesFrom_plain plain
  | case6 cs ih => exact congrArg ((.code, '\n') :: ·) (ih trivial)
  | case7 c cs newline ih => exact (ih trivial).inside trivial (by simp) (by simp)
  | case9 c cs _ ih | case18 c cs _ _ ih | case20 c cs _ ih =>
    exact (ih trivial).inside trivial (by simp) (by simp)
  | case10 quote cs ih =>
    exact ((ih trivial).cutShort proper).inside proper (by simp) (by simp)
  | case11 quote escaped cs newline ih =>
    have rest := (ih proper).inside proper (by simp) fun h => (newline h).elim
    exact rest.inside proper (by simp) (by simp)
  | case12 quote => rcases proper with rfl | rfl <;> rfl
  | case13 quote cs _ _ _ ih => exact (ih trivial).closed proper
  | case14 quote cs _ _ _ _ ih => exact (ih trivial).cutShort proper
  | case15 quote c cs _ _ _ _ newline ih =>
    exact (ih proper).inside proper (by simp) fun h => absurd h newline
  | case16 cs ih =>
    exact congrArg ((.closer .textBlock, '\x22') :: (.closer .textBlock, '\x22') ::
      (.closer .textBlock, '\x22') :: ·) (ih trivial)
  | case17 escaped cs ih =>
    exact ((ih trivial).inside trivial (by simp) (by simp)).inside trivial (by simp) (by simp)
  | case19 cs ih => exact congrArg ((.closer .raw, '\x60') :: ·) (ih trivial)

theorem roles_maskBrace (source : Text) : roles (maskBrace source) = (roles source).flatMap faded := by
  have again := reread_rolesFrom .code source trivial
  unfold Reread at again
  rw [shown_rolesFrom] at again
  exact again

/-- What is read in a mask is no comment, and as content of a literal it is blank. -/
def Cleared (p : Role × Char) : Prop :=
  p.1 ≠ .comment ∧ ∀ literal, p.1 = .content literal → p.2 = ' ' ∨ p.2 = '\n'

theorem cleared_of_mem_faded {p q : Role × Char} (h : q ∈ faded p) : Cleared q := by
  obtain ⟨role, c⟩ := p
  obtain ⟨x, hx, rfl⟩ := List.mem_map.mp h
  constructor
  · cases role <;> simp [Role.faded]
  · intro literal same
    cases role with
    | content => exact (mem_blank hx).imp_right And.right
    | _ => simp [Role.faded] at same

theorem Cleared.shown {p : Role × Char} (h : Cleared p) : shown p = [p.2] := by
  obtain ⟨role, c⟩ := p
  cases role with
  | comment => exact absurd rfl h.1
  | content literal =>
    have faint : c = ' ' ∨ c = '\n' := h.2 literal rfl
    rcases faint with rfl | rfl <;> rfl
  | _ => rfl

/-- Masking a mask changes nothing. In the mask the scanner finds the delimiters of the same literals,
whether they are closed or not, and the code that it kept; it finds no comment, and literals with
nothing but blanks in them. -/
theorem maskBrace_idempotent (source : Text) :
    maskBrace (maskBrace source) = maskBrace source ∧
      roles (maskBrace source) = (roles source).flatMap faded ∧
      ∀ p ∈ roles (maskBrace source), Cleared p := by
  have again := roles_maskBrace source
  have cleared : ∀ p ∈ roles (maskBrace source), Cleared p := by
    intro p hp
    rw [again] at hp
    obtain ⟨q, -, mem⟩ := List.mem_flatMap.mp hp
    exact cleared_of_mem_faded mem
  have same : maskBrace (maskBrace source) = maskBrace source := by
    calc maskBrace (maskBrace source)
        = (roles (maskBrace source)).flatMap shown := (shown_rolesFrom _ _).symm
      _ = (roles (maskBrace source)).flatMap fun p => [p.2] :=
          List.flatMap_congr fun p hp => (cleared p hp).shown
      _ = (roles (maskBrace source)).map Prod.snd := List.map_eq_flatMap.symm
      _ = maskBrace source := map_snd_rolesFrom _ _
  exact ⟨same, again, cleared⟩

example : (roles "'\\'\n//".toList).map Prod.fst =
    [.opener (.quoted '\x27'), .content (.quoted '\x27'), .content (.quoted '\x27'), .code,
      .comment, .comment] := by decide

end SourceTree.Scan
