import SourceTree.Proofs.Text.Edge
import SourceTree.Scan.Mask

/-!
How a mask stands to its source: character by character it either keeps the character or blanks it.
An offset next to a character of the mask that is no space is therefore an offset between characters
of the source, which is what allows constructs found in the mask to be cut out of the source.
-/

namespace SourceTree.Scan

/-- What may follow the blanks of a character of several bytes: more blanks or the end of the literal
or comment. -/
def AfterBlank (m : Text) : Prop :=
  ∀ x r, m = x :: r → x = ' ' ∨ x = '\n' ∨ x = '\x22' ∨ x = '\x27' ∨ x = '\x60'

/-- The second text is the first with some characters blanked. -/
inductive Masks : Text → Text → Prop where
  | nil : Masks [] []
  | keep (c : Char) {s m : Text} : Masks s m → Masks (c :: s) (c :: m)
  | blank (c : Char) {s m : Text} : c.utf8Size = 1 ∨ AfterBlank m → Masks s m →
      Masks (c :: s) (blank c ++ m)

theorem size_replicate_space (n : Nat) : Text.size (List.replicate n ' ') = n := by
  induction n with
  | zero => rfl
  | succ n ih =>
    have one : ' '.utf8Size = 1 := by decide
    rw [List.replicate_succ, Text.size_cons, ih, one]
    omega

theorem size_blank (c : Char) : Text.size (blank c) = c.utf8Size := by
  unfold blank
  split
  next h => subst h; decide
  next => exact size_replicate_space c.utf8Size

theorem mem_blank {c x : Char} (h : x ∈ blank c) : x = ' ' ∨ c = '\n' ∧ x = '\n' := by
  unfold blank at h
  split at h
  next hc => exact .inr ⟨hc, by simpa using h⟩
  next => exact .inl (List.mem_replicate.mp h).2

theorem AfterBlank.nil : AfterBlank [] := by simp [AfterBlank]

theorem AfterBlank.of_prefix {a b : Text} (h : AfterBlank (a ++ b)) : AfterBlank a := by
  rintro x r rfl
  exact h x (r ++ b) rfl

theorem afterBlank_blank (c : Char) (m : Text) : AfterBlank (blank c ++ m) := by
  intro x r h
  cases hb : blank c with
  | nil =>
    have size := size_blank c
    have pos := c.utf8Size_pos
    rw [hb, Text.size_nil] at size
    omega
  | cons y ys =>
    rw [hb, List.cons_append, List.cons.injEq] at h
    obtain ⟨rfl, -⟩ := h
    rcases mem_blank (show y ∈ blank c by simp [hb]) with rfl | ⟨-, rfl⟩ <;> simp

namespace Masks

variable {s m a b : Text} {n : Nat}

theorem space {c : Char} (one : c.utf8Size = 1) (ne : c ≠ '\n') (h : Masks s m) :
    Masks (c :: s) (' ' :: m) := by
  have hb : Scan.blank c = [' '] := by simp [Scan.blank, ne, one]
  simpa [hb] using Masks.blank c (.inl one) h

theorem size_eq (h : Masks s m) : Text.size m = Text.size s := by
  induction h with
  | nil => rfl
  | keep c _ ih => rw [Text.size_cons, Text.size_cons, ih]
  | blank c _ _ ih => rw [Text.size_append, Text.size_cons, ih, size_blank]

theorem split (h : Masks (a ++ b) m) : ∃ a' b', m = a' ++ b' ∧ Masks a a' ∧ Masks b b' := by
  induction a generalizing m with
  | nil => exact ⟨[], m, rfl, .nil, h⟩
  | cons c a ih =>
    cases h with
    | keep _ h =>
      obtain ⟨a', b', rfl, ha, hb⟩ := ih h
      exact ⟨c :: a', b', rfl, .keep c ha, hb⟩
    | blank _ hc h =>
      obtain ⟨a', b', rfl, ha, hb⟩ := ih h
      have hc' : c.utf8Size = 1 ∨ AfterBlank a' := hc.imp_right AfterBlank.of_prefix
      exact ⟨Scan.blank c ++ a', b', by simp, .blank c hc' ha, hb⟩

theorem slice (h : Masks s m) {start stop : Nat} {t : Text}
    (ht : Text.slice? s start stop = some t) :
    ∃ t', Text.slice? m start stop = some t' ∧ Masks t t' := by
  obtain ⟨front, back, rfl, rfl, rfl⟩ := Text.slice?_eq_some_iff.mp ht
  obtain ⟨x, back', rfl, hx, -⟩ := h.split
  obtain ⟨front', t', rfl, hf, ht'⟩ := hx.split
  exact ⟨t', Text.slice?_eq_some_iff.mpr ⟨front', back', rfl, hf.size_eq, by rw [ht'.size_eq]⟩, ht'⟩

/-- A character of the mask that is no space stands in the source. -/
theorem kept {p r : Text} {x : Char} (h : Masks s (p ++ x :: r)) (hx : x ≠ ' ') :
    ∃ p' r', s = p' ++ x :: r' ∧ Masks p' p ∧ Masks r' r := by
  generalize hm : p ++ x :: r = m at h
  induction h generalizing p with
  | nil => simp at hm
  | keep c h ih =>
    cases p with
    | nil =>
      obtain ⟨rfl, rfl⟩ : x = c ∧ r = _ := by simpa using hm
      exact ⟨[], _, rfl, .nil, h⟩
    | cons y p =>
      obtain ⟨rfl, hm'⟩ : y = c ∧ p ++ x :: r = _ := by simpa using hm
      obtain ⟨p', r', rfl, hp, hr⟩ := ih hm'
      exact ⟨y :: p', r', rfl, .keep y hp, hr⟩
  | blank c hc h ih =>
    rcases List.append_eq_append_iff.mp hm with ⟨q, hq, hm'⟩ | ⟨q, rfl, hm'⟩
    · -- The character lies in the blanks of `c`, which is then a newline.
      cases q with
      | nil =>
        obtain ⟨p', r', rfl, hp, hr⟩ := ih (p := []) (by simpa using hm')
        have hp' : p' = [] := Text.size_eq_zero (by simpa using hp.size_eq.symm)
        subst hp'
        rw [List.append_nil] at hq
        exact ⟨[c], r', rfl, by simpa [hq] using Masks.blank c (.inr .nil) .nil, hr⟩
      | cons y q =>
        obtain ⟨rfl, hr⟩ : x = y ∧ r = q ++ _ := by simpa using hm'
        rcases mem_blank (show x ∈ Scan.blank c by simp [hq]) with hxs | ⟨rfl, rfl⟩
        · exact absurd hxs hx
        · have one : p = [] ∧ q = [] := by
            have hlen := congrArg List.length hq
            simp only [Scan.blank, if_true, List.length_append, List.length_cons,
              List.length_nil] at hlen
            exact ⟨List.eq_nil_of_length_eq_zero (by omega),
              List.eq_nil_of_length_eq_zero (by omega)⟩
          obtain ⟨rfl, rfl⟩ := one
          exact ⟨[], _, rfl, .nil, by simpa [hr] using h⟩
    · obtain ⟨p', r', rfl, hp, hr⟩ := ih hm'.symm
      rw [hm'] at hc
      exact ⟨c :: p', r', rfl, .blank c (hc.imp_right AfterBlank.of_prefix) hp, hr⟩

end Masks

theorem Masks.boundary_of_edge {s m : Text} {n : Nat} (h : Masks s m) (he : Text.Edge m n) :
    Text.Boundary s n := by
  obtain ⟨front, x, back, rfl, hx, hn⟩ := he
  obtain ⟨p, r, rfl, hp, -⟩ := h.kept hx
  rcases hn with rfl | rfl
  · rw [hp.size_eq]
    exact Text.boundary_append p (x :: r)
  · rw [hp.size_eq]
    exact Text.boundary_behind p x r

/-- Between two offsets that touch code there is a piece of the source, and the mask has its mask
there. -/
theorem Masks.slice_of_edges {s m w : Text} {start stop : Nat} (h : Masks s m)
    (hw : Text.slice? m start stop = some w) (hs : Text.Boundary s start)
    (ht : Text.Boundary s stop) : ∃ t, Text.slice? s start stop = some t ∧ Masks t w := by
  obtain ⟨front, back, -, -, rfl⟩ := Text.slice?_eq_some_iff.mp hw
  obtain ⟨t, hc⟩ := Text.exists_slice?_iff.mpr ⟨Nat.le_add_right start _, hs, ht⟩
  obtain ⟨w', hw', masks⟩ := h.slice hc
  obtain rfl := Option.some.inj (hw.symm.trans hw')
  exact ⟨t, hc, masks⟩

/-- What begins and ends with code is the mask of a piece of the source. -/
theorem Masks.slice_solid {s m w : Text} {start stop : Nat} (h : Masks s m)
    (hw : Text.slice? m start stop = some w) (opens : Text.Opens (· ≠ ' ') w)
    (closes : Text.Closes (· ≠ ' ') w) : ∃ t, Text.slice? s start stop = some t ∧ Masks t w := by
  refine h.slice_of_edges hw ?_ ?_
  · obtain ⟨front, back, rfl, rfl, rfl⟩ := Text.slice?_eq_some_iff.mp hw
    rw [List.append_assoc] at h
    exact h.boundary_of_edge (opens.append back).edge
  · obtain ⟨front, back, rfl, rfl, rfl⟩ := Text.slice?_eq_some_iff.mp hw
    rw [← Text.size_append]
    exact h.boundary_of_edge (closes.append front).edge

/-- A space of the mask in front of code stands for a space or for another character of one byte. -/
theorem Masks.boundary_before {s front back : Text} {x : Char}
    (h : Masks s (front ++ ' ' :: x :: back))
    (hx : ¬(x = ' ' ∨ x = '\n' ∨ x = '\x22' ∨ x = '\x27' ∨ x = '\x60')) :
    Text.Boundary s (Text.size front) := by
  generalize hm : front ++ ' ' :: x :: back = m at h
  induction h generalizing front with
  | nil => simp at hm
  | keep c h ih =>
    cases front with
    | nil => exact Text.boundary_zero _
    | cons y front =>
      obtain ⟨rfl, hm'⟩ : y = c ∧ front ++ ' ' :: x :: back = _ := by simpa using hm
      obtain ⟨p, r, hs, hp⟩ := ih hm'
      exact ⟨y :: p, r, by rw [hs]; rfl, by rw [Text.size_cons, Text.size_cons, hp]⟩
  | @blank c s m hc h ih =>
    rcases List.append_eq_append_iff.mp hm with ⟨q, hq, hm'⟩ | ⟨q, rfl, hm'⟩
    · cases q with
      | nil =>
        rw [List.append_nil] at hq
        refine ⟨[c], s, rfl, ?_⟩
        rw [Text.size_cons, Text.size_nil, ← hq, size_blank, Nat.add_zero]
      | cons y q =>
        obtain ⟨rfl, hr⟩ : ' ' = y ∧ x :: back = q ++ m := by simpa using hm'
        cases q with
        | nil =>
          have one : c.utf8Size = 1 := by
            rcases hc with one | hc
            · exact one
            · exact absurd (hc x back (by simpa using hr.symm)) hx
          have size := congrArg Text.size hq
          rw [size_blank, one, Text.size_append, Text.size_cons, Text.size_nil] at size
          have zero : Text.size front = 0 := by
            have w : ' '.utf8Size = 1 := by decide
            omega
          rw [zero]
          exact Text.boundary_zero _
        | cons z q =>
          obtain ⟨rfl, -⟩ : x = z ∧ _ := by simpa using hr
          rcases mem_blank (show x ∈ Scan.blank c by simp [hq]) with e | ⟨-, e⟩
          · exact absurd (.inl e) hx
          · exact absurd (.inr (.inl e)) hx
    · obtain ⟨p, r, hs, hp⟩ := ih hm'.symm
      refine ⟨c :: p, r, by rw [hs]; rfl, ?_⟩
      rw [Text.size_cons, Text.size_append, hp, size_blank]

/-- A literal is opened by one of the two quotes. -/
def BraceState.Proper : BraceState → Prop
  | .quoted quote => quote = '\x22' ∨ quote = '\x27'
  | _ => True

def IndentState.Proper : IndentState → Prop
  | .quoted quote _ => quote = '\x22' ∨ quote = '\x27'
  | _ => True

theorem AfterBlank.cons {x : Char} (m : Text)
    (h : x = ' ' ∨ x = '\n' ∨ x = '\x22' ∨ x = '\x27' ∨ x = '\x60') : AfterBlank (x :: m) := by
  rintro y r hm
  obtain ⟨rfl, -⟩ : x = y ∧ m = r := by simpa using hm
  exact h

theorem Masks.comment {c : Char} {s m : Text} (h : Masks s m)
    (hm : c ≠ '\n' → AfterBlank m) : Masks (c :: s) (Scan.blank c ++ m) := by
  refine .blank c ?_ h
  by_cases hc : c = '\n'
  · subst hc
    exact .inl (by decide)
  · exact .inr (hm hc)

theorem maskBraceFrom_masks (st : BraceState) (cs : Text) (h : st.Proper) :
    Masks cs (maskBraceFrom st cs) ∧ (st ≠ .code → AfterBlank (maskBraceFrom st cs)) := by
  fun_induction maskBraceFrom st cs with
  | case1 => exact ⟨.nil, fun _ => .nil⟩
  | case2 cs ih | case3 cs ih =>
    have hcs := (ih trivial).1
    exact ⟨.space (by decide) (by decide) (.space (by decide) (by decide) hcs), by simp⟩
  | case4 cs ih => exact ⟨.keep _ (.keep _ (.keep _ (ih trivial).1)), by simp⟩
  | case5 c cs _ _ _ hc ih => exact ⟨.keep c (ih hc).1, by simp⟩
  | case6 cs _ _ _ _ ih => exact ⟨.keep _ (ih trivial).1, by simp⟩
  | case7 c cs _ _ _ _ _ ih => exact ⟨.keep c (ih trivial).1, by simp⟩
  | case8 c cs ih =>
    refine ⟨?_, fun _ => afterBlank_blank c _⟩
    have hcs := ih (by split <;> trivial)
    refine hcs.1.comment fun hc => hcs.2 ?_
    simp [hc]
  | case9 cs ih =>
    have hcs := (ih trivial).1
    exact ⟨.space (by decide) (by decide) (.space (by decide) (by decide) hcs),
      fun _ => .cons _ (by simp)⟩
  | case10 c cs _ ih =>
    have hcs := ih trivial
    exact ⟨hcs.1.comment fun _ => hcs.2 (by simp), fun _ => afterBlank_blank c _⟩
  | case11 quote cs ih =>
    exact ⟨.space (by decide) (by decide) (.keep _ (ih trivial).1), fun _ => .cons _ (by simp)⟩
  | case12 quote escaped cs _ ih =>
    have hcs := ih h
    exact ⟨.space (by decide) (by decide) (hcs.1.comment fun _ => hcs.2 (by simp)),
      fun _ => .cons _ (by simp)⟩
  | case13 quote cs _ _ ih =>
    exact ⟨.space (by decide) (by decide) (ih h).1, fun _ => .cons _ (by simp)⟩
  | case14 c cs _ _ _ ih =>
    exact ⟨.keep c (ih trivial).1, fun _ => .cons _ (by rcases h with rfl | rfl <;> simp)⟩
  | case15 quote cs _ _ _ _ ih => exact ⟨.keep _ (ih trivial).1, fun _ => .cons _ (by simp)⟩
  | case16 quote c cs _ _ _ _ _ ih =>
    have hcs := ih h
    exact ⟨hcs.1.comment fun _ => hcs.2 (by simp), fun _ => afterBlank_blank c _⟩
  | case17 cs ih =>
    exact ⟨.keep _ (.keep _ (.keep _ (ih trivial).1)), fun _ => .cons _ (by simp)⟩
  | case18 escaped cs ih =>
    have hcs := ih trivial
    exact ⟨.space (by decide) (by decide) (hcs.1.comment fun _ => hcs.2 (by simp)),
      fun _ => .cons _ (by simp)⟩
  | case19 c cs _ _ ih | case21 c cs _ ih =>
    have hcs := ih trivial
    exact ⟨hcs.1.comment fun _ => hcs.2 (by simp), fun _ => afterBlank_blank c _⟩
  | case20 cs ih => exact ⟨.keep _ (ih trivial).1, fun _ => .cons _ (by simp)⟩

theorem maskBrace_masks (source : Text) : Masks source (maskBrace source) :=
  (maskBraceFrom_masks .code source trivial).1

theorem maskIndentFrom_masks (st : IndentState) (cs : Text) (h : st.Proper) :
    Masks cs (maskIndentFrom st cs) ∧ (st ≠ .code → AfterBlank (maskIndentFrom st cs)) := by
  fun_induction maskIndentFrom st cs with
  | case1 => exact ⟨.nil, fun _ => .nil⟩
  | case2 c cs ih =>
    refine ⟨?_, fun _ => afterBlank_blank c _⟩
    have hcs := ih (by split <;> trivial)
    refine hcs.1.comment fun hc => hcs.2 ?_
    simp [hc]
  | case3 quote triple escaped cs ih =>
    have hcs := ih h
    exact ⟨.space (by decide) (by decide) (hcs.1.comment fun _ => hcs.2 (by simp)),
      fun _ => .cons _ (by simp)⟩
  | case4 quote a b c cs _ hq ih =>
    obtain ⟨rfl, rfl, rfl⟩ := hq
    exact ⟨.keep _ (.keep _ (.keep _ (ih trivial).1)),
      fun _ => .cons _ (by rcases h with rfl | rfl <;> simp)⟩
  | case5 quote a b c cs _ _ ih =>
    have hcs := ih h
    exact ⟨hcs.1.comment fun _ => hcs.2 (by simp), fun _ => afterBlank_blank a _⟩
  | case6 quote c cs _ _ ih =>
    have hcs := ih h
    exact ⟨hcs.1.comment fun _ => hcs.2 (by simp), fun _ => afterBlank_blank c _⟩
  | case7 quote cs _ ih =>
    exact ⟨.space (by decide) (by decide) (ih h).1, fun _ => .cons _ (by simp)⟩
  | case8 c cs _ _ ih =>
    exact ⟨.keep c (ih trivial).1, fun _ => .cons _ (by rcases h with rfl | rfl <;> simp)⟩
  | case9 quote cs _ _ _ ih => exact ⟨.keep _ (ih trivial).1, fun _ => .cons _ (by simp)⟩
  | case10 quote c cs _ _ _ _ ih =>
    have hcs := ih h
    exact ⟨hcs.1.comment fun _ => hcs.2 (by simp), fun _ => afterBlank_blank c _⟩
  | case11 cs ih => exact ⟨.keep _ (.keep _ (.keep _ (ih (.inl rfl)).1)), by simp⟩
  | case12 cs ih => exact ⟨.keep _ (.keep _ (.keep _ (ih (.inr rfl)).1)), by simp⟩
  | case13 cs _ _ ih => exact ⟨.space (by decide) (by decide) (ih trivial).1, by simp⟩
  | case14 c cs _ _ _ hc ih => exact ⟨.keep c (ih hc).1, by simp⟩
  | case15 c cs _ _ _ _ ih => exact ⟨.keep c (ih trivial).1, by simp⟩

theorem maskIndent_masks (source : Text) : Masks source (maskIndent source) :=
  (maskIndentFrom_masks .code source trivial).1

end SourceTree.Scan
