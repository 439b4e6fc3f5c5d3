import SourceTree.Proofs.Scan.Block

/-!
Texts in which parentheses and braces nest. A depth counter that looks at one kind of bracket only
finds the right partner in such a text, because what stands between two partners is well nested
again. This carries over to every region that a scanner hands down: it is a well-nested piece of the
text, and no bracket that opens in it is closed behind it.
-/

namespace SourceTree.Scan

open Text (Boundary Opens)

/-- A kind of bracket. -/
inductive Bracket where
  | paren | brace
  deriving DecidableEq, Repr

namespace Bracket

def opener : Bracket → Char
  | paren => '('
  | brace => '\x7b'

def closer : Bracket → Char
  | paren => ')'
  | brace => '\x7d'

/-- The kind of bracket that a character opens. -/
def opened? (c : Char) : Option Bracket := [paren, brace].find? (·.opener == c)

/-- The kind of bracket that a character closes. -/
def closed? (c : Char) : Option Bracket := [paren, brace].find? (·.closer == c)

theorem opener_ne_closer (k l : Bracket) : k.opener ≠ l.closer := by
  cases k <;> cases l <;> decide

theorem opener_injective {k l : Bracket} (h : k.opener = l.opener) : k = l := by
  cases k <;> cases l <;> simp_all [opener]

theorem closer_injective {k l : Bracket} (h : k.closer = l.closer) : k = l := by
  cases k <;> cases l <;> simp_all [closer]

theorem opened?_opener (k : Bracket) : opened? k.opener = some k := by
  cases k <;> rfl

theorem opened?_closer (k : Bracket) : opened? k.closer = none := by
  cases k <;> rfl

theorem closed?_closer (k : Bracket) : closed? k.closer = some k := by
  cases k <;> rfl

theorem eq_opener {c : Char} {k : Bracket} (h : opened? c = some k) : c = k.opener := by
  have same := List.find?_some h
  exact (beq_iff_eq.mp same).symm

theorem eq_closer {c : Char} {k : Bracket} (h : closed? c = some k) : c = k.closer := by
  have same := List.find?_some h
  exact (beq_iff_eq.mp same).symm

theorem opener_utf8Size (k : Bracket) : k.opener.utf8Size = 1 := by
  cases k <;> rfl

theorem isBlank_closer (k : Bracket) : Text.isBlank k.closer = false := by
  cases k <;> rfl

end Bracket

/-- Every bracket has a partner of its kind, and pairs do not cross. -/
inductive WellNested : Text → Prop where
  | nil : WellNested []
  | plain {c : Char} {w : Text} : Bracket.opened? c = none → Bracket.closed? c = none →
      WellNested w → WellNested (c :: w)
  | group {inner w : Text} (k : Bracket) : WellNested inner → WellNested w →
      WellNested (k.opener :: inner ++ k.closer :: w)

/-- The brackets that stand open behind a character, innermost first; none if the character closes
another bracket than the innermost. -/
def openBehind? (pending : List Bracket) (c : Char) : Option (List Bracket) :=
  match Bracket.opened? c, Bracket.closed? c, pending with
  | some k, _, _ => some (k :: pending)
  | none, none, _ => some pending
  | none, some k, l :: rest => if k = l then some rest else none
  | none, some _, [] => none

/-- Well nested but for the closers of the brackets that stand open in front of it. -/
def Unwinds : List Bracket → Text → Prop
  | [], w => WellNested w
  | k :: pending, w =>
    ∃ inner rest, w = inner ++ k.closer :: rest ∧ WellNested inner ∧ Unwinds pending rest

variable {pending : List Bracket} {w : Text} {k : Bracket}

theorem openBehind?_opener : openBehind? pending k.opener = some (k :: pending) := by
  simp [openBehind?, Bracket.opened?_opener]

theorem openBehind?_closer : openBehind? (k :: pending) k.closer = some pending := by
  simp [openBehind?, Bracket.opened?_closer, Bracket.closed?_closer]

theorem openBehind?_plain {c : Char} (ho : Bracket.opened? c = none)
    (hc : Bracket.closed? c = none) : openBehind? pending c = some pending := by
  simp [openBehind?, ho, hc]

theorem Unwinds.plain {c : Char} (ho : Bracket.opened? c = none) (hc : Bracket.closed? c = none)
    (h : Unwinds pending w) : Unwinds pending (c :: w) := by
  cases pending with
  | nil => exact WellNested.plain ho hc h
  | cons k pending =>
    obtain ⟨inner, rest, rfl, nested, behind⟩ := h
    exact ⟨c :: inner, rest, rfl, .plain ho hc nested, behind⟩

theorem Unwinds.opener (h : Unwinds (k :: pending) w) : Unwinds pending (k.opener :: w) := by
  obtain ⟨inner, rest, rfl, nested, behind⟩ := h
  cases pending with
  | nil => exact WellNested.group k nested behind
  | cons l pending =>
    obtain ⟨inner', rest', rfl, nested', behind'⟩ := behind
    have more := WellNested.group k nested nested'
    exact ⟨k.opener :: inner ++ k.closer :: inner', rest', by simp, more, behind'⟩

theorem Unwinds.closer (h : Unwinds pending w) : Unwinds (k :: pending) (k.closer :: w) :=
  ⟨[], w, rfl, WellNested.nil, h⟩

/-- One step backwards: what unwinds behind a character unwinds in front of it. -/
theorem Unwinds.cons {c : Char} {next : List Bracket} (step : openBehind? pending c = some next)
    (h : Unwinds next w) : Unwinds pending (c :: w) := by
  unfold openBehind? at step
  split at step
  next k _ opens =>
    obtain rfl := Option.some.inj step
    rw [Bracket.eq_opener opens]
    exact h.opener
  next opens closes =>
    obtain rfl := Option.some.inj step
    exact h.plain opens closes
  next k l rest _ closes =>
    split at step
    next same =>
      obtain rfl := Option.some.inj step
      rw [Bracket.eq_closer closes, same]
      exact h.closer
    next => exact absurd step.symm (Option.some_ne_none next)
  next => exact absurd step.symm (Option.some_ne_none next)

theorem unwinds_of_foldlM (h : w.foldlM openBehind? pending = some []) : Unwinds pending w := by
  induction w generalizing pending with
  | nil =>
    obtain rfl : pending = [] := Option.some.inj h
    exact WellNested.nil
  | cons c w ih =>
    rw [List.foldlM_cons] at h
    obtain ⟨next, step, rest⟩ := Option.bind_eq_some_iff.mp h
    exact Unwinds.cons step (ih rest)

/-- What stood open in front of a well-nested piece stands open behind it, and no more. -/
theorem WellNested.foldlM_eq (h : WellNested w) (pending : List Bracket) :
    w.foldlM openBehind? pending = some pending := by
  induction h generalizing pending with
  | nil => rfl
  | plain ho hc _ ih =>
    rw [List.foldlM_cons, openBehind?_plain ho hc]
    exact ih pending
  | @group inner w k _ _ first second =>
    calc (k.opener :: inner ++ k.closer :: w).foldlM openBehind? pending
        = (inner ++ k.closer :: w).foldlM openBehind? (k :: pending) := by
          rw [List.cons_append, List.foldlM_cons, openBehind?_opener]
          rfl
      _ = (k.closer :: w).foldlM openBehind? (k :: pending) := by
          rw [List.foldlM_append, first]
          rfl
      _ = w.foldlM openBehind? pending := by
          rw [List.foldlM_cons, openBehind?_closer]
          rfl
      _ = some pending := second pending

/-- Read from left to right, a well-nested text leaves nothing open and never closes a bracket that
is not the innermost. -/
theorem wellNested_iff : WellNested w ↔ w.foldlM openBehind? [] = some [] :=
  ⟨fun h => h.foldlM_eq [], unwinds_of_foldlM⟩

instance : DecidablePred WellNested := fun _ => decidable_of_iff _ wellNested_iff.symm

example : ¬WellNested "(\x7b)\x7d".toList := by decide

/-- Behind an opener stands a well-nested piece, and then its closer. -/
theorem WellNested.exists_partner {front back : Text}
    (h : WellNested (front ++ k.opener :: back)) :
    ∃ inner rest, back = inner ++ k.closer :: rest ∧ WellNested inner := by
  have all := h.foldlM_eq []
  rw [List.foldlM_append] at all
  obtain ⟨pending, -, behind⟩ := Option.bind_eq_some_iff.mp all
  rw [List.foldlM_cons, openBehind?_opener] at behind
  have unwinds : Unwinds (k :: pending) back := unwinds_of_foldlM behind
  obtain ⟨inner, rest, split, nested, -⟩ := unwinds
  exact ⟨inner, rest, split, nested⟩

/-- The counter of one kind is back where it was behind a well-nested piece. -/
theorem WellNested.closing?_append (h : WellNested w) (depth offset : Nat) (rest : Text) :
    closing? k.opener k.closer (depth + 1) offset (w ++ rest) =
      closing? k.opener k.closer (depth + 1) (offset + Text.size w) rest := by
  induction h generalizing depth offset rest with
  | nil => rfl
  | @plain c w ho hc _ ih =>
    have notOpener : c ≠ k.opener := by
      intro same
      rw [same, Bracket.opened?_opener] at ho
      exact Option.some_ne_none k ho
    have notCloser : c ≠ k.closer := by
      intro same
      rw [same, Bracket.closed?_closer] at hc
      exact Option.some_ne_none k hc
    rw [List.cons_append, closing?, if_neg notOpener, if_neg notCloser, ih, Text.size_cons,
      Nat.add_assoc]
  | @group inner w l _ _ first second =>
    have split : l.opener :: inner ++ l.closer :: w ++ rest =
        l.opener :: (inner ++ l.closer :: (w ++ rest)) := by simp
    have size : offset + Text.size (l.opener :: inner ++ l.closer :: w) =
        offset + l.opener.utf8Size + Text.size inner + l.closer.utf8Size + Text.size w := by
      rw [Text.size_append, Text.size_cons, Text.size_cons]
      omega
    rw [split, size, closing?]
    by_cases same : l = k
    · -- The pair counts: the depth goes up by one and comes down again.
      subst same
      rw [if_pos rfl, first, closing?, if_neg (Bracket.opener_ne_closer l l).symm, if_pos rfl,
        if_neg (by omega)]
      exact second depth _ rest
    · rw [if_neg fun eq => same (Bracket.opener_injective eq),
        if_neg (Bracket.opener_ne_closer l k), first, closing?,
        if_neg fun eq => Bracket.opener_ne_closer k l eq.symm,
        if_neg fun eq => same (Bracket.closer_injective eq)]
      exact second depth _ rest

theorem findMatching?_wellNested {front inner back : Text} (h : WellNested inner) :
    findMatching? (front ++ k.opener :: (inner ++ k.closer :: back)) (Text.size front) k.opener
      k.closer = some (Text.size front + 1 + Text.size inner) := by
  rw [findMatching?, Text.drop?_append]
  dsimp only
  rw [if_pos rfl, closing?, if_pos rfl, h.closing?_append, closing?,
    if_neg (Bracket.opener_ne_closer k k).symm, if_pos rfl, if_pos (Nat.le_refl 1),
    Bracket.opener_utf8Size]

/-- A region of a text that is well nested by itself. It ends with the text or in front of a closing
bracket. -/
def Held (text : Text) (first limit : Nat) : Prop :=
  ∃ front code back, text = front ++ code ++ back ∧ Text.size front = first ∧
    first + Text.size code = limit ∧ WellNested code ∧
    (back = [] ∨ Opens (fun c => ∃ k : Bracket, c = k.closer) back)

variable {text : Text} {first limit pos : Nat}

theorem WellNested.held (h : WellNested text) : Held text 0 (Text.size text) :=
  ⟨[], text, [], by simp, rfl, by simp, h, .inl rfl⟩

theorem Held.boundary_first (h : Held text first limit) : Boundary text first := by
  obtain ⟨front, code, back, rfl, rfl, -⟩ := h
  rw [List.append_assoc]
  exact Text.boundary_append front (code ++ back)

theorem Held.boundary_limit (h : Held text first limit) : Boundary text limit := by
  obtain ⟨front, code, back, rfl, rfl, rfl, -⟩ := h
  rw [← Text.size_append]
  exact Text.boundary_append (front ++ code) back

/-- A bracket that opens at or before the end of the region is one of its brackets: what comes then
closes one. -/
theorem Held.exists_opener (h : Held text first limit) (ge : first ≤ pos) (le : pos ≤ limit)
    (opens : Text.at? text pos = some k.opener) :
    ∃ front more back, text = front ++ k.opener :: more ++ back ∧ Text.size front = pos ∧
      pos + Text.size (k.opener :: more) = limit ∧
      ∃ mid, WellNested (mid ++ k.opener :: more) := by
  obtain ⟨front, code, back, rfl, rfl, rfl, nested, ends⟩ := h
  obtain ⟨before, behind, split, rfl⟩ := Text.at?_eq_some opens
  rw [List.append_assoc] at split
  obtain ⟨mid, rfl, hmid⟩ := Text.exists_between split ge
  rw [Text.size_append] at le
  obtain ⟨more, rfl, hmore⟩ := Text.exists_between hmid.symm (by omega)
  cases more with
  | nil =>
    rcases ends with rfl | ⟨c, rest, rfl, l, rfl⟩
    · simp at hmore
    · obtain ⟨same, -⟩ := List.cons.inj hmore
      exact absurd same (Bracket.opener_ne_closer k l)
  | cons c more =>
    obtain ⟨rfl, rfl⟩ := List.cons.inj hmore
    refine ⟨front ++ mid, more, back, by simp, rfl, ?_, mid, nested⟩
    rw [Text.size_append, Text.size_append, Nat.add_assoc]

/-- A bracket that opens in the region is closed in it, and what it encloses is such a region. -/
theorem Held.exists_close (h : Held text first limit) (ge : first ≤ pos) (le : pos ≤ limit)
    (opens : Text.at? text pos = some k.opener) :
    ∃ close, findMatchingBefore? text pos limit k.opener k.closer = some close ∧
      Held text (pos + 1) close := by
  obtain ⟨front, more, back, rfl, rfl, rfl, mid, nested⟩ := h.exists_opener ge le opens
  obtain ⟨inner, rest, rfl, enclosed⟩ := nested.exists_partner
  have whole : front ++ k.opener :: (inner ++ k.closer :: rest) ++ back =
      front ++ k.opener :: (inner ++ k.closer :: (rest ++ back)) := by simp
  refine ⟨Text.size front + 1 + Text.size inner, ?_, ?_⟩
  · rw [findMatchingBefore?_eq_some, whole]
    refine ⟨findMatching?_wellNested enclosed, ?_⟩
    have width := k.closer.utf8Size_pos
    simp only [Text.size_append, Text.size_cons, Bracket.opener_utf8Size]
    omega
  · refine ⟨front ++ [k.opener], inner, k.closer :: (rest ++ back), by simp, ?_, rfl, enclosed,
      .inr ⟨k.closer, rest ++ back, rfl, k, rfl⟩⟩
    rw [Text.size_append, Text.size_cons, Text.size_nil, Bracket.opener_utf8Size]

theorem WellNested.exists_close (h : WellNested text) (opens : Text.at? text pos = some k.opener) :
    ∃ close, findMatching? text pos k.opener k.closer = some close ∧ Held text (pos + 1) close := by
  obtain ⟨front, back, split, size⟩ := Text.at?_eq_some opens
  have le : pos ≤ Text.size text := by
    rw [split, Text.size_append]
    omega
  obtain ⟨close, found, inner⟩ := h.held.exists_close (Nat.zero_le pos) le opens
  exact ⟨close, (findMatchingBefore?_eq_some.mp found).1, inner⟩

/-- Passing over blanks does not leave the region. -/
theorem Held.skipBlanks?_le {m : MaskedSource} {next : Nat} (h : Held m.masked first limit)
    (le : pos ≤ limit) (skip : m.skipBlanks? pos = some next) : next ≤ limit := by
  obtain ⟨front, code, back, split, rfl, rfl, -, ends⟩ := h
  rw [← Text.size_append] at le ⊢
  rcases ends with rfl | ⟨c, rest, rfl, k, rfl⟩
  · rw [List.append_nil] at split
    rw [← split] at le ⊢
    exact MaskedSource.skipBlanks?_le_size le skip
  · refine MaskedSource.skipBlanks?_le skip ?_ (Bracket.isBlank_closer k) le
    rw [split]
    exact at?_append _ _ _

end SourceTree.Scan
