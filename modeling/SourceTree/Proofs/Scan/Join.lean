import Mathlib.Data.List.Forall2
import SourceTree.Proofs.Scan.Counter
import SourceTree.Proofs.Scan.Split
import SourceTree.Proofs.Text.Spaced
import SourceTree.Scan.LogicalLine

/-!
Splitting a joined text. In a text whose brackets nest, no deeper than the counter reaches, the depth
that the splitter counts is the number of brackets that are still to be closed. So it cuts a list of
such texts exactly where they were joined, also if it works in a mask of the list.
-/

namespace SourceTree.Scan

open Text (Opens Closes)

/-! ### Nested brackets -/

/-- The brackets that a splitter minds, each with its closer. -/
def counted (angles : Bool) : List (Char × Char) :=
  [('(', ')'), ('[', ']'), ('\x7b', '\x7d')] ++ if angles then [('<', '>')] else []

/-- The closers that are awaited behind a character, the next one first; none if the character
closes a bracket that is not the innermost. -/
def awaited? (kinds : List (Char × Char)) (pending : List Char) (c : Char) : Option (List Char) :=
  match kinds.find? (·.1 == c) with
  | some k => some (k.2 :: pending)
  | none =>
    if kinds.any fun k => k.2 == c then
      match pending with
      | next :: rest => if c = next then some rest else none
      | [] => none
    else some pending

/-- Behind brackets that await these closers the text closes them all, and what it holds outside of
brackets is of the class `p`. -/
def nestsFrom (kinds : List (Char × Char)) (p : Char → Bool) : List Char → Text → Bool
  | pending, [] => pending.isEmpty
  | pending, c :: cs => match awaited? kinds pending c with
    | some next => (p c || !(pending ++ next).isEmpty) && nestsFrom kinds p next cs
    | none => false

/-- Behind brackets that await these closers no more brackets are ever open than a counter reaches. -/
def shallowFrom (kinds : List (Char × Char)) : List Char → Text → Bool
  | pending, [] => pending.length ≤ deepest
  | pending, c :: cs => pending.length ≤ deepest && match awaited? kinds pending c with
    | some next => shallowFrom kinds next cs
    | none => true

/-- Behind brackets that await these closers the text closes them all, what it holds outside of
brackets is of the class `p`, and its brackets nest no deeper than a counter reaches. -/
structure Nesting (kinds : List (Char × Char)) (p : Char → Bool) (pending : List Char) (w : Text) :
    Prop where
  closes : nestsFrom kinds p pending w = true
  shallow : shallowFrom kinds pending w = true

instance (kinds : List (Char × Char)) (p : Char → Bool) (pending : List Char) (w : Text) :
    Decidable (Nesting kinds p pending w) :=
  decidable_of_iff (nestsFrom kinds p pending w = true ∧ shallowFrom kinds pending w = true)
    ⟨fun h => ⟨h.1, h.2⟩, fun h => ⟨h.closes, h.shallow⟩⟩

/-- Every bracket has its partner, pairs do not cross, all that stands outside of brackets is of the
class `p`, and no more brackets are open at once than a counter of 32 bits reaches. -/
def Nests (kinds : List (Char × Char)) (p : Char → Bool) (w : Text) : Prop := Nesting kinds p [] w

instance (kinds : List (Char × Char)) (p : Char → Bool) : DecidablePred (Nests kinds p) :=
  fun w => inferInstanceAs (Decidable (Nesting kinds p [] w))

/-- No bracket of these kinds. -/
def isPlain (kinds : List (Char × Char)) (c : Char) : Bool :=
  kinds.all fun k => k.1 != c && k.2 != c

variable {kinds : List (Char × Char)} {p q : Char → Bool} {pending next : List Char} {c : Char}
  {w v t : Text}

/-- A character opens a bracket, closes the innermost one, or is none. -/
theorem awaited?_cases (h : awaited? kinds pending c = some next) :
    (∃ closer, (c, closer) ∈ kinds ∧ next = closer :: pending) ∨
      ((∃ opener, (opener, c) ∈ kinds) ∧ kinds.all (·.1 != c) = true ∧ pending = c :: next) ∨
      (isPlain kinds c = true ∧ next = pending) := by
  unfold awaited? at h
  split at h
  next k found =>
    have same := List.find?_some found
    obtain rfl := beq_iff_eq.mp same
    exact .inl ⟨k.2, List.mem_of_find?_eq_some found, (Option.some.inj h).symm⟩
  next none =>
    have opens : ∀ k ∈ kinds, (k.1 != c) = true := by simpa using none
    split at h
    next closes =>
      obtain ⟨⟨opener, _⟩, mem, same⟩ := List.any_eq_true.mp closes
      obtain rfl := beq_iff_eq.mp same
      split at h
      next first rest =>
        split at h
        next eq =>
          exact .inr (.inl ⟨⟨opener, mem⟩, List.all_eq_true.mpr opens, by rw [eq, Option.some.inj h]⟩)
        next => cases h
      next => cases h
    next other =>
      refine .inr (.inr ⟨List.all_eq_true.mpr fun k hk => ?_, (Option.some.inj h).symm⟩)
      have closes : (k.2 != c) = true := by
        simpa using fun same => other (List.any_eq_true.mpr ⟨k, hk, same⟩)
      rw [opens k hk, closes]
      rfl

theorem awaited?_plain (h : isPlain kinds c = true) : awaited? kinds pending c = some pending := by
  have each : ∀ k ∈ kinds, k.1 ≠ c ∧ k.2 ≠ c := by simpa [isPlain] using h
  have opens : kinds.find? (·.1 == c) = none := by simpa using fun a b hk => (each (a, b) hk).1
  have closes : kinds.any (fun k => k.2 == c) = false := by
    simpa using fun a b hk => (each (a, b) hk).2
  simp [awaited?, opens, closes]

/-- A character that is no bracket leaves what is awaited. -/
theorem eq_of_awaited? (plain : isPlain kinds c = true)
    (step : awaited? kinds pending c = some next) : pending = next :=
  Option.some.inj ((awaited?_plain plain).symm.trans step)

theorem nestsFrom_nil : nestsFrom kinds p pending [] = true ↔ pending = [] := List.isEmpty_iff

theorem nestsFrom_cons (step : awaited? kinds pending c = some next) (cs : Text) :
    nestsFrom kinds p pending (c :: cs) =
      ((p c || !(pending ++ next).isEmpty) && nestsFrom kinds p next cs) := by
  rw [nestsFrom, step]

/-- The first character of a nested text is in the class or in brackets, and the rest closes what is
awaited behind it. -/
theorem nestsFrom_cons_iff : nestsFrom kinds p pending (c :: w) = true ↔
    ∃ next, awaited? kinds pending c = some next ∧ (p c = true ∨ pending ++ next ≠ []) ∧
      nestsFrom kinds p next w = true := by
  cases step : awaited? kinds pending c with
  | none => simp [nestsFrom, step]
  | some next => simp [nestsFrom_cons step, imp_iff_not_or]

theorem shallowFrom_cons (step : awaited? kinds pending c = some next) :
    shallowFrom kinds pending (c :: w) = true ↔
      pending.length ≤ deepest ∧ shallowFrom kinds next w = true := by
  simp [shallowFrom, step]

theorem nests_nil : Nests kinds p [] := ⟨rfl, rfl⟩

namespace Nesting

theorem nil (h : Nesting kinds p pending []) : pending = [] := nestsFrom_nil.mp h.closes

theorem length_le (h : Nesting kinds p pending w) : pending.length ≤ deepest := by
  have shallow := h.shallow
  cases w with
  | nil => simpa [shallowFrom] using shallow
  | cons c w =>
    simp only [shallowFrom, Bool.and_eq_true, decide_eq_true_eq] at shallow
    exact shallow.1

theorem cons_iff : Nesting kinds p pending (c :: w) ↔
    ∃ next, awaited? kinds pending c = some next ∧ (p c = true ∨ pending ++ next ≠ []) ∧
      pending.length ≤ deepest ∧ Nesting kinds p next w := by
  constructor
  · rintro ⟨closes, shallow⟩
    obtain ⟨next, step, here, inside⟩ := nestsFrom_cons_iff.mp closes
    obtain ⟨le, below⟩ := (shallowFrom_cons step).mp shallow
    exact ⟨next, step, here, le, inside, below⟩
  · rintro ⟨next, step, here, le, inside⟩
    exact ⟨nestsFrom_cons_iff.mpr ⟨next, step, here, inside.closes⟩,
      (shallowFrom_cons step).mpr ⟨le, inside.shallow⟩⟩

theorem append (h : Nesting kinds p pending w) (hv : Nests kinds p v) :
    Nesting kinds p pending (w ++ v) := by
  induction w generalizing pending with
  | nil =>
    obtain rfl := h.nil
    exact hv
  | cons c w ih =>
    obtain ⟨next, step, here, le, inside⟩ := cons_iff.mp h
    exact cons_iff.mpr ⟨next, step, here, le, ih inside⟩

end Nesting

theorem Nests.append (hw : Nests kinds p w) (hv : Nests kinds p v) : Nests kinds p (w ++ v) :=
  Nesting.append hw hv

theorem nests_of_plain (h : ∀ c ∈ w, p c = true ∧ isPlain kinds c = true) : Nests kinds p w := by
  induction w with
  | nil => exact nests_nil
  | cons c w ih =>
    obtain ⟨kept, plain⟩ := h c (by simp)
    exact Nesting.cons_iff.mpr ⟨[], awaited?_plain plain, .inl kept, Nat.zero_le _,
      ih fun x hx => h x (by simp [hx])⟩

/-! ### Cutting between nested texts -/

theorem mem_counted {angles : Bool} {k : Char × Char} (h : k ∈ counted angles) :
    k = ('(', ')') ∨ k = ('[', ']') ∨ k = ('\x7b', '\x7d') ∨ angles = true ∧ k = ('<', '>') := by
  simp only [counted, List.mem_append, List.mem_cons, List.not_mem_nil, or_false] at h
  rcases h with (h | h | h) | h
  · exact .inl h
  · exact .inr (.inl h)
  · exact .inr (.inr (.inl h))
  · cases angles with
    | false => cases h
    | true => exact .inr (.inr (.inr ⟨rfl, List.mem_singleton.mp h⟩))

/-- A plain character is none of the brackets. -/
theorem ne_of_isPlain {angles : Bool} (h : isPlain (counted angles) c = true) :
    (c ≠ '(' ∧ c ≠ '[' ∧ c ≠ '\x7b') ∧ (c ≠ ')' ∧ c ≠ ']' ∧ c ≠ '\x7d') ∧
      (angles = true → c ≠ '<' ∧ c ≠ '>') := by
  have each : ∀ k ∈ counted angles, k.1 ≠ c ∧ k.2 ≠ c := by simpa [isPlain] using h
  have round := each ('(', ')') (by simp [counted])
  have square := each ('[', ']') (by simp [counted])
  have curly := each ('\x7b', '\x7d') (by simp [counted])
  refine ⟨⟨round.1.symm, square.1.symm, curly.1.symm⟩,
    ⟨round.2.symm, square.2.symm, curly.2.symm⟩, ?_⟩
  rintro rfl
  have angle := each ('<', '>') (by simp [counted])
  exact ⟨angle.1.symm, angle.2.symm⟩

theorem depthAfter_plain {angles : Bool} (h : isPlain (counted angles) c = true) (depth : Int32) :
    depthAfter angles depth c = depth := by
  obtain ⟨opens, closes, angle⟩ := ne_of_isPlain h
  rw [depthAfter, if_neg (by simp [opens]), if_neg (by simp [closes]),
    if_neg fun is => (angle is.1).1 is.2, if_neg fun is => (angle is.1).2 is.2.1]

theorem isBracket_plain {angles : Bool} (h : isPlain (counted angles) c = true) (depth : Int32) :
    isBracket angles depth c = false := by
  obtain ⟨opens, closes, angle⟩ := ne_of_isPlain h
  cases angles with
  | false => simp [isBracket, opens, closes]
  | true => simp [isBracket, opens, closes, angle rfl]

/-- The depth behind a character is the number of closers that are awaited there. -/
theorem depthAfter_awaited? {angles : Bool} (h : awaited? (counted angles) pending c = some next)
    (le : pending.length ≤ deepest) :
    depthAfter angles (Int32.ofNat pending.length) c = Int32.ofNat next.length := by
  rcases awaited?_cases h with ⟨closer, opens, rfl⟩ | ⟨⟨opener, closes⟩, -, rfl⟩ | ⟨plain, rfl⟩
  · rcases mem_counted opens with pair | pair | pair | ⟨rfl, pair⟩ <;>
      obtain ⟨rfl, -⟩ := Prod.mk.inj pair <;> simp [depthAfter]
  · have inside : 0 < Int32.ofNat next.length + 1 := Counter.succ_pos le
    rcases mem_counted closes with pair | pair | pair | ⟨rfl, pair⟩ <;>
      obtain ⟨-, rfl⟩ := Prod.mk.inj pair <;> simp [depthAfter, inside]
  · exact depthAfter_plain plain _

/-- A character that changes what is awaited counts as a bracket. -/
theorem isBracket_of_awaited? {angles : Bool} (h : awaited? (counted angles) pending c = some next)
    (le : pending.length ≤ deepest) (changes : next ≠ pending) :
    isBracket angles (Int32.ofNat pending.length) c = true := by
  rcases awaited?_cases h with ⟨closer, opens, rfl⟩ | ⟨⟨opener, closes⟩, -, rfl⟩ | ⟨plain, rfl⟩
  · rcases mem_counted opens with pair | pair | pair | ⟨rfl, pair⟩ <;>
      obtain ⟨rfl, -⟩ := Prod.mk.inj pair <;> simp [isBracket]
  · have inside : 0 < Int32.ofNat next.length + 1 := Counter.succ_pos le
    rcases mem_counted closes with pair | pair | pair | ⟨rfl, pair⟩ <;>
      obtain ⟨-, rfl⟩ := Prod.mk.inj pair <;> simp [isBracket, inside]
  · exact absurd rfl changes

theorem consLine_cons (c : Char) (w : Text) (pieces : List Text) (h : pieces ≠ []) :
    (match consLine w pieces with
      | [] => [[c]]
      | piece :: pieces => (c :: piece) :: pieces) = consLine (c :: w) pieces := by
  cases pieces with
  | nil => exact absurd rfl h
  | cons piece pieces => rfl

/-- No cut lies in a nested text whose separators all stand in brackets. -/
theorem cutTopLevel_nests {separator : Char} {angles : Bool}
    (h : Nesting (counted angles) (· != separator) pending w) (rest : Text) :
    cutTopLevel separator angles (Int32.ofNat pending.length) (w ++ rest) =
      consLine w (cutTopLevel separator angles 0 rest) := by
  induction w generalizing pending with
  | nil =>
    obtain rfl := h.nil
    show cutTopLevel separator angles 0 rest = consLine [] _
    cases pieces : cutTopLevel separator angles 0 rest with
    | nil => exact absurd pieces (cutTopLevel_ne_nil _ _ _ _)
    | cons piece pieces' => simp [consLine]
  | cons c w ih =>
    obtain ⟨next, step, here, le, closes⟩ := Nesting.cons_iff.mp h
    have inside : ¬(c = separator ∧ Int32.ofNat pending.length ≤ 0 ∧
        !isBracket angles (Int32.ofNat pending.length) c) := by
      rintro ⟨rfl, nothing, plain⟩
      obtain rfl := List.eq_nil_of_length_eq_zero ((Counter.le_zero_iff le).mp nothing)
      have changes : next ≠ [] := by simpa using here
      rw [isBracket_of_awaited? step le changes] at plain
      cases plain
    rw [List.cons_append, cutTopLevel, if_neg inside, depthAfter_awaited? step le, ih closes]
    exact consLine_cons c w _ (cutTopLevel_ne_nil _ _ _ _)

theorem cutTopLevel_separator {separator : Char} {angles : Bool}
    (plain : isPlain (counted angles) separator = true) (t : Text) :
    cutTopLevel separator angles 0 (separator :: t) = [] :: cutTopLevel separator angles 0 t := by
  rw [cutTopLevel, if_pos ⟨rfl, Int32.le_refl 0, by rw [isBracket_plain plain]; rfl⟩]

/-- A nested text whose separators all stand in brackets is cut off at the separator behind it. -/
theorem cutTopLevel_piece {separator : Char} {angles : Bool}
    (plain : isPlain (counted angles) separator = true)
    (h : Nests (counted angles) (· != separator) w) (t : Text) :
    cutTopLevel separator angles 0 (w ++ separator :: t) =
      w :: cutTopLevel separator angles 0 t := by
  have cut := cutTopLevel_nests h (separator :: t)
  rw [cutTopLevel_separator plain] at cut
  simpa [consLine] using cut

/-- What is placed is a piece without the blanks at its ends. -/
theorem exists_of_mem_placePieces {gap offset : Nat} {pieces : List Text} {s : Span}
    (h : s ∈ placePieces gap offset pieces) : ∃ piece ∈ pieces, s.text = Text.trim piece := by
  induction pieces generalizing offset with
  | nil => cases h
  | cons piece pieces ih =>
    rcases List.mem_cons.mp h with rfl | h
    · exact ⟨piece, by simp, rfl⟩
    · obtain ⟨raw, mem, same⟩ := ih h
      exact ⟨raw, by simp [mem], same⟩

/-! ### Joined texts -/

/-- Pieces in a source and in its mask, each with its mask, as they stand with separators between
them and with blanks around them. The last piece may be empty. -/
inductive Listed (separator : Char) : List (Text × Text) → Text → Text → Prop where
  | nil {u : Text} : (∀ c ∈ u, Text.isBlank c = true) → Listed separator [] u u
  | last {u v w m : Text} : (∀ c ∈ u, Text.isBlank c = true) → (∀ c ∈ v, Text.isBlank c = true) →
      Listed separator [(w, m)] (u ++ (w ++ v)) (u ++ (m ++ v))
  | cons {u v w m t k : Text} {ps : List (Text × Text)} : (∀ c ∈ u, Text.isBlank c = true) →
      (∀ c ∈ v, Text.isBlank c = true) → Listed separator ps t k →
      Listed separator ((w, m) :: ps) (u ++ (w ++ (v ++ separator :: t)))
        (u ++ (m ++ (v ++ separator :: k)))

/-- A piece that a splitter finds and gives back as it is: it has no blank at its ends, and its
separators stand in brackets. -/
structure Piece (separator : Char) (angles : Bool) (w m : Text) : Prop where
  size : Text.size m = Text.size w
  opens : Opens (fun c => Text.isBlank c = false) m
  closes : Closes (fun c => Text.isBlank c = false) m
  nests : Nests (counted angles) (· != separator) m

section

variable {separator : Char} {angles : Bool} {ps : List (Text × Text)} {m k u front : Text}

/-- A separator is no blank and no bracket. -/
structure Separates (separator : Char) (angles : Bool) : Prop where
  inked : Text.isBlank separator = false
  plain : isPlain (counted angles) separator = true

theorem comma_separates (angles : Bool) : Separates ',' angles := by
  cases angles <;> exact ⟨by decide, by decide⟩

/-- No bracket belongs to a class without brackets. -/
theorem isPlain_of_class (h : p c = true)
    (none : ∀ k ∈ counted angles, p k.1 = false ∧ p k.2 = false) :
    isPlain (counted angles) c = true := by
  have other (x : Char) (hx : p x = false) : (x != c) = true := by
    rw [bne_iff_ne]
    rintro rfl
    rw [h] at hx
    cases hx
  refine List.all_eq_true.mpr fun k hk => ?_
  rw [other _ (none k hk).1, other _ (none k hk).2]
  rfl

theorem isPlain_of_isBlank (h : Text.isBlank c = true) : isPlain (counted angles) c = true :=
  isPlain_of_class h (by cases angles <;> decide)

theorem isPlain_of_isWord (h : Text.isWord c = true) : isPlain (counted angles) c = true :=
  isPlain_of_class h (by cases angles <;> decide)

theorem Separates.nests_blank (sep : Separates separator angles)
    (h : ∀ c ∈ u, Text.isBlank c = true) : Nests (counted angles) (· != separator) u := by
  refine nests_of_plain fun c hc => ⟨?_, isPlain_of_isBlank (h c hc)⟩
  rw [bne_iff_ne]
  rintro rfl
  have inked := sep.inked
  rw [h c hc] at inked
  cases inked

theorem blankSize_gap (hu : ∀ c ∈ u, Text.isBlank c = true)
    (opens : Opens (fun c => Text.isBlank c = false) m) : Text.blankSize (u ++ m) = Text.size u := by
  obtain ⟨c, r, rfl, inked⟩ := opens
  rw [Text.blankSize, List.takeWhile_append_of_pos hu, List.takeWhile_cons_of_neg (by simp [inked]),
    List.append_nil]

/-- Trimming finds the piece between its blanks, at the offset where it begins. -/
theorem Piece.trimmed (h : Piece separator angles w m) (hu : ∀ c ∈ u, Text.isBlank c = true)
    (hv : ∀ c ∈ v, Text.isBlank c = true) :
    Text.trim (u ++ (m ++ v)) = m ∧ Text.blankSize (u ++ (m ++ v)) = Text.size u :=
  ⟨Text.trim_gaps hu hv h.opens h.closes, blankSize_gap hu (h.opens.append v)⟩

theorem Piece.filter_cons (h : Piece separator angles w m) (start : Nat) (spans : List Span) :
    (⟨start, m⟩ :: spans).filter (fun piece => !piece.text.isEmpty) =
      ⟨start, m⟩ :: spans.filter fun piece => !piece.text.isEmpty := by
  obtain ⟨c, r, rfl, -⟩ := h.opens
  rfl

/-- The piece stands in the source where its mask stands in the mask. -/
theorem Piece.slice (h : Piece separator angles w m) (front u back : Text) :
    Text.slice? (front ++ (u ++ (w ++ back))) (Text.size front + Text.size u)
      (Text.size front + Text.size u + Text.size m) = some w :=
  Text.slice?_eq_some_iff.mpr ⟨front ++ u, back, by simp, Text.size_append _ _, by rw [h.size]⟩

theorem Separates.nests_piece (sep : Separates separator angles) (h : Piece separator angles w m)
    (hu : ∀ c ∈ u, Text.isBlank c = true) (hv : ∀ c ∈ v, Text.isBlank c = true) :
    Nests (counted angles) (· != separator) (u ++ (m ++ v)) :=
  (sep.nests_blank hu).append (h.nests.append (sep.nests_blank hv))

theorem cutTopLevel_whole (h : Nests (counted angles) (· != separator) w) :
    cutTopLevel separator angles 0 w = [w] := by
  have cut := cutTopLevel_nests h []
  simpa [consLine, cutTopLevel] using cut

/-- A splitter finds each piece of a joined text, also behind a front that it does not see. -/
theorem Listed.placed (h : Listed separator ps t m) (sep : Separates separator angles)
    (pieces : ∀ p ∈ ps, Piece separator angles p.1 p.2) (front : Text) :
    List.Forall₂ (fun p s => s.text = p.2 ∧ Text.slice? (front ++ t) s.start s.stop = some p.1) ps
      ((placePieces separator.utf8Size (Text.size front) (cutTopLevel separator angles 0 m)).filter
        fun piece => !piece.text.isEmpty) := by
  induction h generalizing front with
  | @nil u hu =>
    have nothing : Text.trim u = [] := Text.trim_blank hu
    rw [cutTopLevel_whole (sep.nests_blank hu)]
    simp [placePieces, nothing]
  | @last u v w m hu hv =>
    have piece : Piece separator angles w m := pieces _ (List.mem_singleton_self _)
    obtain ⟨text, lead⟩ := piece.trimmed hu hv
    rw [cutTopLevel_whole (sep.nests_piece piece hu hv), placePieces, text, lead, placePieces,
      piece.filter_cons]
    exact .cons ⟨rfl, piece.slice front u v⟩ .nil
  | @cons u v w m t k ps hu hv _ ih =>
    have piece : Piece separator angles w m := pieces _ List.mem_cons_self
    obtain ⟨text, lead⟩ := piece.trimmed hu hv
    have cut : cutTopLevel separator angles 0 (u ++ (m ++ (v ++ separator :: k))) =
        (u ++ (m ++ v)) :: cutTopLevel separator angles 0 k := by
      simpa using cutTopLevel_piece sep.plain (sep.nests_piece piece hu hv) k
    have later := ih (fun p hp => pieces p (List.mem_cons_of_mem _ hp))
      (front ++ (u ++ (w ++ (v ++ [separator]))))
    have offset : Text.size (front ++ (u ++ (w ++ (v ++ [separator])))) =
        Text.size front + Text.size (u ++ (m ++ v)) + separator.utf8Size := by
      simp only [Text.size_append, Text.size_cons, Text.size_nil, piece.size]
      omega
    have whole : front ++ (u ++ (w ++ (v ++ [separator]))) ++ t =
        front ++ (u ++ (w ++ (v ++ separator :: t))) := by simp
    rw [offset, whole] at later
    rw [cut, placePieces, text, lead, piece.filter_cons]
    exact .cons ⟨rfl, piece.slice front u _⟩ later

/-- A splitter that works in the mask of a joined text finds the masks of the pieces, each where its
piece stands. -/
theorem Listed.splitTopLevel (h : Listed separator ps t m) (sep : Separates separator angles)
    (pieces : ∀ p ∈ ps, Piece separator angles p.1 p.2) :
    List.Forall₂ (fun p s => s.text = p.2 ∧ Text.slice? t s.start s.stop = some p.1) ps
      (splitTopLevel m separator angles) := h.placed sep pieces []

/-- What is read of each piece is read of the list. -/
theorem mapM_of_forall₂ {α β γ : Type} {R : α → β → Prop} {f : β → Option γ} {g : α → γ}
    {xs : List α} {ys : List β} (h : List.Forall₂ R xs ys)
    (each : ∀ x ∈ xs, ∀ y, R x y → f y = some (g x)) : ys.mapM f = some (xs.map g) := by
  induction h with
  | nil => rfl
  | @cons x y xs ys first _ ih =>
    have here := each x (by simp) y first
    have later := ih fun x hx => each x (by simp [hx])
    simp [List.mapM_cons, here, later]

/-- Pieces of a text that is its own mask. -/
def Joined (separator : Char) (ws : List Text) (t : Text) : Prop :=
  Listed separator (ws.map fun w => (w, w)) t t

/-- Pieces with the separator and a gap between neighbours, and with gaps around them all. -/
theorem joined_gaps {g : Text} (hg : ∀ c ∈ g, Text.isBlank c = true)
    (hu : ∀ c ∈ u, Text.isBlank c = true) (hv : ∀ c ∈ v, Text.isBlank c = true) (ws : List Text) :
    Joined separator ws (g ++ ((separator :: u).intercalate ws ++ v)) := by
  induction ws generalizing g with
  | nil =>
    refine .nil fun c hc => ?_
    rcases List.mem_append.mp hc with hc | hc
    · exact hg c hc
    · exact hv c (by simpa [List.intercalate] using hc)
  | cons w ws ih =>
    cases ws with
    | nil => simpa [Joined] using @Listed.last separator g v w w hg hv
    | cons next ws =>
      have piece := @Listed.cons separator g [] w w _ _ _ hg (by simp) (ih hu)
      simpa [Joined] using piece

theorem joined_intercalate (hu : ∀ c ∈ u, Text.isBlank c = true) (ws : List Text) :
    Joined separator ws ((separator :: u).intercalate ws) := by
  simpa using @joined_gaps [] separator u [] (by simp) hu (by simp) ws

/-- A splitter finds the pieces and nothing else. -/
theorem Joined.texts {ws : List Text} (h : Joined separator ws t) (sep : Separates separator angles)
    (pieces : ∀ w ∈ ws, Piece separator angles w w) :
    (Scan.splitTopLevel t separator angles).map Span.text = ws := by
  have found := h.splitTopLevel sep fun p hp => by
    obtain ⟨w, hw, rfl⟩ := List.mem_map.mp hp
    exact pieces w hw
  rw [List.forall₂_map_left_iff] at found
  clear h pieces
  generalize Scan.splitTopLevel t separator angles = spans at found
  induction found with
  | nil => rfl
  | cons same _ ih => rw [List.map_cons, same.1, ih]

end

end SourceTree.Scan
