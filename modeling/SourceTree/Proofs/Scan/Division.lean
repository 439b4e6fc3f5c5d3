import Mathlib
import SourceTree.Proofs.Scan.Join

/-!
What a splitter makes of a text. Of any text, however its brackets stand, it keeps all but blanks and
separators. Where the brackets nest, the depth that it counts is the number of brackets that are still
to be closed, so the text falls apart exactly at the separators outside of brackets, and what was
joined from such texts falls apart into them again. Main statement: `splitTopLevel_divides`.
-/

namespace SourceTree.Scan

variable {separator c : Char} {angles : Bool} {text w front back : Text} {ws : List Text}
  {pending : List Char} {gap offset : Nat} {s : Span}

/-! ### Any text -/

/-- Pieces of a text without blanks at their ends, in order and apart. What lies outside of them are
blanks and separators. -/
structure Divides (separator : Char) (text : Text) (spans : List Span) : Prop where
  full : ∀ s ∈ spans, s.text ≠ []
  trimmed : ∀ s ∈ spans, Text.trim s.text = s.text
  slices : ∀ s ∈ spans, Text.slice? text s.start s.stop = some s.text
  apart : spans.Pairwise fun s t => s.stop < t.start
  covers : ∀ front c back, text = front ++ c :: back → Text.isBlank c = false → c ≠ separator →
    ∃ s ∈ spans, s.start ≤ Text.size front ∧ Text.size front + c.utf8Size ≤ s.stop

theorem trim_trim (cs : Text) : Text.trim (Text.trim cs) = Text.trim cs := by
  obtain ⟨-, -, -, -, -, -, empty | ⟨opens, closes⟩⟩ := Text.trim_parts cs
  · rw [empty]
    rfl
  · exact Text.trim_of_solid opens closes

theorem size_trim_le (w : Text) : Text.blankSize w + Text.size (Text.trim w) ≤ Text.size w := by
  obtain ⟨lead, tail, split, size, -⟩ := Text.trim_parts w
  have sizes := congrArg Text.size split
  rw [Text.size_append, Text.size_append, size] at sizes
  omega

/-- Trimming keeps every character that is no blank. -/
theorem trim_covers (inked : Text.isBlank c = false) (split : w = front ++ c :: back) :
    Text.blankSize w ≤ Text.size front ∧
      Text.size front + c.utf8Size ≤ Text.blankSize w + Text.size (Text.trim w) := by
  obtain ⟨lead, tail, parts, size, first, last, -⟩ := Text.trim_parts w
  have not_first : c ∉ lead := fun mem => by simp [first c mem] at inked
  have not_last : c ∉ tail.reverse := fun mem => by
    simp [last c (List.mem_reverse.mp mem)] at inked
  have forwards : lead ++ (Text.trim w ++ tail) = front ++ c :: back := by
    rw [← split, ← List.append_assoc, ← parts]
  have backwards : tail.reverse ++ (lead ++ Text.trim w).reverse =
      back.reverse ++ c :: front.reverse := by
    simpa using congrArg List.reverse (parts.symm.trans split)
  obtain ⟨between, ahead⟩ := Text.prefix_of_not_mem forwards not_first
  obtain ⟨between', behind⟩ :=
    List.reverse_prefix.mp (Text.prefix_of_not_mem backwards not_last)
  have sizes := congrArg Text.size (parts.symm.trans split)
  rw [← ahead, ← behind] at *
  simp only [Text.size_append, Text.size_cons] at sizes ⊢
  omega

theorem le_start_of_mem_placePieces (h : s ∈ placePieces gap offset ws) : offset ≤ s.start := by
  induction ws generalizing offset with
  | nil => cases h
  | cons w ws ih =>
    rcases List.mem_cons.mp h with rfl | h
    · exact Nat.le_add_right ..
    · have later := ih h
      omega

theorem pairwise_placePieces (wide : 0 < gap) (offset : Nat) (ws : List Text) :
    (placePieces gap offset ws).Pairwise fun s t => s.stop < t.start := by
  induction ws generalizing offset with
  | nil => exact .nil
  | cons w ws ih =>
    refine List.pairwise_cons.mpr ⟨fun t ht => ?_, ih _⟩
    have later := le_start_of_mem_placePieces ht
    have inside := size_trim_le w
    simp only [Span.stop]
    omega

/-- The first piece covers what is neither blank nor outside of it. -/
theorem placePieces_covers_first (inked : Text.isBlank c = false) (split : w = front ++ c :: back)
    (gap offset : Nat) (ws : List Text) :
    ∃ s ∈ placePieces gap offset (w :: ws),
      s.start ≤ offset + Text.size front ∧ offset + Text.size front + c.utf8Size ≤ s.stop := by
  obtain ⟨first, last⟩ := trim_covers inked split
  refine ⟨_, List.mem_cons_self, Nat.add_le_add_left first _, ?_⟩
  simp only [Span.stop]
  omega

/-- Every character of the joined text that is neither blank nor a separator lies in a piece. -/
theorem placePieces_covers (offset : Nat) (inked : Text.isBlank c = false) (ne : c ≠ separator)
    (split : [separator].intercalate ws = front ++ c :: back) :
    ∃ s ∈ placePieces separator.utf8Size offset ws,
      s.start ≤ offset + Text.size front ∧ offset + Text.size front + c.utf8Size ≤ s.stop := by
  induction ws generalizing offset front with
  | nil => simp at split
  | cons w ws ih =>
    cases ws with
    | nil => exact placePieces_covers_first inked (by simpa using split) _ _ []
    | cons v ws =>
      rw [List.intercalate_cons_cons, List.append_assoc, List.singleton_append] at split
      rcases List.append_eq_append_iff.mp split with ⟨more, rfl, rest⟩ | ⟨more, first, rest⟩
      · cases more with
        | nil => exact absurd (List.cons.inj rest).1.symm ne
        | cons x more =>
          obtain ⟨rfl, later⟩ := List.cons.inj rest
          obtain ⟨s, mem, start, stop⟩ := ih (offset + Text.size w + separator.utf8Size) later
          refine ⟨s, List.mem_cons_of_mem _ mem, ?_⟩
          rw [Text.size_append, Text.size_cons]
          omega
      · cases more with
        | nil => exact absurd (List.cons.inj rest).1 ne
        | cons x more =>
          obtain ⟨rfl, -⟩ := List.cons.inj rest
          exact placePieces_covers_first inked first _ _ _

/-- Whatever the text, a splitter loses nothing but blanks and separators. -/
theorem divides_splitTopLevel (separator : Char) (angles : Bool) (text : Text) :
    Divides separator text (splitTopLevel text separator angles) := by
  have joined := intercalate_cutTopLevel separator angles 0 text
  refine ⟨?_, ?_, fun s hs => (splitTopLevel_slice hs).1, ?_, ?_⟩
  · intro s hs
    simpa using (List.mem_filter.mp hs).2
  · intro s hs
    obtain ⟨piece, -, same⟩ := exists_of_mem_placePieces (List.mem_filter.mp hs).1
    rw [same, trim_trim]
  · exact (pairwise_placePieces separator.utf8Size_pos _ _).filter _
  · intro front c back split inked ne
    obtain ⟨s, mem, start, stop⟩ :=
      placePieces_covers 0 inked ne (joined.trans split)
    have full : s.text ≠ [] := by
      intro empty
      have pos := c.utf8Size_pos
      simp only [Span.stop, empty, Text.size_nil] at stop
      omega
    rw [Nat.zero_add] at start stop
    exact ⟨s, List.mem_filter.mpr ⟨mem, by simpa using full⟩, start, stop⟩

/-! ### Nested texts -/

theorem Nesting.mono {kinds : List (Char × Char)} {p q : Char → Bool}
    (imp : ∀ c, p c = true → q c = true) (h : Nesting kinds p pending w) :
    Nesting kinds q pending w := by
  induction w generalizing pending with
  | nil =>
    obtain rfl := h.nil
    exact nests_nil
  | cons c w ih =>
    obtain ⟨next, step, here, le, inside⟩ := Nesting.cons_iff.mp h
    exact Nesting.cons_iff.mpr ⟨next, step, here.imp_left (imp c), le, ih inside⟩

theorem shallowFrom_of_append {kinds : List (Char × Char)} {v : Text}
    (h : shallowFrom kinds pending (w ++ v) = true) : shallowFrom kinds pending w = true := by
  induction w generalizing pending with
  | nil =>
    cases v with
    | nil => exact h
    | cons c v =>
      simp only [List.nil_append, shallowFrom, Bool.and_eq_true] at h ⊢
      exact h.1
  | cons c w ih =>
    simp only [List.cons_append, shallowFrom, Bool.and_eq_true] at h ⊢
    refine ⟨h.1, ?_⟩
    cases step : awaited? kinds pending c with
    | none => rfl
    | some next =>
      rw [step] at h
      exact ih h.2

/-- Every bracket has its partner, and pairs do not cross. -/
def Balanced (angles : Bool) (w : Text) : Prop :=
  nestsFrom (counted angles) (fun _ => true) [] w = true

instance (angles : Bool) : DecidablePred (Balanced angles) :=
  fun _ => inferInstanceAs (Decidable (_ = true))

/-- No more brackets are open at once than a counter of 32 bits reaches. -/
def Shallow (angles : Bool) (w : Text) : Prop := shallowFrom (counted angles) [] w = true

instance (angles : Bool) : DecidablePred (Shallow angles) :=
  fun _ => inferInstanceAs (Decidable (_ = true))

/-- Behind a text that closes all brackets the splitter goes on as if it began there. -/
theorem cutTopLevel_append (plain : isPlain (counted angles) separator = true)
    (h : Nesting (counted angles) (fun _ => true) pending w) (t : Text) :
    cutTopLevel separator angles (Int32.ofNat pending.length) (w ++ separator :: t) =
      cutTopLevel separator angles (Int32.ofNat pending.length) w ++
        cutTopLevel separator angles 0 t := by
  induction w generalizing pending with
  | nil =>
    obtain rfl := h.nil
    exact cutTopLevel_separator plain t
  | cons c w ih =>
    obtain ⟨next, step, -, le, closes⟩ := Nesting.cons_iff.mp h
    rw [List.cons_append, cutTopLevel, cutTopLevel]
    split
    next cut =>
      obtain ⟨rfl, -⟩ := cut
      obtain rfl := eq_of_awaited? plain step
      rw [ih closes, List.cons_append]
    next =>
      rw [depthAfter_awaited? step le, ih closes]
      cases pieces : cutTopLevel separator angles (Int32.ofNat next.length) w with
      | nil => exact absurd pieces (cutTopLevel_ne_nil _ _ _ _)
      | cons piece rest => rfl

/-- The first raw piece closes the brackets that are open in front of it, the others close their own,
and in all of them the separators stand in brackets. -/
theorem nests_cutTopLevel (plain : isPlain (counted angles) separator = true)
    (h : Nesting (counted angles) (fun _ => true) pending w) :
    ∃ first rest,
      cutTopLevel separator angles (Int32.ofNat pending.length) w = first :: rest ∧
        Nesting (counted angles) (· != separator) pending first ∧
        ∀ v ∈ rest, Nests (counted angles) (· != separator) v := by
  induction w generalizing pending with
  | nil =>
    obtain rfl := h.nil
    exact ⟨[], [], rfl, nests_nil, by simp⟩
  | cons c w ih =>
    obtain ⟨next, step, -, le, closes⟩ := Nesting.cons_iff.mp h
    obtain ⟨first, rest, pieces, nests, others⟩ := ih closes
    rw [cutTopLevel]
    split
    next cut =>
      obtain ⟨rfl, shallow, -⟩ := cut
      obtain rfl := eq_of_awaited? plain step
      obtain rfl := List.eq_nil_of_length_eq_zero ((Counter.le_zero_iff le).mp shallow)
      refine ⟨[], first :: rest, by rw [pieces], nests_nil, ?_⟩
      exact List.forall_mem_cons.mpr ⟨nests, others⟩
    next inside =>
      refine ⟨c :: first, rest, by rw [depthAfter_awaited? step le, pieces], ?_, others⟩
      refine Nesting.cons_iff.mpr ⟨next, step, ?_, le, nests⟩
      by_cases same : c = separator
      · -- A separator that is not cut at stands in brackets.
        subst same
        have deep : pending ≠ [] := by
          rintro rfl
          exact inside ⟨rfl, Int32.le_refl 0, by rw [isBracket_plain plain]; rfl⟩
        exact .inr fun empty => deep (List.append_eq_nil_iff.mp empty).1
      · exact .inl (bne_iff_ne.mpr same)

/-- One of the seams between the pieces lies behind this front. -/
def Seam (separator : Char) (ws : List Text) (front : Text) : Prop :=
  ∃ before after, before ≠ [] ∧ after ≠ [] ∧ ws = before ++ after ∧
    front = [separator].intercalate before

theorem nests_intercalate (plain : isPlain (counted angles) separator = true)
    (each : ∀ w ∈ ws, Nests (counted angles) (fun _ => true) w) :
    Nests (counted angles) (fun _ => true) ([separator].intercalate ws) := by
  have single : Nests (counted angles) (fun _ => true) [separator] :=
    nests_of_plain (by simpa using plain)
  induction ws with
  | nil => exact nests_nil
  | cons w ws ih =>
    have first := each w List.mem_cons_self
    cases ws with
    | nil => simpa using first
    | cons v ws =>
      rw [List.intercalate_cons_cons]
      exact (first.append single).append (ih fun x hx => each x (List.mem_cons_of_mem _ hx))

/-- A balanced text is cut at exactly those separators that stand outside of brackets. -/
theorem seam_iff_balanced (plain : isPlain (counted angles) separator = true)
    (h : Balanced angles text) (shallow : Shallow angles text)
    (split : text = front ++ separator :: back) :
    Seam separator (cutTopLevel separator angles 0 text) front ↔ Balanced angles front := by
  constructor
  · rintro ⟨before, after, -, -, pieces, rfl⟩
    have whole : Nests (counted angles) (fun _ => true) text := ⟨h, shallow⟩
    obtain ⟨first, rest, cut, nests, others⟩ := nests_cutTopLevel plain whole
    refine (nests_intercalate plain fun w hw =>
      Nesting.mono (p := (· != separator)) (fun _ _ => rfl) ?_).closes
    have mem : w ∈ first :: rest := by
      rw [← cut]
      exact pieces ▸ List.mem_append_left after hw
    rcases List.mem_cons.mp mem with rfl | mem
    · exact nests
    · exact others w mem
  · intro balanced
    refine ⟨cutTopLevel separator angles 0 front, cutTopLevel separator angles 0 back,
      cutTopLevel_ne_nil _ _ _ _, cutTopLevel_ne_nil _ _ _ _, ?_,
      (intercalate_cutTopLevel _ _ _ _).symm⟩
    rw [split] at shallow ⊢
    exact cutTopLevel_append plain ⟨balanced, shallowFrom_of_append shallow⟩ back

/-! ### Joined texts -/

/-- The separators all stand in brackets exactly if none stands behind a front that closes all that is
open. -/
theorem nestsFrom_iff (plain : isPlain (counted angles) separator = true) :
    nestsFrom (counted angles) (· != separator) pending w = true ↔
      nestsFrom (counted angles) (fun _ => true) pending w = true ∧
      ∀ front back, w = front ++ separator :: back →
        nestsFrom (counted angles) (fun _ => true) pending front ≠ true := by
  induction w generalizing pending with
  | nil => simp [nestsFrom]
  | cons c w ih =>
    constructor
    · intro h
      obtain ⟨next, step, here, inside⟩ := nestsFrom_cons_iff.mp h
      obtain ⟨nests, later⟩ := ih.mp inside
      refine ⟨nestsFrom_cons_iff.mpr ⟨next, step, .inl rfl, nests⟩, fun front back split closes => ?_⟩
      cases front with
      | nil =>
        obtain ⟨rfl, -⟩ := List.cons.inj split
        obtain rfl := eq_of_awaited? plain step
        obtain rfl := nestsFrom_nil.mp closes
        simp at here
      | cons x front =>
        obtain ⟨rfl, rest⟩ := List.cons.inj split
        rw [nestsFrom_cons step, Bool.and_eq_true] at closes
        exact later front back rest closes.2
    · rintro ⟨h, later⟩
      obtain ⟨next, step, -, nests⟩ := nestsFrom_cons_iff.mp h
      refine nestsFrom_cons_iff.mpr ⟨next, step, ?_, ih.mpr ⟨nests, fun front back split closes => ?_⟩⟩
      · by_cases same : c = separator
        · subst same
          have deep : pending ≠ [] := fun empty => later [] w rfl (nestsFrom_nil.mpr empty)
          exact .inr fun empty => deep (List.append_eq_nil_iff.mp empty).1
        · exact .inl (bne_iff_ne.mpr same)
      · refine later (c :: front) back (by rw [split, List.cons_append]) ?_
        exact nestsFrom_cons_iff.mpr ⟨next, step, .inl rfl, closes⟩

/-- A text that a splitter finds again between separators: it has no blanks at its ends, its brackets
nest, no deeper than a counter reaches, and no separator stands outside of them. -/
structure Unsplit (separator : Char) (angles : Bool) (w : Text) : Prop where
  full : w ≠ []
  trimmed : Text.trim w = w
  balanced : Balanced angles w
  shallow : Shallow angles w
  inside : ∀ front back, w = front ++ separator :: back → ¬Balanced angles front

theorem unsplit_iff (plain : isPlain (counted angles) separator = true) :
    Unsplit separator angles w ↔
      w ≠ [] ∧ Text.trim w = w ∧ Nests (counted angles) (· != separator) w := by
  constructor
  · intro h
    have closes := (nestsFrom_iff plain).mpr ⟨h.balanced, h.inside⟩
    exact ⟨h.full, h.trimmed, closes, h.shallow⟩
  · rintro ⟨full, trimmed, closes, shallow⟩
    obtain ⟨balanced, inside⟩ := (nestsFrom_iff plain).mp closes
    exact ⟨full, trimmed, balanced, shallow, inside⟩

theorem blankSize_of_trim (h : Text.trim w = w) : Text.blankSize w = 0 := by
  have inside := size_trim_le w
  rw [h] at inside
  omega

theorem cutTopLevel_intercalate (plain : isPlain (counted angles) separator = true)
    (full : ws ≠ []) (each : ∀ w ∈ ws, Nests (counted angles) (· != separator) w) :
    cutTopLevel separator angles 0 ([separator].intercalate ws) = ws := by
  induction ws with
  | nil => exact absurd rfl full
  | cons w ws ih =>
    have first := each w List.mem_cons_self
    cases ws with
    | nil => simpa using cutTopLevel_whole first
    | cons v ws =>
      rw [List.intercalate_cons_cons, List.append_assoc, List.singleton_append,
        cutTopLevel_piece plain first,
        ih (List.cons_ne_nil v ws) fun x hx => each x (List.mem_cons_of_mem _ hx)]

/-- Trimmed pieces are put where they stand in the joined text: behind the pieces in front of them and
as many separators. -/
theorem placePieces_trimmed (each : ∀ w ∈ ws, Text.trim w = w) :
    placePieces gap offset ws =
      ws.mapIdx fun k w => ⟨offset + ((ws.take k).map Text.size).sum + k * gap, w⟩ := by
  induction ws generalizing offset with
  | nil => rfl
  | cons w ws ih =>
    have trimmed := each w List.mem_cons_self
    rw [placePieces, trimmed, blankSize_of_trim trimmed, List.mapIdx_cons,
      ih fun v hv => each v (List.mem_cons_of_mem _ hv)]
    refine congrArg₂ List.cons (by simp) (congrArg (List.mapIdx · ws) ?_)
    funext k v
    rw [List.take_succ_cons, List.map_cons, List.sum_cons, Nat.succ_mul]
    congr 1
    omega

theorem splitTopLevel_intercalate (plain : isPlain (counted angles) separator = true)
    (each : ∀ w ∈ ws, Unsplit separator angles w) :
    splitTopLevel ([separator].intercalate ws) separator angles =
      ws.mapIdx fun k w => ⟨((ws.take k).map Text.size).sum + k * separator.utf8Size, w⟩ := by
  cases ws with
  | nil => rfl
  | cons w ws =>
    have nests : ∀ v ∈ w :: ws, Nests (counted angles) (· != separator) v :=
      fun v hv => ((unsplit_iff plain).mp (each v hv)).2.2
    rw [splitTopLevel, cutTopLevel_intercalate plain (List.cons_ne_nil w ws) nests,
      placePieces_trimmed fun v hv => (each v hv).trimmed]
    simp only [Nat.zero_add]
    refine List.filter_eq_self.mpr fun s hs => ?_
    obtain ⟨k, hk, rfl⟩ := List.mem_mapIdx.mp hs
    simpa using (each _ (List.getElem_mem hk)).full

/-- A splitter divides any text into trimmed pieces, each with the offset at which it stands, and
loses nothing but blanks and separators. If the separator is no bracket and the brackets of the text
nest, no deeper than a counter of 32 bits reaches, the pieces are what lies between the separators
outside of brackets; so it gives back what was joined from pieces that it does not split, each at the
place that it has there. -/
theorem splitTopLevel_divides (separator : Char) (angles : Bool) :
    (∀ text, Divides separator text (splitTopLevel text separator angles)) ∧
    (isPlain (counted angles) separator = true →
      (∀ text, Balanced angles text → Shallow angles text →
        ∃ ws, [separator].intercalate ws = text ∧
          splitTopLevel text separator angles =
            (placePieces separator.utf8Size 0 ws).filter (fun piece => !piece.text.isEmpty) ∧
          ∀ front back, text = front ++ separator :: back →
            (Seam separator ws front ↔ Balanced angles front)) ∧
      ∀ ws, (∀ w ∈ ws, Unsplit separator angles w) →
        splitTopLevel ([separator].intercalate ws) separator angles =
          ws.mapIdx fun k w => ⟨((ws.take k).map Text.size).sum + k * separator.utf8Size, w⟩) := by
  refine ⟨divides_splitTopLevel separator angles, fun plain => ⟨fun text balanced shallow => ?_, ?_⟩⟩
  · exact ⟨cutTopLevel separator angles 0 text, intercalate_cutTopLevel _ _ _ _, rfl,
      fun front back split => seam_iff_balanced plain balanced shallow split⟩
  · exact fun ws each => splitTopLevel_intercalate plain each

/-- The comma in angle brackets is no separator, the one between the pieces is. -/
theorem splitTopLevel_divides_types :
    isPlain (counted true) ',' = true ∧
    (∀ w ∈ ["Map<K, V>".toList, "é(a, b)".toList], Unsplit ',' true w) ∧
    splitTopLevel "Map<K, V>,é(a, b)".toList ',' true =
      [⟨0, "Map<K, V>".toList⟩, ⟨10, "é(a, b)".toList⟩] ∧
    Balanced true "Map<K, V>,é(a, b)".toList ∧ Shallow true "Map<K, V>,é(a, b)".toList ∧
    ∃ ws, [','].intercalate ws = "Map<K, V>,é(a, b)".toList ∧
      Seam ',' ws "Map<K, V>".toList ∧ ¬Seam ',' ws "Map<K".toList := by
  have plain : isPlain (counted true) ',' = true := by decide
  have unsplit : ∀ w ∈ ["Map<K, V>".toList, "é(a, b)".toList], Unsplit ',' true w := by
    intro w hw
    rw [unsplit_iff plain]
    revert w
    decide
  have balanced : Balanced true "Map<K, V>,é(a, b)".toList := by decide
  have shallow : Shallow true "Map<K, V>,é(a, b)".toList := by decide
  obtain ⟨cuts, joins⟩ := (splitTopLevel_divides ',' true).2 plain
  obtain ⟨ws, joined, -, seams⟩ := cuts _ balanced shallow
  refine ⟨plain, unsplit, joins _ unsplit, balanced, shallow, ws, joined, ?_, ?_⟩
  · exact (seams _ "é(a, b)".toList rfl).mpr (by decide)
  · exact fun seam => absurd ((seams _ " V>,é(a, b)".toList rfl).mp seam) (by decide)

end SourceTree.Scan
