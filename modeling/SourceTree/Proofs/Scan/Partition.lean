import Mathlib.Data.List.Chain
import SourceTree.Proofs.Scan.ByteCursor

/-!
Logical lines partition the source. The first begins at the start and each next one behind the newline
that ended the one before; what stands between them is that newline, perhaps with a carriage return, so
the lines and what stands behind the last one make up the source. A cursor over the bytes finds the
same lines, and all its places lie between characters. Main statement: `logicalLines_partition`.
-/

namespace SourceTree.Scan

open Text (bytes Boundary)

/-! ### The lines of a cursor -/

/-- The line of a span, without a carriage return in front of its end; none if the span cuts a
character. -/
def lineAt? (source : Text) (span : Range) : Option LogicalLine :=
  let stop :=
    if span.start < span.stop ∧ (bytes source)[span.stop - 1]? = some '\r'.toUInt8 then span.stop - 1
    else span.stop
  (Text.slice? source span.start stop).map (⟨span.start, ·⟩)

/-- The lines that a cursor finds which sets out at the start of the source. -/
def byteLines? (source : Text) : Option (List LogicalLine) :=
  (ByteCursor.lines (bytes source) ⟨0, 0, 0, none, []⟩).mapM (lineAt? source)

/-- The lines that pieces make: an empty last piece is none. -/
def linesOf (pieces : List Text) : List Text :=
  if pieces.getLast? = some [] then pieces.dropLast else pieces

variable {source pre cs : Text} {pieces : List Text} {line : LogicalLine}
  {lines : List LogicalLine} {offset : Nat}

theorem logicalLines_eq (source : Text) :
    logicalLines source = placeLines 0 (linesOf (cutLines .code 0 source)) := rfl

/-- The byte in front of the end of a piece shows whether the piece ends in a carriage return. -/
theorem carriage_iff (pre raw post : Text) :
    (Text.size pre < Text.size pre + Text.size raw ∧
      (bytes (pre ++ raw ++ post))[Text.size pre + Text.size raw - 1]? = some '\r'.toUInt8) ↔
      raw.getLast? = some '\r' := by
  rcases List.eq_nil_or_concat raw with rfl | ⟨init, c, rfl⟩
  · simp
  · rw [List.concat_eq_append]
    have pos : 0 < Text.size (init ++ [c]) := by
      rw [Text.size_concat]
      exact Nat.add_pos_right _ c.utf8Size_pos
    have inside : Text.size (pre ++ (init ++ [c])) - 1 < (bytes (pre ++ (init ++ [c]))).length := by
      rw [Text.length_bytes, Text.size_append]
      omega
    have last : (bytes (pre ++ (init ++ [c]) ++ post))[Text.size (pre ++ (init ++ [c])) - 1]? =
        (bytes (pre ++ (init ++ [c]))).getLast? := by
      rw [Text.bytes_append, List.getElem?_append_left inside, List.getLast?_eq_getElem?,
        Text.length_bytes]
    rw [← Text.size_append, last, Text.getLast?_bytes (by rfl), Text.size_append]
    simp [pos]

theorem lineAt?_piece (pre raw post : Text) :
    lineAt? (pre ++ raw ++ post) ⟨Text.size pre, Text.size pre + Text.size raw⟩ =
      some (LogicalLine.ofRaw (Text.size pre) raw) := by
  unfold lineAt? LogicalLine.ofRaw
  simp only [carriage_iff]
  split
  next carriage =>
    obtain ⟨stem, rfl⟩ := List.getLast?_eq_some_iff.mp carriage
    have size := Text.size_concat stem '\r'
    have one : '\r'.utf8Size = 1 := rfl
    have cut : Text.slice? (pre ++ (stem ++ ['\r']) ++ post) (Text.size pre)
        (Text.size pre + Text.size (stem ++ ['\r']) - 1) = some stem :=
      Text.slice?_eq_some_iff.mpr ⟨pre, '\r' :: post, by simp, rfl, by omega⟩
    rw [cut, List.dropLast_concat]
    rfl
  next =>
    have cut : Text.slice? (pre ++ raw ++ post) (Text.size pre) (Text.size pre + Text.size raw) =
        some raw := Text.slice?_eq_some_iff.mpr ⟨pre, post, rfl, rfl, rfl⟩
    rw [cut]
    rfl

theorem linesOf_cons (piece : Text) (full : pieces ≠ []) :
    linesOf (piece :: pieces) = piece :: linesOf pieces := by
  unfold linesOf
  obtain ⟨next, rest, rfl⟩ := List.exists_cons_of_ne_nil full
  rw [List.getLast?_cons_cons]
  split
  · rw [List.dropLast_cons_cons]
  · rfl

/-- The pieces with newlines between them are the text. -/
theorem intercalate_cutLines (st : LineState) (depth : Int32) (cs : Text) :
    ['\n'].intercalate (cutLines st depth cs) = cs := by
  generalize hn : cs.length = n
  induction n using Nat.strongRecOn generalizing st depth cs with
  | ind n ih =>
    obtain ⟨line, single, rfl | ⟨rest, rfl, cut, -⟩⟩ := cutLines_first st depth cs
    · simp [single]
    · have later := ih rest.length (by simp [← hn]; omega) .code 0 rest rfl
      obtain ⟨next, more, pieces⟩ := List.exists_cons_of_ne_nil (cutLines_ne_nil .code 0 rest)
      rw [cut]
      rw [pieces] at later ⊢
      rw [List.intercalate_cons_cons, later]
      simp

/-- The spans of the pieces of a text are those of its lines. -/
theorem mapM_spansFrom (split : source = pre ++ ['\n'].intercalate pieces) :
    (spansFrom (Text.size pre) (Text.size pre) pieces).mapM (lineAt? source) =
      some (placeLines (Text.size pre) (linesOf pieces)) := by
  induction pieces generalizing pre with
  | nil => simp [spansFrom, linesOf, placeLines]
  | cons piece pieces ih =>
    cases pieces with
    | nil =>
      have whole : source = pre ++ piece ++ [] := by simpa using split
      have line := lineAt?_piece pre piece []
      rw [← whole] at line
      rw [spansFrom, linesOf]
      by_cases empty : piece = []
      · simp [empty, placeLines]
      · have pos : 0 < Text.size piece :=
          Nat.pos_of_ne_zero fun zero => empty (Text.size_eq_zero zero)
        simp [empty, pos, line, placeLines]
    | cons next pieces =>
      rw [List.intercalate_cons_cons] at split
      have line := lineAt?_piece pre piece (['\n'] ++ ['\n'].intercalate (next :: pieces))
      have whole : source = pre ++ piece ++ ['\n'] ++ ['\n'].intercalate (next :: pieces) := by
        rw [split]
        simp
      have size : Text.size (pre ++ piece ++ ['\n']) = Text.size pre + Text.size piece + 1 := by
        rw [Text.size_append, Text.size_append]
        rfl
      have later := ih whole
      rw [size] at later
      rw [← List.append_assoc, ← whole] at line
      rw [spansFrom, linesOf_cons _ (List.cons_ne_nil _ _), placeLines, List.mapM_cons, line, later]
      rfl

/-- On every source the cursor comes to an end, its spans lie between characters, and its lines are
those of the line scanner. -/
theorem byteLines?_eq (source : Text) : byteLines? source = some (logicalLines source) := by
  have found := finds_cutLines (bytes source) .code 0 source trivial 0 0 0 [] rfl
    ((Nat.zero_add _).trans (Text.length_bytes source).symm)
  have split : source = [] ++ ['\n'].intercalate (cutLines .code 0 source) :=
    (intercalate_cutLines .code 0 source).symm
  rw [byteLines?, logicalLines_eq]
  exact (congrArg _ found).trans (mapM_spansFrom split)

/-! ### Lines and what stands behind them -/

/-- The lines make up the text that begins at the offset: each stands in front of a newline, perhaps
with a carriage return, and the last one may stand in front of none. -/
inductive Covers : Nat → Text → List LogicalLine → Prop where
  | nil (offset : Nat) : Covers offset [] []
  | last {offset : Nat} {line : LogicalLine} {ending : Text} : line.start = offset →
      line.text ++ ending ≠ [] → ending = [] ∨ ending = ['\r'] →
      Covers offset (line.text ++ ending) [line]
  | line {offset : Nat} {line : LogicalLine} {ending rest : Text} {lines : List LogicalLine} :
      line.start = offset → ending = ['\n'] ∨ ending = ['\r', '\n'] →
      Covers (line.stop + Text.size ending) rest lines →
      Covers offset (line.text ++ ending ++ rest) (line :: lines)

theorem covers_placeLines (offset : Nat) (pieces : List Text) :
    Covers offset (['\n'].intercalate pieces) (placeLines offset (linesOf pieces)) := by
  induction pieces generalizing offset with
  | nil => exact .nil offset
  | cons piece pieces ih =>
    obtain ⟨ending, he, parts⟩ := ofRaw_split offset piece
    cases pieces with
    | nil =>
      by_cases empty : piece = []
      · simpa [empty, linesOf, placeLines] using Covers.nil offset
      · have cover := @Covers.last offset (LogicalLine.ofRaw offset piece) ending rfl
          (by rwa [parts]) he
        rw [parts] at cover
        simpa [empty, linesOf, placeLines] using cover
    | cons next pieces =>
      have stop : (LogicalLine.ofRaw offset piece).stop + Text.size (ending ++ ['\n']) =
          offset + Text.size piece + 1 := by
        have sizes := congrArg Text.size parts
        rw [Text.size_append] at sizes
        have one : '\n'.utf8Size = 1 := rfl
        have start : (LogicalLine.ofRaw offset piece).start = offset := rfl
        rw [Text.size_concat, LogicalLine.stop, start]
        omega
      have later := ih (offset + Text.size piece + 1)
      rw [← stop] at later
      have cover := @Covers.line offset _ (ending ++ ['\n']) _ _ rfl
        (by rcases he with rfl | rfl <;> simp) later
      rw [← List.append_assoc, parts, stop] at cover
      rwa [List.intercalate_cons_cons, linesOf_cons _ (List.cons_ne_nil _ _), placeLines]

theorem logicalLines_covers (source : Text) : Covers 0 source (logicalLines source) := by
  have covers := covers_placeLines 0 (cutLines .code 0 source)
  rwa [intercalate_cutLines, ← logicalLines_eq] at covers

theorem Covers.first (h : Covers offset cs lines) (found : lines.head? = some line) :
    line.start = offset := by
  cases h with
  | nil => cases found
  | last start | line start =>
    cases found
    exact start

theorem size_stop (size : Text.size pre = line.start) :
    Text.size (pre ++ line.text) = line.stop := by
  rw [Text.size_append, size, LogicalLine.stop]

theorem slice?_to_end {front back : Text} {stop : Nat} (split : source = front ++ back)
    (size : Text.size front = stop) : Text.slice? source stop (Text.size source) = some back :=
  Text.slice?_eq_some_iff.mpr ⟨front, [], by simp [split], size, by rw [split, Text.size_append, size]⟩

/-- The newline behind a line ends it. -/
theorem endsAt_of_split {front ending rest : Text} (split : source = front ++ ending ++ rest)
    (size : Text.size front = line.stop) (ends : ending = ['\n'] ∨ ending = ['\r', '\n']) :
    ∃ p, line.EndsAt source p ∧ line.stop + Text.size ending = p + 1 := by
  have cut {p : Nat} (stop : line.stop + Text.size ending = p + 1) :
      Text.slice? source line.stop (p + 1) = some ending :=
    Text.slice?_eq_some_iff.mpr ⟨front, rest, split, size, stop⟩
  rcases ends with rfl | rfl
  · exact ⟨line.stop, .inl (cut rfl), rfl⟩
  · exact ⟨line.stop + 1, .inr (cut rfl), rfl⟩

/-- A line begins behind the newline that ended the one before. -/
theorem Covers.next (h : Covers offset cs lines) (split : source = pre ++ cs)
    (size : Text.size pre = offset) :
    lines.IsChain fun a b => ∃ p, a.EndsAt source p ∧ b.start = p + 1 := by
  induction h generalizing pre with
  | nil => exact .nil
  | last => exact .singleton _
  | @line offset line ending rest lines start ends later ih =>
    have whole : source = pre ++ line.text ++ ending ++ rest := by simp [split]
    have stop := size_stop (size.trans start.symm)
    obtain ⟨p, endsAt, behind⟩ := endsAt_of_split whole stop ends
    have chain := ih whole (by rw [Text.size_append, stop])
    cases lines with
    | nil => exact .singleton _
    | cons b lines => exact .cons_cons ⟨p, endsAt, (later.first rfl).trans behind⟩ chain

/-- No line begins at the end, be it behind a newline. -/
theorem Covers.start_lt (h : Covers offset cs lines) (mem : line ∈ lines) :
    line.start < offset + Text.size cs := by
  induction h with
  | nil => cases mem
  | @last offset line ending start full =>
    rw [List.mem_singleton.mp mem, start]
    have pos : Text.size (line.text ++ ending) ≠ 0 := fun zero => full (Text.size_eq_zero zero)
    omega
  | @line offset line ending rest lines start ends later ih =>
    have pos : 0 < Text.size ending := by
      rcases ends with rfl | rfl <;> decide
    rw [Text.size_append, Text.size_append]
    rcases List.mem_cons.mp mem with rfl | mem
    · omega
    · have lt := ih mem
      rw [LogicalLine.stop] at lt
      omega

/-- What may stand between the last line and the end. -/
def endings : List Text := [[], ['\r'], ['\n'], ['\r', '\n']]

/-- The text that lines make up with an ending behind the last one. Between two lines stands a newline,
with a carriage return in front of it where there is room for two. -/
def rejoin (ending : Text) : List LogicalLine → Text
  | [] => []
  | [last] => last.text ++ ending
  | line :: lines@(next :: _) =>
    line.text ++ (if next.start = line.stop + 1 then ['\n'] else ['\r', '\n']) ++ rejoin ending lines

/-- The lines and what stands behind the last one make up the text. -/
theorem Covers.rebuild (h : Covers offset cs lines) (split : source = pre ++ cs)
    (size : Text.size pre = offset) : ∃ ending ∈ endings, rejoin ending lines = cs ∧
      ∀ line, lines.getLast? = some line →
        Text.slice? source line.stop (Text.size source) = some ending := by
  induction h generalizing pre with
  | nil => exact ⟨[], by simp [endings], by rw [rejoin], by simp⟩
  | @last offset line ending start full ends =>
    have whole : source = pre ++ line.text ++ ending := by simp [split]
    have behind := slice?_to_end whole (size_stop (size.trans start.symm))
    refine ⟨ending, by rcases ends with rfl | rfl <;> simp [endings], by rw [rejoin], ?_⟩
    intro line' found
    obtain rfl : line = line' := by simpa using found
    exact behind
  | @line offset line ending rest lines start ends later ih =>
    have whole : source = pre ++ line.text ++ ending ++ rest := by simp [split]
    have stop := size_stop (size.trans start.symm)
    obtain ⟨final, mem, parts, last⟩ := ih whole (by rw [Text.size_append, stop])
    cases lines with
    | nil =>
      obtain rfl : [] = rest := by rwa [rejoin] at parts
      have behind := slice?_to_end (whole.trans (List.append_nil _)) stop
      refine ⟨ending, by rcases ends with rfl | rfl <;> simp [endings], by simp [rejoin], ?_⟩
      intro line' found
      obtain rfl : line = line' := by simpa using found
      exact behind
    | cons next lines =>
      have room : (if next.start = line.stop + 1 then ['\n'] else ['\r', '\n']) = ending := by
        rw [later.first rfl]
        rcases ends with rfl | rfl
        · exact if_pos rfl
        · exact if_neg (Nat.succ_ne_self (line.stop + 1))
      refine ⟨final, mem, by rw [rejoin, room, parts], fun line' found => last line' ?_⟩
      rwa [List.getLast?_cons_cons] at found

/-! ### Partitions -/

/-- The lines take the source apart so that nothing is lost and nothing is there twice. -/
structure Partitions (source : Text) (lines : List LogicalLine) : Prop where
  first : ∀ line, lines.head? = some line → line.start = 0
  next : lines.IsChain fun a b => ∃ p, a.EndsAt source p ∧ b.start = p + 1
  ordered : ∀ line ∈ lines, line.start ≤ line.contentStart ∧ line.contentStart ≤ line.stop
  boundaries : ∀ line ∈ lines, Boundary source line.start ∧ Boundary source line.contentStart ∧
    Boundary source line.stop
  shown : ∀ line ∈ lines, Text.slice? source line.start line.stop = some line.text
  /-- No line begins at the end, so a last newline that ends a line opens none. -/
  opened : ∀ line ∈ lines, line.start < Text.size source
  rebuilt : ∃ ending ∈ endings, rejoin ending lines = source ∧
    ∀ line, lines.getLast? = some line →
      Text.slice? source line.stop (Text.size source) = some ending

/-- A cursor over the bytes finds the logical lines of every source, and they partition it. -/
theorem logicalLines_partition (source : Text) :
    byteLines? source = some (logicalLines source) ∧ Partitions source (logicalLines source) := by
  have covers := logicalLines_covers source
  have text {line : LogicalLine} (mem : line ∈ logicalLines source) :
      Text.slice? source line.start line.stop = some line.text := (logicalLines_lie mem).slice_text
  have content {line : LogicalLine} (mem : line ∈ logicalLines source) :=
    Text.exists_slice?_iff.mp ⟨_, (logicalLines_lie mem).slice_content⟩
  refine ⟨byteLines?_eq source, ?_⟩
  exact {
    first := fun line found => covers.first found
    next := @Covers.next source [] source _ 0 covers rfl rfl
    ordered := fun line mem => ⟨Nat.le_add_right _ _, (content mem).1⟩
    boundaries := fun line mem => ⟨(Text.exists_slice?_iff.mp ⟨_, text mem⟩).2.1, (content mem).2⟩
    shown := fun line mem => text mem
    opened := fun line mem => by simpa using covers.start_lt mem
    rebuilt := @Covers.rebuild source [] source _ 0 covers rfl rfl }

end SourceTree.Scan
