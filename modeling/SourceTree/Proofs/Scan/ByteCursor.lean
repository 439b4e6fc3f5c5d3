import SourceTree.Proofs.Scan.Newline
import SourceTree.Proofs.Text.Bytes
import SourceTree.Scan.Block

/-!
Logical lines by a cursor over bytes. The cursor takes one, two or three bytes in a turn, a whole
comment, or none; behind a backslash it may come to stand inside of a wide character or past the end.
Every turn is progress all the same, so the cursor gets to the end of any bytes. In front of the bytes
of a text it makes the turns of the line scanner, which goes over characters, and what it finds are the
spans of the pieces into which the line scanner cuts the text. Main statement: `finds_cutLines`.
-/

namespace SourceTree.Scan

open Text (bytes)

/-! ### The cursor -/

/-- A cursor over the bytes of a source. -/
structure ByteCursor where
  offset : Nat
  lineStart : Nat
  depth : Int32
  /-- The quote of the literal in which the cursor stands and whether it is a triple one. -/
  literal : Option (UInt8 × Bool)
  /-- The spans of the lines that have ended. -/
  ended : List Range
  deriving DecidableEq, Repr

namespace ByteCursor

def forward (cur : ByteCursor) (n : Nat) : ByteCursor := { cur with offset := cur.offset + n }

/-- One turn of the cursor in front of a byte and the bytes behind it. -/
def turn (cur : ByteCursor) (b : UInt8) (behind : List UInt8) : ByteCursor :=
  match cur.literal with
  | some (quote, triple) =>
    if b = '\\'.toUInt8 then cur.forward 2
    else if triple then
      if b = quote ∧ [quote, quote].isPrefixOf behind then { cur.forward 3 with literal := none }
      else cur.forward 1
    else if b = quote then { cur.forward 1 with literal := none }
    -- The newline is left to the next turn.
    else if b = '\n'.toUInt8 then { cur with literal := none }
    else cur.forward 1
  | none =>
    if b = '#'.toUInt8 then
      cur.forward ((b :: behind).takeWhile (· ≠ '\n'.toUInt8)).length
    else if b = '\x22'.toUInt8 ∨ b = '\x27'.toUInt8 then
      if [b, b].isPrefixOf behind then { cur.forward 3 with literal := some (b, true) }
      else { cur.forward 1 with literal := some (b, false) }
    else if b = '('.toUInt8 ∨ b = '['.toUInt8 ∨ b = '\x7b'.toUInt8 then
      { cur.forward 1 with depth := cur.depth + 1 }
    else if b = ')'.toUInt8 ∨ b = ']'.toUInt8 ∨ b = '\x7d'.toUInt8 then
      { cur.forward 1 with depth := max (cur.depth - 1) 0 }
    else if b = '\\'.toUInt8 ∧ behind.head? = some '\n'.toUInt8 then cur.forward 2
    else if b = '\n'.toUInt8 ∧ cur.depth = 0 then
      { cur.forward 1 with
        lineStart := cur.offset + 1
        ended := cur.ended ++ [⟨cur.lineStart, cur.offset⟩] }
    else cur.forward 1

/-- What is left to do. A turn that takes no byte leaves a literal. -/
def left (bs : List UInt8) (cur : ByteCursor) : Nat :=
  2 * (bs.length - cur.offset) + cur.literal.isSome.toNat

theorem turn_left {bs behind : List UInt8} {cur : ByteCursor} {b : UInt8}
    (h : bs.drop cur.offset = b :: behind) : (cur.turn b behind).left bs < cur.left bs := by
  have inside : cur.offset < bs.length := by
    have len := congrArg List.length h
    rw [List.length_drop, List.length_cons] at len
    omega
  have further {n : Nat} (pos : 0 < n) (literal : Option (UInt8 × Bool)) :
      2 * (bs.length - (cur.offset + n)) + literal.isSome.toNat < cur.left bs := by
    have le := literal.isSome.toNat_le
    unfold left
    omega
  fun_cases turn cur b behind with
  | case5 quote triple literal => simp [left, literal]
  | case7 _ hash =>
    subst hash
    refine further ?_ _
    rw [List.takeWhile_cons_of_pos (by decide)]
    exact Nat.succ_pos _
  | _ => exact further (by decide) _

/-- The cursor at the end of the bytes, or past it. -/
def run (bs : List UInt8) (cur : ByteCursor) : ByteCursor :=
  match h : bs.drop cur.offset with
  | [] => cur
  | b :: behind =>
    have := turn_left h
    run bs (cur.turn b behind)
termination_by cur.left bs

/-- The spans of the lines; what the last newline leaves is a line unless it is empty. -/
def lines (bs : List UInt8) (cur : ByteCursor) : List Range :=
  let last := cur.run bs
  if last.lineStart < bs.length then last.ended ++ [⟨last.lineStart, bs.length⟩] else last.ended

theorem run_turn {bs behind : List UInt8} {cur : ByteCursor} {b : UInt8}
    (h : bs.drop cur.offset = b :: behind) : cur.run bs = (cur.turn b behind).run bs := by
  rw [run]
  split
  next none => rw [h] at none; cases none
  next b' behind' h' =>
    rw [h] at h'
    obtain ⟨rfl, rfl⟩ := List.cons.inj h'
    rfl

theorem run_end {bs : List UInt8} {cur : ByteCursor} (h : bs.drop cur.offset = []) :
    cur.run bs = cur := by
  rw [run]
  split
  next => rfl
  next b behind h' => rw [h] at h'; cases h'

theorem lines_of_run {bs : List UInt8} {cur cur' : ByteCursor} (h : cur.run bs = cur'.run bs) :
    cur.lines bs = cur'.lines bs := by
  simp only [lines, h]

/-! ### Turns in front of characters -/

section

variable {i start : Nat} {depth : Int32} {ended : List Range} {c quote : Char} {cs : Text} {b : UInt8}
  {behind : List UInt8} {triple : Bool}

theorem one_of_quote (proper : quote = '\x22' ∨ quote = '\x27') : quote.utf8Size = 1 := by
  rcases proper with rfl | rfl <;> rfl

/-- Two more quotes stand behind a quote exactly if their bytes do. -/
theorem doubled_iff (one : quote.utf8Size = 1) (first : bytes (c :: cs) = b :: behind) :
    c = quote ∧ [quote.toUInt8, quote.toUInt8].isPrefixOf behind ↔
      c = quote ∧ [quote, quote].isPrefixOf cs := by
  refine and_congr_right fun same => ?_
  rw [same, Text.bytes_cons_one one] at first
  rw [← (List.cons.inj first).2, ← Text.isPrefixOf_bytes (by simpa using one)]
  rfl

/-- The turn in a literal. -/
theorem turn_quoted (one : quote.utf8Size = 1) (first : bytes (c :: cs) = b :: behind) :
    turn ⟨i, start, depth, some (quote.toUInt8, triple), ended⟩ b behind =
      if c = '\\' then ⟨i + 2, start, depth, some (quote.toUInt8, triple), ended⟩
      else if triple then
        if c = quote ∧ [quote, quote].isPrefixOf cs then ⟨i + 3, start, depth, none, ended⟩
        else ⟨i + 1, start, depth, some (quote.toUInt8, triple), ended⟩
      else if c = quote then ⟨i + 1, start, depth, none, ended⟩
      else if c = '\n' then ⟨i, start, depth, none, ended⟩
      else ⟨i + 1, start, depth, some (quote.toUInt8, triple), ended⟩ := by
  have same {d : Char} (one : d.utf8Size = 1) : b = d.toUInt8 ↔ c = d := Text.first_eq_iff one first
  simp (disch := first | decide | exact one) only [turn, forward, same, doubled_iff one first]

/-- The turn outside of literals in front of a character other than a quote or the sign of a
comment. -/
theorem turn_code (first : bytes (c :: cs) = b :: behind) (hash : c ≠ '#')
    (quote : ¬(c = '\x22' ∨ c = '\x27')) :
    turn ⟨i, start, depth, none, ended⟩ b behind =
      if c = '(' ∨ c = '[' ∨ c = '\x7b' then ⟨i + 1, start, depth + 1, none, ended⟩
      else if c = ')' ∨ c = ']' ∨ c = '\x7d' then ⟨i + 1, start, max (depth - 1) 0, none, ended⟩
      else if c = '\\' ∧ cs.head? = some '\n' then ⟨i + 2, start, depth, none, ended⟩
      else if c = '\n' ∧ depth = 0 then ⟨i + 1, i + 1, depth, none, ended ++ [⟨start, i⟩]⟩
      else ⟨i + 1, start, depth, none, ended⟩ := by
  have same {d : Char} (one : d.utf8Size = 1) : b = d.toUInt8 ↔ c = d := Text.first_eq_iff one first
  have joins : c = '\\' ∧ behind.head? = some '\n'.toUInt8 ↔ c = '\\' ∧ cs.head? = some '\n' := by
    refine and_congr_right fun slash => ?_
    rw [slash, Text.bytes_cons_one (by rfl)] at first
    rw [← (List.cons.inj first).2, Text.head?_bytes (by rfl)]
  simp (disch := decide) only [turn, forward, same, joins, hash, quote, if_false]

theorem turn_hash (first : bytes ('#' :: cs) = b :: behind) :
    turn ⟨i, start, depth, none, ended⟩ b behind =
      ⟨i + ((bytes ('#' :: cs)).takeWhile (· ≠ '\n'.toUInt8)).length, start, depth, none,
        ended⟩ := by
  have hash : b = '#'.toUInt8 := (Text.first_eq_iff (by decide) first).mpr rfl
  rw [first, turn, if_pos hash]
  rfl

theorem turn_quote (proper : c = '\x22' ∨ c = '\x27') (first : bytes (c :: cs) = b :: behind) :
    turn ⟨i, start, depth, none, ended⟩ b behind =
      if [c, c].isPrefixOf cs then ⟨i + 3, start, depth, some (c.toUInt8, true), ended⟩
      else ⟨i + 1, start, depth, some (c.toUInt8, false), ended⟩ := by
  have one := one_of_quote proper
  obtain rfl : b = c.toUInt8 := (Text.first_eq_iff one first).mpr rfl
  have same {d : Char} (one : d.utf8Size = 1) : c.toUInt8 = d.toUInt8 ↔ c = d :=
    Text.first_eq_iff one first
  have doubled : [c.toUInt8, c.toUInt8].isPrefixOf behind = [c, c].isPrefixOf cs := by
    have h := doubled_iff one first
    simp only [true_and] at h
    exact Bool.eq_iff_iff.mpr h
  have hash : c ≠ '#' := (ne_quote proper (by decide)).symm
  simp (disch := decide) only [turn, forward, same, doubled, hash, proper, if_true, if_false]

/-- A byte that is no character by itself is passed alone. -/
theorem turn_foreign {literal : Option (UInt8 × Bool)}
    (foreign : ∀ d : Char, d.utf8Size = 1 → b ≠ d.toUInt8)
    (outside : ∀ quote triple, literal = some (quote, triple) → b ≠ quote) :
    turn ⟨i, start, depth, literal, ended⟩ b behind = ⟨i + 1, start, depth, literal, ended⟩ := by
  cases literal with
  | none => simp (disch := decide) only [turn, forward, foreign, or_self, false_and, if_false]
  | some literal =>
    obtain ⟨quote, triple⟩ := literal
    have ne := outside quote triple rfl
    simp (disch := decide) [turn, forward, foreign, ne]

end

end ByteCursor

/-! ### Moves -/

/-- The literal of a state of the line scanner, with the quote as a byte. -/
def LineState.literal : LineState → Option (UInt8 × Bool)
  | .quoted quote triple => some (quote.toUInt8, triple)
  | _ => none

/-- What a cursor still has ahead where the line scanner has this text; the line scanner goes through
a comment, the cursor passes it at once. -/
def LineState.pending : LineState → Text → Text
  | .comment, cs => cs.dropWhile (· ≠ '\n')
  | _, cs => cs

open ByteCursor

section

variable {bs : List UInt8} {st st' st'' : LineState} {depth depth' depth'' : Int32} {c quote : Char}
  {triple : Bool} {cs tail w : Text}

/-- On its line a cursor that has the first text ahead comes to have the second one ahead. -/
def Moves (bs : List UInt8) (st : LineState) (depth : Int32) (cs : Text) (st' : LineState)
    (depth' : Int32) (tail : Text) : Prop :=
  ∀ i start ended, bs.drop i = bytes (st.pending cs) → ∃ j,
    run bs ⟨i, start, depth, st.literal, ended⟩ = run bs ⟨j, start, depth', st'.literal, ended⟩ ∧
      bs.drop j = bytes (st'.pending tail)

theorem Moves.refl : Moves bs st depth cs st depth cs := fun i _ _ ahead => ⟨i, rfl, ahead⟩

theorem Moves.trans {mid : Text} (h : Moves bs st depth cs st' depth' mid)
    (h' : Moves bs st' depth' mid st'' depth'' tail) : Moves bs st depth cs st'' depth'' tail := by
  intro i start ended ahead
  obtain ⟨j, same, ahead⟩ := h i start ended ahead
  obtain ⟨k, same', ahead⟩ := h' j start ended ahead
  exact ⟨k, same.trans same', ahead⟩

/-- From inside a character the cursor goes on to its end. -/
theorem run_inner (proper : st.masking.Proper) {inner rest : List UInt8} (inside : Text.Inner inner)
    {i start : Nat} {ended : List Range} (ahead : bs.drop i = inner ++ rest) : ∃ j,
    run bs ⟨i, start, depth, st.literal, ended⟩ = run bs ⟨j, start, depth, st.literal, ended⟩ ∧
      bs.drop j = rest := by
  induction inner generalizing i with
  | nil => exact ⟨i, rfl, ahead⟩
  | cons b inner ih =>
    obtain ⟨here, later⟩ := List.forall_mem_cons.mp inside
    have outside : ∀ byte triple, st.literal = some (byte, triple) → b ≠ byte := by
      intro byte triple h
      cases st with
      | code | comment => cases h
      | quoted quote =>
        cases h
        exact here quote (one_of_quote proper)
    have next : bs.drop (i + 1) = inner ++ rest := by
      rw [← List.drop_drop, ahead]
      rfl
    obtain ⟨j, same, ahead'⟩ := ih later next
    refine ⟨j, ?_, ahead'⟩
    rw [run_turn ahead, turn_foreign here outside, same]

/-- A turn that takes the cursor over some bytes, perhaps into a character. -/
theorem Moves.turn (n : Nat) {inner : List UInt8} (proper : st'.masking.Proper)
    (shown : st.pending cs = c :: w)
    (turns : ∀ {i start ended b behind}, bytes (c :: w) = b :: behind →
      turn ⟨i, start, depth, st.literal, ended⟩ b behind =
        ⟨i + n, start, depth', st'.literal, ended⟩)
    (inside : Text.Inner inner)
    (rest : (bytes (c :: w)).drop n = inner ++ bytes (st'.pending tail)) :
    Moves bs st depth cs st' depth' tail := by
  intro i start ended ahead
  obtain ⟨b, behind, first⟩ := Text.exists_first c w
  rw [shown] at ahead
  have next : bs.drop (i + n) = inner ++ bytes (st'.pending tail) := by
    rw [← List.drop_drop, ahead, rest]
  rw [run_turn (ahead.trans first), turns first]
  exact run_inner proper inside next

/-- A turn that takes the first byte of a character takes the cursor over the character. -/
theorem Moves.char (proper : st'.masking.Proper) (shown : st.pending (c :: cs) = c :: cs)
    (shown' : st'.pending cs = cs)
    (turns : ∀ {i start ended b behind}, bytes (c :: cs) = b :: behind →
      ByteCursor.turn ⟨i, start, depth, st.literal, ended⟩ b behind =
        ⟨i + 1, start, depth', st'.literal, ended⟩) :
    Moves bs st depth (c :: cs) st' depth' cs := by
  refine .turn 1 proper shown turns (Text.inner_tail c) ?_
  rw [shown', Text.drop_one_bytes]

/-! Comments -/

theorem moves_hash : Moves bs .code depth ('#' :: cs) .comment depth cs := by
  refine .turn _ trivial rfl turn_hash Text.inner_nil ?_
  have behind := @List.drop_left _ ((bytes ('#' :: cs)).takeWhile (· ≠ '\n'.toUInt8))
    ((bytes ('#' :: cs)).dropWhile (· ≠ '\n'.toUInt8))
  rw [List.takeWhile_append_dropWhile] at behind
  rw [behind, Text.dropWhile_bytes (by rfl)]
  rfl

theorem moves_comment (newline : c ≠ '\n') :
    Moves bs .comment depth (c :: cs) .comment depth cs := by
  intro i start ended ahead
  refine ⟨i, rfl, ahead.trans ?_⟩
  simp [LineState.pending, newline]

theorem moves_comment_end : Moves bs .comment depth ('\n' :: cs) .code depth ('\n' :: cs) :=
  fun i _ _ ahead => ⟨i, rfl, ahead⟩

/-! Literals -/

theorem drop_quotes (proper : quote = '\x22' ∨ quote = '\x27') (cs : Text) :
    (bytes (quote :: quote :: quote :: cs)).drop 3 = bytes cs := by
  rcases proper with rfl | rfl <;> rfl

theorem moves_triple_start (proper : quote = '\x22' ∨ quote = '\x27') :
    Moves bs .code depth (quote :: quote :: quote :: cs) (.quoted quote true) depth cs := by
  refine .turn 3 proper rfl (fun first => ?_) Text.inner_nil (drop_quotes proper cs)
  exact (turn_quote proper first).trans (by simp [LineState.literal])

theorem moves_triple (proper : quote = '\x22' ∨ quote = '\x27') (slash : c ≠ '\\')
    (inside : ¬(c = quote ∧ [quote, quote].isPrefixOf cs)) :
    Moves bs (.quoted quote true) depth (c :: cs) (.quoted quote true) depth cs := by
  refine .char proper rfl rfl fun first => ?_
  refine (turn_quoted (one_of_quote proper) first).trans ?_
  rw [if_neg slash, if_pos rfl, if_neg inside]
  rfl

theorem moves_triple_end (proper : quote = '\x22' ∨ quote = '\x27') :
    Moves bs (.quoted quote true) depth (quote :: quote :: quote :: cs) .code depth cs := by
  have slash : quote ≠ '\\' := (ne_quote proper (by decide)).symm
  refine .turn 3 trivial rfl (fun first => ?_) Text.inner_nil (drop_quotes proper cs)
  exact (turn_quoted (one_of_quote proper) first).trans (by simp [slash, LineState.literal])

theorem moves_quoted_start (proper : c = '\x22' ∨ c = '\x27') (single : ¬[c, c].isPrefixOf cs) :
    Moves bs .code depth (c :: cs) (.quoted c false) depth cs := by
  refine .char proper rfl rfl fun first => ?_
  exact (turn_quote proper first).trans (by simp [single, LineState.literal])

theorem moves_quoted (proper : quote = '\x22' ∨ quote = '\x27') (slash : c ≠ '\\')
    (newline : c ≠ '\n') (inside : c ≠ quote) :
    Moves bs (.quoted quote false) depth (c :: cs) (.quoted quote false) depth cs := by
  refine .char proper rfl rfl fun first => ?_
  refine (turn_quoted (one_of_quote proper) first).trans ?_
  simp [slash, newline, inside, LineState.literal]

theorem moves_quoted_end (proper : quote = '\x22' ∨ quote = '\x27') :
    Moves bs (.quoted quote false) depth (quote :: cs) .code depth cs := by
  have slash : quote ≠ '\\' := (ne_quote proper (by decide)).symm
  refine .char trivial rfl rfl fun first => ?_
  exact (turn_quoted (one_of_quote proper) first).trans (by simp [slash, LineState.literal])

/-- The turn that ends a literal at the end of its line takes no byte. -/
theorem moves_unended (proper : quote = '\x22' ∨ quote = '\x27') :
    Moves bs (.quoted quote false) depth ('\n' :: cs) .code depth ('\n' :: cs) := by
  have inside : '\n' ≠ quote := ne_quote proper (by decide)
  refine .turn 0 trivial rfl (fun first => ?_) Text.inner_nil rfl
  exact (turn_quoted (one_of_quote proper) first).trans (by simp [inside, LineState.literal])

/-- A backslash in a literal takes the first byte of the next character with it. -/
theorem moves_escape {escaped : Char} (proper : quote = '\x22' ∨ quote = '\x27') :
    Moves bs (.quoted quote triple) depth ('\\' :: escaped :: cs) (.quoted quote triple) depth
      cs := by
  refine .turn 2 proper rfl (fun first => ?_) (Text.inner_tail escaped) ?_
  · exact (turn_quoted (one_of_quote proper) first).trans (if_pos rfl)
  · rw [Text.bytes_cons_one (by rfl), List.drop_succ_cons, Text.drop_one_bytes]
    rfl

/-- A backslash at the very end of a literal takes the cursor past the end. Any other character that
escapes nothing moves it as outside of escapes. -/
theorem moves_literal (proper : quote = '\x22' ∨ quote = '\x27')
    (plain : ∀ escaped more, c = '\\' → cs = escaped :: more → False)
    (moves : c ≠ '\\' → Moves bs (.quoted quote triple) depth (c :: cs) (.quoted quote triple)
      depth cs) :
    Moves bs (.quoted quote triple) depth (c :: cs) (.quoted quote triple) depth cs := by
  by_cases slash : c = '\\'
  · subst slash
    cases cs with
    | nil =>
      refine .turn 2 proper rfl (fun first => ?_) Text.inner_nil rfl
      exact (turn_quoted (one_of_quote proper) first).trans (if_pos rfl)
    | cons escaped more => exact absurd rfl (plain escaped more rfl)
  · exact moves slash

/-! Code -/

theorem moves_join : Moves bs .code depth ('\\' :: '\n' :: cs) .code depth cs := by
  refine .turn 2 trivial rfl (fun first => ?_) Text.inner_nil rfl
  exact (turn_code first (by decide) (by decide)).trans (by simp [LineState.literal])

/-- A character that ends nothing changes at most the depth. -/
theorem moves_code (next : countStep depth c = depth') (hash : c ≠ '#')
    (quote : ¬(c = '\x22' ∨ c = '\x27')) (join : c = '\\' → cs.head? ≠ some '\n')
    (newline : ¬(c = '\n' ∧ depth = 0)) : Moves bs .code depth (c :: cs) .code depth' cs := by
  refine .char trivial rfl rfl fun first => ?_
  have joins : ¬(c = '\\' ∧ cs.head? = some '\n') := fun h => join h.1 h.2
  refine (turn_code first hash quote).trans ?_
  rw [if_neg joins, if_neg newline, ← next, countStep]
  split
  · rfl
  · split <;> rfl

theorem moves_newline (inside : depth ≠ 0) : Moves bs .code depth ('\n' :: cs) .code depth cs :=
  moves_code rfl (by decide) (by decide) (by simp) fun h => inside h.2

end

/-! ### Lines -/

/-- The spans of pieces with a newline between neighbours. The first piece goes on with a line that
began at `start`; what is left of the last one is a line unless it is empty. -/
def spansFrom (start offset : Nat) : List Text → List Range
  | [] => []
  | [last] => if start < offset + Text.size last then [⟨start, offset + Text.size last⟩] else []
  | piece :: pieces@(_ :: _) =>
    ⟨start, offset + Text.size piece⟩ ::
      spansFrom (offset + Text.size piece + 1) (offset + Text.size piece + 1) pieces

theorem spansFrom_consLine (start offset : Nat) (w : Text) {pieces : List Text}
    (full : pieces ≠ []) :
    spansFrom start offset (consLine w pieces) = spansFrom start (offset + Text.size w) pieces := by
  match pieces with
  | [] => exact absurd rfl full
  | [piece] => simp [consLine, spansFrom, Text.size_append, Nat.add_assoc]
  | piece :: next :: pieces => simp [consLine, spansFrom, Text.size_append, Nat.add_assoc]

theorem spansFrom_nil_cons (start offset : Nat) {pieces : List Text} (full : pieces ≠ []) :
    spansFrom start offset ([] :: pieces) =
      ⟨start, offset⟩ :: spansFrom (offset + 1) (offset + 1) pieces := by
  match pieces with
  | [] => exact absurd rfl full
  | piece :: pieces => simp [spansFrom]

section

variable {bs : List UInt8} {st st' : LineState} {depth depth' : Int32} {cs tail : Text}

/-- A cursor with the text ahead finds these pieces in it. -/
def Finds (bs : List UInt8) (st : LineState) (depth : Int32) (cs : Text) (pieces : List Text) : Prop :=
  ∀ i start offset ended, bs.drop i = bytes (st.pending cs) → offset + Text.size cs = bs.length →
    lines bs ⟨i, start, depth, st.literal, ended⟩ = ended ++ spansFrom start offset pieces

theorem Finds.nil (none : st.pending [] = []) : Finds bs st depth [] [[]] := by
  intro i start offset ended ahead total
  rw [none] at ahead
  have last : offset + Text.size [] = bs.length := total
  have stays : run bs ⟨i, start, depth, st.literal, ended⟩ =
      ⟨i, start, depth, st.literal, ended⟩ := @run_end bs ⟨i, _, _, _, _⟩ ahead
  rw [ByteCursor.lines, stays, spansFrom, last]
  dsimp only
  split
  · rfl
  · rw [List.append_nil]

theorem Finds.word (w : Text) (later : Finds bs st' depth' tail (cutLines st' depth' tail))
    (moves : Moves bs st depth (w ++ tail) st' depth' tail) :
    Finds bs st depth (w ++ tail) (consLine w (cutLines st' depth' tail)) := by
  intro i start offset ended ahead total
  obtain ⟨j, same, ahead'⟩ := moves i start ended ahead
  have total' : offset + Text.size w + Text.size tail = bs.length := by
    rw [← total, Text.size_append, Nat.add_assoc]
  rw [lines_of_run same, later j start _ ended ahead' total',
    spansFrom_consLine _ _ _ (cutLines_ne_nil _ _ _)]

theorem Finds.line (later : Finds bs .code 0 cs (cutLines .code 0 cs))
    (moves : Moves bs st 0 ('\n' :: cs) .code 0 ('\n' :: cs)) :
    Finds bs st 0 ('\n' :: cs) ([] :: cutLines .code 0 cs) := by
  intro i start offset ended ahead total
  obtain ⟨j, same, ahead'⟩ := moves i start ended ahead
  obtain ⟨b, behind, first⟩ := Text.exists_first '\n' cs
  -- The cursor may have been inside of a comment, but in front of the newline it has caught up.
  have here : j = offset := by
    have size : Text.size ('\n' :: cs) = 1 + Text.size cs := rfl
    have left : bs.length - j = Text.size ('\n' :: cs) := by
      rw [← List.length_drop, ahead', ← Text.length_bytes]
      rfl
    omega
  subst here
  have turned : turn ⟨j, start, 0, LineState.code.literal, ended⟩ b behind =
      ⟨j + 1, j + 1, 0, LineState.code.literal, ended ++ [⟨start, j⟩]⟩ :=
    turn_code first (by decide) (by decide)
  have next : bs.drop (j + 1) = bytes cs := by
    rw [← List.drop_drop, ahead']
    rfl
  have total' : j + 1 + Text.size cs = bs.length := by
    rw [← total, Text.size_cons, Nat.add_assoc]
    rfl
  rw [lines_of_run (same.trans (run_turn (ahead'.trans first))), turned,
    later _ _ _ _ next total', spansFrom_nil_cons _ _ (cutLines_ne_nil _ _ _), List.append_assoc,
    List.singleton_append]

/-- The cursor finds the pieces into which the line scanner cuts the text. -/
theorem finds_cutLines (bs : List UInt8) (st : LineState) (depth : Int32) (cs : Text)
    (proper : st.masking.Proper) : Finds bs st depth cs (cutLines st depth cs) := by
  fun_induction cutLines st depth cs with
  | case1 st =>
    cases st with
    | code | comment | quoted => exact .nil rfl
  | case2 cs ih => exact .line (ih trivial) moves_comment_end
  | case3 depth cs inside ih =>
    exact Finds.word ['\n'] (ih trivial) (moves_comment_end.trans (moves_newline inside))
  | case4 depth c cs other ih => exact Finds.word [c] (ih trivial) (moves_comment other)
  | case5 quote triple depth escaped cs ih =>
    exact Finds.word ['\\', escaped] (ih proper) (moves_escape proper)
  | case6 quote depth a b c cs plain closes ih =>
    obtain ⟨rfl, rfl, rfl⟩ := closes
    exact Finds.word [c, c, c] (ih trivial) (moves_triple_end proper)
  | case7 quote depth a b c cs plain opens ih =>
    have slash : a ≠ '\\' := by simpa using plain
    refine Finds.word [a] (ih proper) (moves_triple proper slash ?_)
    rintro ⟨rfl, doubled⟩
    obtain ⟨more, ⟨⟩⟩ := List.isPrefixOf_iff_prefix.mp doubled
    exact opens ⟨rfl, rfl, rfl⟩
  | case8 quote depth c cs plain short ih =>
    refine Finds.word [c] (ih proper) (moves_literal proper plain fun slash => ?_)
    refine moves_triple proper slash ?_
    rintro ⟨rfl, doubled⟩
    obtain ⟨more, rfl⟩ := List.isPrefixOf_iff_prefix.mp doubled
    exact short c c more rfl
  | case9 quote cs plain ih => exact .line (ih trivial) (moves_unended proper)
  | case10 quote depth cs inside plain ih =>
    exact Finds.word ['\n'] (ih trivial) ((moves_unended proper).trans (moves_newline inside))
  | case11 depth c cs plain other ih => exact Finds.word [c] (ih trivial) (moves_quoted_end proper)
  | case12 quote depth c cs plain other opens ih =>
    exact Finds.word [c] (ih proper) (moves_literal proper plain fun slash =>
      moves_quoted proper slash other opens)
  | case13 depth cs ih =>
    exact Finds.word ['\x22', '\x22', '\x22'] (ih (.inl rfl)) (moves_triple_start (.inl rfl))
  | case14 depth cs ih =>
    exact Finds.word ['\x27', '\x27', '\x27'] (ih (.inr rfl)) (moves_triple_start (.inr rfl))
  | case15 depth cs ih => exact Finds.word ['\\', '\n'] (ih trivial) moves_join
  | case16 depth cs _ _ _ ih => exact Finds.word ['#'] (ih trivial) moves_hash
  | case17 depth c cs double single _ hash quote ih =>
    refine Finds.word [c] (ih quote) (moves_quoted_start quote ?_)
    intro doubled
    obtain ⟨more, rfl⟩ := List.isPrefixOf_iff_prefix.mp doubled
    rcases quote with rfl | rfl
    · exact double more rfl rfl
    · exact single more rfl rfl
  | case18 depth c cs _ _ plain hash quote opener ih =>
    have next : countStep depth c = depth + 1 := if_pos opener
    refine Finds.word [c] (ih trivial) (moves_code next hash quote ?_ ?_)
    · rintro rfl
      simp at opener
    · rintro ⟨rfl, -⟩
      simp at opener
  | case19 depth c cs _ _ plain hash quote opener closer ih =>
    have next : countStep depth c = max (depth - 1) 0 := (if_neg opener).trans (if_pos closer)
    refine Finds.word [c] (ih trivial) (moves_code next hash quote ?_ ?_)
    · rintro rfl
      simp at closer
    · rintro ⟨rfl, -⟩
      simp at closer
  | case20 depth c cs _ _ plain hash quote opener closer newline ih =>
    obtain ⟨rfl, rfl⟩ := newline
    exact .line (ih trivial) .refl
  | case21 depth c cs _ _ plain hash quote opener closer newline ih =>
    have next : countStep depth c = depth := (if_neg opener).trans (if_neg closer)
    refine Finds.word [c] (ih trivial) (moves_code next hash quote ?_ newline)
    rintro hc behind
    obtain ⟨more, rfl⟩ := List.head?_eq_some_iff.mp behind
    exact plain more hc rfl

end

end SourceTree.Scan
