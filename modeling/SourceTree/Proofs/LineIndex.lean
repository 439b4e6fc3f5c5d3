import Mathlib.Data.List.TakeWhile
import SourceTree.LineIndex
import SourceTree.Proofs.Text.Bytes

/-!
Lines and columns are ordered as offsets are: of two offsets of a text the later one has the later
position, and so it is with the points that two spans contain. The line of an offset is the number of
newlines in front of it, and it is what a search among the line starts finds. Main statement:
`position_located`.
-/

namespace SourceTree

namespace LineIndex

/-- The first position lies before the second: on an earlier line, or on the same line further to
the left. -/
def Before (p q : UInt32 × UInt32) : Prop := p.1 < q.1 ∨ p.1 = q.1 ∧ p.2 < q.2

theorem before_iff {p q : UInt32 × UInt32} :
    Before p q ↔ p.1.toNat < q.1.toNat ∨ p.1.toNat = q.1.toNat ∧ p.2.toNat < q.2.toNat := by
  simp only [Before, UInt32.lt_iff_toNat_lt, ← UInt32.toNat_inj]

/-- A point does not lie between two positions without being behind the one or before the other. -/
theorem Before.split {p q : UInt32 × UInt32} (h : Before p q) (x : UInt32 × UInt32) :
    Before p x ∨ Before x q := by
  rw [before_iff] at h ⊢
  rw [before_iff]
  omega

theorem Before.asymm {p q : UInt32 × UInt32} (h : Before p q) : ¬Before q p := by
  rw [before_iff] at h ⊢
  omega

theorem length_takeWhile_le {α : Type} {p q : α → Bool} (h : ∀ a, p a = true → q a = true)
    (as : List α) : (as.takeWhile p).length ≤ (as.takeWhile q).length := by
  induction as with
  | nil => exact Nat.le_refl _
  | cons a as ih =>
    cases hp : p a with
    | false => simp [hp]
    | true => simpa [hp, h a hp] using ih

variable {index : LineIndex} {i j : Nat}

/-- The index of a text begins with the start of the first line. -/
def Starts (index : LineIndex) : Prop := index.starts.head? = some 0

theorem ofText_starts (cs : Text) : (ofText cs).Starts := rfl

theorem lineOf_le (index : LineIndex) (le : i ≤ j) : index.lineOf i ≤ index.lineOf j := by
  have longer : (index.starts.takeWhile (· ≤ i)).length ≤ (index.starts.takeWhile (· ≤ j)).length := by
    apply length_takeWhile_le
    intro start h
    simp only [decide_eq_true_eq] at h ⊢
    exact Nat.le_trans h le
  exact Nat.sub_le_sub_right longer 1

/-- The line of an offset starts at or before it. -/
theorem lineStart_le (h : index.Starts) (i : Nat) : index.lineStart (index.lineOf i) ≤ i := by
  obtain ⟨more, hm⟩ := List.head?_eq_some_iff.mp h
  let front := index.starts.takeWhile (· ≤ i)
  have pos : 0 < front.length := by simp [front, hm]
  have inside : index.lineOf i < front.length := Nat.sub_lt pos Nat.one_pos
  have found : index.starts[index.lineOf i]? = some front[index.lineOf i] := by
    obtain ⟨behind, split⟩ : front <+: index.starts := List.takeWhile_prefix _
    rw [← split, List.getElem?_append_left inside, List.getElem?_eq_getElem inside]
  have le : front[index.lineOf i] ≤ i := by
    simpa using List.mem_takeWhile_imp (List.getElem_mem inside)
  rw [lineStart, found]
  exact le

/-- The next line starts no earlier than where an offset of this line lies. -/
theorem le_lineStart_succ (h : index.Starts) (le : i ≤ index.size) :
    i ≤ index.lineStart (index.lineOf i + 1) := by
  obtain ⟨more, hm⟩ := List.head?_eq_some_iff.mp h
  let front := index.starts.takeWhile (· ≤ i)
  have pos : 0 < front.length := by simp [front, hm]
  have next : index.lineOf i + 1 = front.length := Nat.sub_add_cancel pos
  have split : index.starts = front ++ index.starts.dropWhile (· ≤ i) :=
    List.takeWhile_append_dropWhile.symm
  have head := List.head?_dropWhile_not (fun start => decide (start ≤ i)) index.starts
  rw [lineStart, next, split, List.getElem?_append_right (Nat.le_refl _), Nat.sub_self,
    ← List.head?_eq_getElem?]
  cases found : (index.starts.dropWhile (· ≤ i)).head? with
  | none => exact le
  | some start =>
    rw [found] at head
    simp only [decide_eq_false_iff_not] at head
    simp only [Option.getD_some]
    omega

theorem lineOf_lt (h : index.Starts) (i : Nat) : index.lineOf i < index.lineCount := by
  have shorter : (index.starts.takeWhile (· ≤ i)).length ≤ index.starts.length :=
    (List.takeWhile_prefix _).length_le
  obtain ⟨more, hm⟩ := List.head?_eq_some_iff.mp h
  have full : 0 < index.starts.length := by simp [hm]
  simp only [lineOf, lineCount]
  omega

/-- The lines are few and short enough for lines and columns of 32 bits. -/
structure Fits (index : LineIndex) : Prop where
  few : index.lineCount < UInt32.size
  short : ∀ line, index.lineStart (line + 1) - index.lineStart line < UInt32.size

/-- Where lines and columns fit, the position is the line, counted from one, and the distance from its
start, as numbers without a bound. -/
theorem position_toNat (h : index.Starts) (fits : index.Fits) (le : i ≤ index.size) :
    (index.position i).1.toNat = index.lineOf i + 1 ∧
      (index.position i).2.toNat = i - index.lineStart (index.lineOf i) := by
  have inside : min i index.size = i := Nat.min_eq_left le
  have line_lt := lineOf_lt h i
  have few := fits.few
  have to_next := le_lineStart_succ h le
  have short := fits.short (index.lineOf i)
  simp only [position, inside]
  constructor
  · have line_fits : index.lineOf i + 1 < UInt32.size := by omega
    rw [Nat.toUInt32_eq, ← UInt32.ofNat_one, ← UInt32.ofNat_add, UInt32.toNat_ofNat_of_lt' line_fits]
  · have column_fits : i - index.lineStart (index.lineOf i) < UInt32.size := by omega
    rw [Nat.toUInt32_eq, UInt32.toNat_ofNat_of_lt' column_fits]

theorem position_before (h : index.Starts) (fits : index.Fits) (lt : i < j) (le : j ≤ index.size) :
    Before (index.position i) (index.position j) := by
  obtain ⟨line_i, column_i⟩ := position_toNat h fits (show i ≤ index.size by omega)
  obtain ⟨line_j, column_j⟩ := position_toNat h fits le
  rw [before_iff, line_i, line_j, column_i, column_j]
  cases Nat.lt_or_eq_of_le (index.lineOf_le (Nat.le_of_lt lt)) with
  | inl earlier => exact .inl (Nat.succ_lt_succ earlier)
  | inr same =>
    have start := lineStart_le h i
    rw [same] at start ⊢
    exact .inr ⟨rfl, by omega⟩

end LineIndex

namespace Location

theorem containsPoint_iff {l : Location} {line column : UInt32} :
    l.containsPoint line column = true ↔
      ¬LineIndex.Before (line, column) (l.startLine, l.startColumn) ∧
        ¬LineIndex.Before (l.endLine, l.endColumn) (line, column) := by
  simp only [containsPoint, LineIndex.before_iff, Bool.and_eq_true, Bool.not_eq_true',
    decide_eq_true_eq, Bool.and_eq_false_iff, beq_eq_false_iff_ne, decide_eq_false_iff_not,
    UInt32.le_iff_toNat_le, UInt32.lt_iff_toNat_lt, ne_eq, ← UInt32.toNat_inj]
  omega

end Location

namespace LineIndex

/-! ### Newlines -/

variable {index : LineIndex} {i j : Nat}

theorem lt_of_mem_lineStartsFrom {offset start : Nat} {cs : Text}
    (h : start ∈ Text.lineStartsFrom offset cs) : offset < start := by
  induction cs generalizing offset with
  | nil => cases h
  | cons c cs ih =>
    have width := c.utf8Size_pos
    rw [Text.lineStartsFrom] at h
    split at h
    · rcases List.mem_cons.mp h with rfl | h
      · omega
      · have later := ih h
        omega
    · have later := ih h
      omega

theorem le_of_mem_lineStartsFrom {offset start : Nat} {cs : Text}
    (h : start ∈ Text.lineStartsFrom offset cs) : start ≤ offset + Text.size cs := by
  induction cs generalizing offset with
  | nil => cases h
  | cons c cs ih =>
    rw [Text.lineStartsFrom] at h
    rw [Text.size_cons]
    split at h
    · rcases List.mem_cons.mp h with rfl | h
      · omega
      · have inside := ih h
        omega
    · have inside := ih h
      omega

theorem length_lineStartsFrom_le (offset : Nat) (cs : Text) :
    (Text.lineStartsFrom offset cs).length ≤ Text.size cs := by
  induction cs generalizing offset with
  | nil => exact Nat.le_refl _
  | cons c cs ih =>
    have rest := ih (offset + c.utf8Size)
    have width := c.utf8Size_pos
    rw [Text.lineStartsFrom, Text.size_cons]
    split
    · rw [List.length_cons]
      omega
    · omega

/-- No line starts behind the end of the text. -/
theorem lineStart_le_size (cs : Text) (line : Nat) : (ofText cs).lineStart line ≤ Text.size cs := by
  rw [lineStart]
  cases found : (ofText cs).starts[line]? with
  | none => exact Nat.le_refl _
  | some start =>
    rcases List.mem_cons.mp (List.mem_of_getElem? found) with rfl | later
    · exact Nat.zero_le _
    · have inside := le_of_mem_lineStartsFrom later
      simpa using inside

/-- The lines of a text of less than 2^32 bytes are few and short. -/
theorem fits_of_size {cs : Text} (lt : Text.size cs + 1 < UInt32.size) : (ofText cs).Fits := by
  constructor
  · have fewer := length_lineStartsFrom_le 0 cs
    simp only [lineCount, ofText, List.length_cons]
    omega
  · intro line
    have inside := lineStart_le_size cs (line + 1)
    omega

theorem takeWhile_lineStartsFrom_eq_nil {offset o : Nat} (le : o ≤ offset) (cs : Text) :
    (Text.lineStartsFrom offset cs).takeWhile (· ≤ o) = [] := by
  rw [List.takeWhile_eq_nil_iff]
  intro pos
  have later := lt_of_mem_lineStartsFrom (List.get_mem _ ⟨0, pos⟩)
  simp only [decide_eq_true_eq]
  omega

/-- The lines that start at or before an offset are counted by the newlines in front of it. -/
theorem length_takeWhile_lineStartsFrom (offset o : Nat) (cs : Text) :
    ((Text.lineStartsFrom offset cs).takeWhile (· ≤ offset + o)).length =
      ((Text.bytes cs).take o).count '\n'.toUInt8 := by
  induction cs generalizing offset o with
  | nil => simp [Text.lineStartsFrom, Text.bytes]
  | cons c cs ih =>
    rw [Text.lineStartsFrom, Text.bytes_cons]
    by_cases newline : c = '\n'
    · subst newline
      have one : '\n'.utf8Size = 1 := by decide
      rw [Text.utf8EncodeChar_one one, one]
      cases o with
      | zero => simp
      | succ o =>
        have rest := ih (offset + 1) o
        have same : offset + 1 + o = offset + (o + 1) := by omega
        rw [same] at rest
        simp [rest]
    · have absent : '\n'.toUInt8 ∉ String.utf8EncodeChar c := by
        intro mem
        exact newline (Text.eq_of_mem_utf8EncodeChar (by decide) mem)
      have first : ((String.utf8EncodeChar c).take o).count '\n'.toUInt8 = 0 := by
        apply List.count_eq_zero_of_not_mem
        intro mem
        exact absent (List.mem_of_mem_take mem)
      rw [List.take_append, List.count_append, first, String.length_utf8EncodeChar, Nat.zero_add]
      simp only [beq_iff_eq, newline, if_false]
      rcases Nat.le_total c.utf8Size o with inside | short
      · have rest := ih (offset + c.utf8Size) (o - c.utf8Size)
        have same : offset + c.utf8Size + (o - c.utf8Size) = offset + o := by omega
        rwa [same] at rest
      · rw [takeWhile_lineStartsFrom_eq_nil (by omega), Nat.sub_eq_zero_of_le short]
        rfl

theorem lineOf_ofText (cs : Text) (o : Nat) :
    (ofText cs).lineOf o = ((Text.bytes cs).take o).count '\n'.toUInt8 := by
  have counted := length_takeWhile_lineStartsFrom 0 o cs
  rw [Nat.zero_add] at counted
  simp [lineOf, ofText, counted]

/-! ### Search -/

/-- What a search in an ascending list may answer: an index at which the number stands or, if there is
none, the index at which it would have to be put. -/
inductive Searched (xs : List Nat) (x : Nat) : Except Nat Nat → Prop where
  | found {n : Nat} : xs[n]? = some x → Searched xs x (.ok n)
  | missed {n : Nat} : n ≤ xs.length → (∀ y ∈ xs.take n, y < x) → (∀ y ∈ xs.drop n, x < y) →
      Searched xs x (.error n)

/-- The line to which such an answer leads. -/
def foundLine : Except Nat Nat → Nat
  | .ok line => line
  | .error next => next - 1

theorem pairwise_lineStartsFrom (offset : Nat) (cs : Text) :
    (Text.lineStartsFrom offset cs).Pairwise (· < ·) := by
  induction cs generalizing offset with
  | nil => exact .nil
  | cons c cs ih =>
    rw [Text.lineStartsFrom]
    split
    · exact List.pairwise_cons.mpr ⟨fun start h => lt_of_mem_lineStartsFrom h, ih _⟩
    · exact ih _

theorem pairwise_starts (cs : Text) : (ofText cs).starts.Pairwise (· < ·) :=
  List.pairwise_cons.mpr ⟨fun _ h => lt_of_mem_lineStartsFrom h, pairwise_lineStartsFrom 0 cs⟩

theorem length_takeWhile_of_split {p : Nat → Bool} {xs : List Nat} {n : Nat} (le : n ≤ xs.length)
    (before : ∀ y ∈ xs.take n, p y = true) (behind : ∀ y ∈ xs.drop n, p y = false) :
    (xs.takeWhile p).length = n := by
  have stops : (xs.drop n).takeWhile p = [] := by
    rw [List.takeWhile_eq_nil_iff]
    intro pos
    rw [Bool.not_eq_true]
    exact behind _ (List.get_mem _ ⟨0, pos⟩)
  have split : xs.takeWhile p = xs.take n ++ (xs.drop n).takeWhile p := by
    rw [← List.takeWhile_append_of_pos before, List.take_append_drop]
  rw [split, stops, List.append_nil, List.length_take, Nat.min_eq_left le]

/-- The line of an offset is the one that a search among the starts finds, or the one before the place
at which the offset would be put. -/
theorem lineOf_of_searched {cs : Text} {o : Nat} {answer : Except Nat Nat}
    (h : Searched (ofText cs).starts o answer) : (ofText cs).lineOf o = foundLine answer := by
  cases h with
  | @found n here =>
    obtain ⟨lt, rfl⟩ := List.getElem?_eq_some_iff.mp here
    have ascends := List.pairwise_iff_getElem.mp (pairwise_starts cs)
    have count : ((ofText cs).starts.takeWhile (· ≤ (ofText cs).starts[n])).length = n + 1 := by
      apply length_takeWhile_of_split lt
      · intro y hy
        obtain ⟨k, hk, rfl⟩ := List.mem_take_iff_getElem.mp hy
        rcases Nat.lt_or_eq_of_le (show k ≤ n by omega) with earlier | rfl
        · simpa using Nat.le_of_lt (ascends k n _ lt earlier)
        · simp
      · intro y hy
        obtain ⟨k, hk, rfl⟩ := List.mem_drop_iff_getElem.mp hy
        simpa using ascends n (n + 1 + k) lt _ (by omega)
    rw [lineOf, count]
    rfl
  | @missed n le before behind =>
    have count : ((ofText cs).starts.takeWhile (· ≤ o)).length = n := by
      apply length_takeWhile_of_split le
      · intro y hy
        simpa using Nat.le_of_lt (before y hy)
      · intro y hy
        simpa using behind y hy
    rw [lineOf, count, foundLine]

/-- Later offsets have later positions. A position counts the newlines in front of the offset and the
bytes behind the last of them, and any search among the line starts leads to its line. A span contains
the position of an offset exactly if the offset lies between its ends. Where lines are few and short
enough, lines and columns fit into 32 bits. -/
theorem position_located (cs : Text) (few : (ofText cs).lineCount < UInt32.size)
    (short : ∀ line, (ofText cs).lineStart (line + 1) - (ofText cs).lineStart line < UInt32.size) :
    (∀ i j, i < j → j ≤ Text.size cs → Before ((ofText cs).position i) ((ofText cs).position j)) ∧
    (∀ o ≤ Text.size cs, ∃ line column, ((ofText cs).position o).1.toNat = line + 1 ∧
      ((ofText cs).position o).2.toNat = column ∧
      line + 1 < UInt32.size ∧ column < UInt32.size ∧ (ofText cs).lineStart line + column = o ∧
      line = ((Text.bytes cs).take o).count '\n'.toUInt8 ∧
      ∀ answer, Searched (ofText cs).starts o answer → foundLine answer = line) ∧
    (∀ start stop o, start ≤ stop → stop ≤ Text.size cs → o ≤ Text.size cs →
      (((ofText cs).location start stop).containsPoint ((ofText cs).position o).1
        ((ofText cs).position o).2 = true ↔ start ≤ o ∧ o ≤ stop)) := by
  have starts := ofText_starts cs
  have fits : (ofText cs).Fits := ⟨few, short⟩
  have ascends (i j : Nat) (lt : i < j) (le : j ≤ Text.size cs) :
      Before ((ofText cs).position i) ((ofText cs).position j) := position_before starts fits lt le
  refine ⟨ascends, ?_, ?_⟩
  · intro o le
    obtain ⟨line, column⟩ := position_toNat starts fits (show o ≤ (ofText cs).size from le)
    have line_fits := ((ofText cs).position o).1.toNat_lt
    have column_fits := ((ofText cs).position o).2.toNat_lt
    have from_start := lineStart_le starts o
    have searched (answer : Except Nat Nat) (h : Searched (ofText cs).starts o answer) :
        foundLine answer = (ofText cs).lineOf o := (lineOf_of_searched h).symm
    exact ⟨_, _, line, column, line ▸ line_fits, column ▸ column_fits,
      Nat.add_sub_cancel' from_start, lineOf_ofText cs o, searched⟩
  · intro start stop o le inside ho
    have order (i j : Nat) (hi : i ≤ Text.size cs) (hj : j ≤ Text.size cs) :
        ¬Before ((ofText cs).position i) ((ofText cs).position j) ↔ j ≤ i := by
      constructor
      · intro other
        apply Nat.le_of_not_lt
        intro lt
        exact other (ascends i j lt hj)
      · intro le before
        rcases Nat.lt_or_eq_of_le le with lt | rfl
        · exact (ascends j i lt hi).asymm before
        · exact before.asymm before
    rw [Location.containsPoint_iff]
    exact and_congr (order o start ho (by omega)) (order stop o inside ho)

theorem position_located_trailing :
    (ofText "a\n\né\n".toList).lineCount < UInt32.size ∧
      (ofText "a\n\né\n".toList).position 4 = (3, 1) ∧
      (((ofText "a\n\né\n".toList).location 2 6).containsPoint 3 1 = true ↔ 2 ≤ 4 ∧ 4 ≤ 6) := by
  have fits : (ofText "a\n\né\n".toList).Fits := fits_of_size (by decide)
  have located := position_located "a\n\né\n".toList fits.few fits.short
  exact ⟨fits.few, by decide, located.2.2 2 6 4 (by decide) (by decide) (by decide)⟩

end LineIndex

end SourceTree
