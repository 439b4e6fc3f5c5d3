import SourceTree.Location
import SourceTree.Text.Basic

/-!
From byte offsets to lines and columns. The index holds where each line starts; an offset belongs
to the last line that starts at or before it.
-/

namespace SourceTree

/-- The byte offset just after each newline, counted from `offset`. -/
def Text.lineStartsFrom (offset : Nat) : Text → List Nat
  | [] => []
  | c :: cs =>
    let next := offset + c.utf8Size
    if c == '\n' then next :: lineStartsFrom next cs else lineStartsFrom next cs

/-- Where the lines of a text start, and how long the text is. -/
structure LineIndex where
  starts : List Nat
  size : Nat
  deriving DecidableEq, Repr

namespace LineIndex

def ofText (cs : Text) : LineIndex := ⟨0 :: Text.lineStartsFrom 0 cs, Text.size cs⟩

/-- The number of lines; a newline at the end opens one more. -/
def lineCount (index : LineIndex) : Nat := index.starts.length

/-- Where a line starts, lines counted from zero; past the last line, the end of the text. -/
def lineStart (index : LineIndex) (line : Nat) : Nat := (index.starts[line]?).getD index.size

/-- The line, counted from zero, to which an offset belongs. -/
def lineOf (index : LineIndex) (offset : Nat) : Nat :=
  (index.starts.takeWhile (· ≤ offset)).length - 1

/-- The line, counted from one, and the column of an offset, both cut down to 32 bits; an offset past
the end counts as the end. -/
def position (index : LineIndex) (offset : Nat) : UInt32 × UInt32 :=
  let offset := min offset index.size
  let line := index.lineOf offset
  (line.toUInt32 + 1, (offset - index.lineStart line).toUInt32)

/-- The location between two offsets, which are kept as they are given. -/
def location (index : LineIndex) (start stop : Nat) : Location :=
  let (startLine, startColumn) := index.position start
  let (endLine, endColumn) := index.position stop
  ⟨startLine, startColumn, endLine, endColumn, start, stop⟩

end LineIndex

end SourceTree
