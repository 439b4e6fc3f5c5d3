/-!
Spans of source text: a line and column for each end, and the byte offsets.
-/

namespace SourceTree

/-- A span of source text. Lines count from one; columns count bytes from the start of the line;
indices count bytes from the start of the text. -/
structure Location where
  startLine : UInt32
  startColumn : UInt32
  endLine : UInt32
  endColumn : UInt32
  startIndex : Nat
  endIndex : Nat
  deriving DecidableEq, Repr

namespace Location

def zero : Location := ⟨0, 0, 0, 0, 0, 0⟩

/-- Whether a point lies in the span; both ends belong to it. -/
def containsPoint (l : Location) (line column : UInt32) : Bool :=
  l.startLine ≤ line && line ≤ l.endLine &&
    !(line == l.startLine && column < l.startColumn) &&
    !(line == l.endLine && l.endColumn < column)

/-- The number of bytes of the span; zero if its ends are the wrong way round. -/
def size (l : Location) : Nat := l.endIndex - l.startIndex

def isEmpty (l : Location) : Bool := l.size == 0

end Location

end SourceTree
