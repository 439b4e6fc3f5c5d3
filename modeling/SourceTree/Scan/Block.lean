import SourceTree.Scan.Bracket

/-!
The outermost brace blocks of a region of masked text.
-/

namespace SourceTree.Scan

/-- A half-open range of byte offsets. -/
structure Range where
  start : Nat
  stop : Nat
  deriving DecidableEq, Repr

/-- The blocks that open at or after `resume` and before `stop`, `offset` being the offset of the
text that is still to be read. A block is cut off at `stop`; the search goes on behind it. -/
def blocksFrom (stop resume offset : Nat) : Text → List Range
  | [] => []
  | c :: cs =>
    let next := offset + c.utf8Size
    if stop ≤ offset then []
    else if offset < resume then blocksFrom stop resume next cs
    else if c = '\x7b' then
      let close := match closing? '\x7b' '\x7d' 0 offset (c :: cs) with
        | some close => close + 1
        | none => next + Text.size cs
      ⟨offset, min close stop⟩ :: blocksFrom stop (min close stop) next cs
    else blocksFrom stop resume next cs

/-- The outermost blocks in braces inside a region. -/
def firstLevelBlocks (text : Text) (region : Range) : List Range :=
  blocksFrom region.stop region.start 0 text

/-- Whether a position lies strictly inside one of the blocks. -/
def isNested (blocks : List Range) (pos : Nat) : Bool :=
  blocks.any fun b => b.start < pos && pos < b.stop

end SourceTree.Scan
