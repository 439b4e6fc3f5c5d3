import SourceTree.Scan.Block
import SourceTree.Scan.Mask
import SourceTree.Text.Blank

/-!
A source together with its mask. Constructs are found in the mask and cut out of the source at the
same offsets.
-/

namespace SourceTree.Scan

structure MaskedSource where
  source : Text
  masked : Text
  deriving DecidableEq, Repr

namespace MaskedSource

def ofBrace (source : Text) : MaskedSource := ⟨source, maskBrace source⟩

def size (m : MaskedSource) : Nat := Text.size m.source

def text? (m : MaskedSource) (start stop : Nat) : Option Text := Text.slice? m.source start stop

def code? (m : MaskedSource) (start stop : Nat) : Option Text := Text.slice? m.masked start stop

/-- The first offset at or after `pos` that is not blank in the mask. -/
def skipBlanks? (m : MaskedSource) (pos : Nat) : Option Nat :=
  (Text.drop? m.masked (min pos (Text.size m.masked))).map fun rest => pos + Text.blankSize rest

theorem le_of_skipBlanks? {m : MaskedSource} {pos next : Nat}
    (h : m.skipBlanks? pos = some next) : pos ≤ next := by
  obtain ⟨rest, -, rfl⟩ := Option.map_eq_some_iff.mp h
  exact Nat.le_add_right ..

/-- The offsets inside a region at which a semicolon stands outside every block. -/
def firstLevelSemicolons (m : MaskedSource) (region : Range) : List Nat :=
  let blocks := firstLevelBlocks m.masked region
  (Text.indexed 0 m.masked).filterMap fun (pos, c) =>
    if region.start ≤ pos ∧ pos < region.stop ∧ c = ';' ∧ !isNested blocks pos then some pos
    else none

/-- The offsets inside a region at which a declaration may begin: at its start, after each
semicolon outside every block, and after each outermost block. Ascending, each once. -/
def memberStarts? (m : MaskedSource) (region : Range) : Option (List Nat) := do
  if region.stop ≤ region.start ∨ region.stop ≤ Text.size m.masked then
    let candidates := region.start ::
      ((m.firstLevelSemicolons region).map (· + 1) ++
        (firstLevelBlocks m.masked region).map Range.stop)
    let starts ← candidates.mapM m.skipBlanks?
    return ((starts.filter (· < region.stop)).mergeSort (· ≤ ·)).eraseReps
  else none

/-- Just past the first semicolon at or after `start` that stands outside every block, or
`limit`. -/
def statementEnd? (m : MaskedSource) (start limit : Nat) : Option Nat :=
  if start ≤ limit ∧ limit ≤ Text.size m.masked then
    match m.firstLevelSemicolons ⟨start, limit⟩ with
    | [] => some limit
    | pos :: _ => some (pos + 1)
  else none

end MaskedSource

end SourceTree.Scan
