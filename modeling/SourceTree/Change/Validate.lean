import SourceTree.Change.Basic
import SourceTree.Change.Error
import SourceTree.Text.Basic

/-!
Checking a batch of changes: each change on its own first, then all well-formed changes against
each other.
-/

namespace SourceTree

namespace Text

/-- Whether an offset lies between two characters or at an end of the text. -/
def isBoundary (cs : Text) (offset : Nat) : Bool := (drop? cs offset).isSome

end Text

namespace Change

/-- Whether a destination lies in the source, between two characters and outside the moved piece. -/
def acceptsDestination (source : Text) (c : Change) (destination : Nat) : Bool :=
  destination ≤ Text.size source && Text.isBoundary source destination &&
    (destination ≤ c.location.startIndex || c.location.endIndex ≤ destination)

/-- The first thing that is wrong with a change on its own. -/
def fault? (source : Text) (c : Change) : Option ChangeError :=
  let start := c.location.startIndex
  let stop := c.location.endIndex
  if stop < start then some (.invertedRange c.label start stop)
  else if Text.size source < stop then some (.outOfBounds c.label start stop (Text.size source))
  else if !Text.isBoundary source start then some (.notCharBoundary c.label start)
  else if !Text.isBoundary source stop then some (.notCharBoundary c.label stop)
  else match c.kind with
    | .insert | .replace =>
      if (c.newContent.getD "").isEmpty then some (.missingContent c.label) else none
    | .move =>
      if (c.destination.map (c.acceptsDestination source)).getD false then none
      else some (.invalidDestination c.label c.destination)
    | .delete => none

end Change

/-- One piece of a source and what takes its place. -/
structure Edit where
  start : Nat
  stop : Nat
  content : Text
  /-- The place of the change in its batch. -/
  index : Nat
  deriving DecidableEq, Repr

namespace Edit

/-- Ascending by start, then by end, then by place in the batch. -/
def le (a b : Edit) : Bool :=
  a.start < b.start || (a.start == b.start &&
    (a.stop < b.stop || (a.stop == b.stop && a.index ≤ b.index)))

end Edit

namespace Change

/-- The edits of a well-formed change. A move cuts and inserts. -/
def edits (source : Text) (index : Nat) (c : Change) : List Edit :=
  let start := c.location.startIndex
  let stop := c.location.endIndex
  let content := (c.newContent.getD "").toList
  match c.kind with
  | .insert => [⟨start, start, content, index⟩]
  | .replace => [⟨start, stop, content, index⟩]
  | .delete => [⟨start, stop, [], index⟩]
  | .move =>
    let destination := c.destination.getD start
    [⟨start, stop, [], index⟩,
      ⟨destination, destination, (Text.slice? source start stop).getD [], index⟩]

/-- The edits of the well-formed changes of a batch, in the order of the source. -/
def sortedEdits (source : Text) (changes : List Change) : List Edit :=
  (changes.zipIdx.flatMap fun (c, index) =>
    if (c.fault? source).isNone then c.edits source index else []).mergeSort Edit.le

/-- The sweep over sorted edits: the edit that reaches furthest so far, and the pairs of changes
reported so far. -/
structure Sweep where
  reach : Option Edit := none
  reported : List (Nat × Nat) := []

namespace Sweep

/-- Whether an edit begins before one that starts earlier is over, or, unless touching is allowed,
just where it is over. -/
def meets (allowTouching : Bool) (previous next : Edit) : Bool :=
  if allowTouching then next.start < previous.stop else next.start ≤ previous.stop

/-- The changes of two edits, in the order of the batch. -/
def pair (a b : Edit) : Nat × Nat := (min a.index b.index, max a.index b.index)

def reports (allowTouching : Bool) (s : Sweep) (next : Edit) : Option (Edit × Edit) :=
  match s.reach with
  | none => none
  | some previous =>
    if meets allowTouching previous next && previous.index != next.index &&
        !s.reported.contains (pair previous next) then some (previous, next)
    else none

def step (allowTouching : Bool) (s : Sweep) (next : Edit) : Sweep :=
  { reach := match s.reach with
      | some previous => if previous.stop < next.stop then some next else some previous
      | none => some next
    reported := match s.reports allowTouching next with
      | some (previous, next) => pair previous next :: s.reported
      | none => s.reported }

/-- The pairs of edits reported over a list of sorted edits. -/
def run (allowTouching : Bool) (s : Sweep) : List Edit → List (Edit × Edit)
  | [] => []
  | next :: rest =>
    (s.reports allowTouching next).toList ++ run allowTouching (s.step allowTouching next) rest

end Sweep

def labelAt (changes : List Change) (index : Nat) : String :=
  ((changes[index]?).map Change.label).getD ""

/-- Everything that is wrong with a batch: the faults of single changes in order, then overlaps. -/
def validate (allowTouching : Bool) (source : Text) (changes : List Change) : List ChangeError :=
  changes.filterMap (fault? source) ++
    (Sweep.run allowTouching {} (sortedEdits source changes)).map fun (first, second) =>
      .overlap (labelAt changes first.index) (labelAt changes second.index)

end Change

end SourceTree
