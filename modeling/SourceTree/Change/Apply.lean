import SourceTree.Change.Validate

/-!
Applying a batch of changes, all or nothing. Edits are carried out from the end of the source to its
front, so that the offsets of those still to come stay right.
-/

namespace SourceTree

namespace Text

/-- Puts content in the place of a piece of a text. -/
def replaceRange? (cs : Text) (start stop : Nat) (content : Text) : Option Text := do
  if start ≤ stop then
    return (← take? cs start) ++ content ++ (← drop? cs stop)
  else none

end Text

namespace Change

/-- The outcome of applying a batch. -/
inductive Outcome where
  | applied (source : Text) (count : Nat)
  | rejected (errors : List ChangeError)
  deriving DecidableEq, Repr

/-- Carries out edits one after the other. -/
def splice? : Text → List Edit → Option Text
  | output, [] => some output
  | output, e :: es => (Text.replaceRange? output e.start e.stop e.content).bind (splice? · es)

def batchEdits (source : Text) (changes : List Change) : List Edit :=
  changes.zipIdx.flatMap fun (c, index) => c.edits source index

def carryOut? (allowTouching : Bool) (source : Text) (changes : List Change) : Option Outcome :=
  match validate allowTouching source changes with
  | [] => do
    let output ← splice? source ((batchEdits source changes).mergeSort fun a b => Edit.le b a)
    return .applied output changes.length
  | errors => some (.rejected errors)

namespace Outcome

def isSuccess : Outcome → Bool
  | applied .. => true
  | rejected _ => false

def newSource? : Outcome → Option Text
  | applied source _ => some source
  | rejected _ => none

/-- How many changes were applied: all of them or none. -/
def appliedCount : Outcome → Nat
  | applied _ count => count
  | rejected _ => 0

end Outcome

end Change

/-- A batch of changes together with the source that it was made for. -/
structure ChangeSet where
  id : String
  source : Text
  changes : List Change

namespace ChangeSet

/-- Applies the batch to its source; the outcome bears the id of the batch. -/
def carryOut? (allowTouching : Bool) (s : ChangeSet) : Option (String × Change.Outcome) :=
  (Change.carryOut? allowTouching s.source s.changes).map (s.id, ·)

/-- The source as it was before the batch. -/
def rollback (s : ChangeSet) : Text := s.source

end ChangeSet

end SourceTree
