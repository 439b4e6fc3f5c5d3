import SourceTree.Change.Apply
import SourceTree.Node.Walk
import SourceTree.Registry

/-!
An editing session on one file: the current source, the batches applied so far, and whether changes
may touch. Edits refer to nodes of the current tree.
-/

namespace SourceTree

/-- Which nodes an edit can refer to. -/
inductive Selector where
  | byId (id : NodeId)
  | byKind (kind : NodeKind)
  | byName (name : String)
  deriving DecidableEq, Repr

namespace Selector

def accepts (s : Selector) (n : Node) : Bool :=
  match s with
  | .byId id => n.id == id
  | .byKind kind => n.kind == kind
  | .byName name => n.name == some name

/-- The node at a place among those that the selector accepts. -/
def find? (s : Selector) (nth : Nat) (root : Node) : Option Node := (root.findAll s.accepts)[nth]?

end Selector

/-- The state of an editing session. -/
structure Session where
  source : Text
  path : String
  applied : List ChangeSet := []
  allowTouching : Bool := true

namespace Session

/-- Reads the current source. -/
def parse? (s : Session) : Option (Except ReadError ParsedFile) :=
  Registry.full.parse? s.source s.path

/-- Applies a batch of changes to the current source. If it is accepted, the new source becomes the
current one and the batch can be taken back. -/
def carryOut? (s : Session) (changes : List Change) : Option (Change.Outcome × Session) := do
  let set : ChangeSet := ⟨s.path, s.source, changes⟩
  match ← set.carryOut? s.allowTouching with
  | (_, .applied source count) =>
    return (.applied source count, { s with source := source, applied := set :: s.applied })
  | (_, .rejected errors) => return (.rejected errors, s)

/-- Takes back the batch that was applied last. -/
def rollback? (s : Session) : Option Session :=
  match s.applied with
  | [] => none
  | set :: sets => some { s with source := set.rollback, applied := sets }

end Session

end SourceTree
