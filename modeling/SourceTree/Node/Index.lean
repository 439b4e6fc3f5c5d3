import SourceTree.Node.Walk

/-!
Look-up of nodes and of their parents by id. The parents come from the shape of the tree and not
from the links stored in it. Where an id occurs twice, the later visit counts.
-/

namespace SourceTree

/-- The nodes of a tree and the parent of each, by id. -/
structure NodeIndex where
  nodes : List (NodeId × Node)
  parents : List (NodeId × NodeId)

namespace NodeIndex

/-- Indexes a tree; later visits stand in front of earlier ones. -/
def ofRoot (root : Node) : NodeIndex where
  nodes := (root.visits.map fun v => (v.node.id, v.node)).reverse
  parents := (root.visits.filterMap fun v => v.parent.map fun p => (v.node.id, p.id)).reverse

def get? (index : NodeIndex) (id : NodeId) : Option Node := index.nodes.lookup id

def contains (index : NodeIndex) (id : NodeId) : Bool := (index.get? id).isSome

def parentOf? (index : NodeIndex) (id : NodeId) : Option Node :=
  (index.parents.lookup id).bind index.get?

/-- Follows parents at most `fuel` times; `none` if the chain goes on. -/
def ancestorsWithin (index : NodeIndex) : Nat → NodeId → Option (List Node)
  | 0, id => if (index.parentOf? id).isNone then some [] else none
  | fuel + 1, id => match index.parentOf? id with
    | none => some []
    | some parent => (index.ancestorsWithin fuel parent.id).map (parent :: ·)

/-- The chain of parents, nearest first. A chain longer than the number of recorded parents goes
round in a circle and has no end; then there is no answer. -/
def ancestors? (index : NodeIndex) (id : NodeId) : Option (List Node) :=
  index.ancestorsWithin index.parents.length id

end NodeIndex

namespace Node

/-- The nodes that enclose the node `id`, nearest first. -/
def ancestors? (root : Node) (id : NodeId) : Option (List Node) :=
  (NodeIndex.ofRoot root).ancestors? id

/-- The distance of the node `id` from the root; the inner `none` says that there is no such
node. -/
def depth? (root : Node) (id : NodeId) : Option (Option Nat) :=
  let index := NodeIndex.ofRoot root
  if index.contains id then (index.ancestors? id).map fun as => some as.length else some none

/-- The scopes around the node `id`, innermost first, beginning with the node itself. -/
def scopeChain? (root : Node) (id : NodeId) : Option (List Node) :=
  let index := NodeIndex.ofRoot root
  match index.get? id with
  | none => some []
  | some start => (index.ancestors? id).map fun as =>
    (start :: as).filter fun n => n.kind.isScope

end Node

end SourceTree
