import SourceTree.Node.Basic

/-!
Walks over a tree. A walk is the list of its visits; every search and every family relation is a
function of such a list.
-/

namespace SourceTree

/-- A node as a walk meets it: with the node that holds it and its distance from the root. -/
structure Visit where
  node : Node
  parent : Option Node
  depth : Nat

namespace Node

mutual

/-- Visits every node before its children, in order; below a node that satisfies `skip` nothing is
visited. -/
def walkFrom (skip : Node → Bool) (parent : Option Node) (depth : Nat) : Node → List Visit
  | n@⟨_, _, _, _, children, _, _, _⟩ =>
    ⟨n, parent, depth⟩ :: if skip n then [] else walkAll skip n (depth + 1) children

def walkAll (skip : Node → Bool) (parent : Node) (depth : Nat) : List Node → List Visit
  | [] => []
  | n :: ns => walkFrom skip (some parent) depth n ++ walkAll skip parent depth ns

end

/-- The walk that meets each node before its children. -/
def walk (skip : Node → Bool) (root : Node) : List Visit := walkFrom skip none 0 root

/-- The walk through the whole tree. -/
def visits (root : Node) : List Visit := root.walk fun _ => false

/-- All nodes, each before its children. -/
def nodes (root : Node) : List Node := root.visits.map Visit.node

/-- Visits level by level, given the queue of visits that are due. -/
def walkLevelsFrom (skip : Node → Bool) : Nat → List Visit → List Visit
  | 0, _ => []
  | _, [] => []
  | fuel + 1, v :: queue =>
    let due := if skip v.node then [] else
      v.node.children.map fun child => ⟨child, some v.node, v.depth + 1⟩
    v :: walkLevelsFrom skip fuel (queue ++ due)

/-- The walk that meets nodes in order of their distance from the root. -/
def walkLevels (skip : Node → Bool) (root : Node) : List Visit :=
  walkLevelsFrom skip root.count [⟨root, none, 0⟩]

/-- The first node that satisfies `p`. -/
def find? (p : Node → Bool) (root : Node) : Option Node := root.nodes.find? p

/-- All nodes that satisfy `p`. -/
def findAll (p : Node → Bool) (root : Node) : List Node := root.nodes.filter p

def findById? (root : Node) (id : NodeId) : Option Node := root.find? fun n => n.id == id

def findByKind (root : Node) (kind : NodeKind) : List Node := root.findAll fun n => n.kind == kind

def findByName (root : Node) (name : String) : List Node := root.findAll fun n => n.name == some name

/-- The first node of that name, so an outer declaration wins over an inner one. -/
def findNamed? (root : Node) (name : String) : Option Node := root.find? fun n => n.name == some name

def descendants (n : Node) : List Node := n.nodes.drop 1

/-- The last visited node whose location contains the point. -/
def findAt? (root : Node) (line column : UInt32) : Option Node :=
  (root.findAll fun n => n.location.containsPoint line column).getLast?

/-- The first node that holds a child with that id. -/
def holderOf? (root : Node) (id : NodeId) : Option Node :=
  root.find? fun n => n.children.any fun child => child.id == id

/-- The other children of the holder of `id`. -/
def siblings (root : Node) (id : NodeId) : List Node :=
  match root.holderOf? id with
  | some holder => holder.children.filter fun child => child.id != id
  | none => []

def nextSibling? (root : Node) (id : NodeId) : Option Node := do
  let holder ← root.holderOf? id
  let position ← holder.children.findIdx? fun child => child.id == id
  holder.children[position + 1]?

def previousSibling? (root : Node) (id : NodeId) : Option Node := do
  let holder ← root.holderOf? id
  match ← holder.children.findIdx? fun child => child.id == id with
  | 0 => none
  | position + 1 => holder.children[position]?

end Node

end SourceTree
