import SourceTree.Location
import SourceTree.Node.Kind
import SourceTree.Value

/-!
Nodes of a source tree. A node knows its own children; the link to its parent is a copy of the
parent's id, set when the node is adopted and restored by `relinked`.
-/

namespace SourceTree

/-- Names a node within one tree. -/
abbrev NodeId := Nat

/-- A construct of the source: its tag, where it stands, its own text and what it contains. -/
structure Node where
  id : NodeId
  kind : NodeKind
  name : Option String := none
  location : Location
  children : List Node := []
  parent : Option NodeId := none
  text : Option String := none
  metadata : Metadata := []

namespace Node

/-- A node with nothing but an id, a tag and a place. -/
def bare (id : NodeId) (kind : NodeKind) (location : Location) : Node :=
  { id := id, kind := kind, location := location }

/-- Marks a node as a child of the node `parent`. -/
def adoptedBy (n : Node) (parent : NodeId) : Node := { n with parent := some parent }

def isLeaf (n : Node) : Bool := n.children.isEmpty

/-- Whether a piece of metadata is there and is the truth value `true`. -/
def flag (n : Node) (key : String) : Bool :=
  ((n.metadata.get? key).bind Value.asBool?).getD false

/-- A piece of metadata that is text. -/
def note? (n : Node) (key : String) : Option String :=
  (n.metadata.get? key).bind Value.asString?

mutual

/-- The number of nodes of a tree. -/
def count : Node → Nat
  | ⟨_, _, _, _, children, _, _, _⟩ => 1 + countAll children

def countAll : List Node → Nat
  | [] => 0
  | n :: ns => n.count + countAll ns

end

mutual

/-- Sets the parent link of every node below the root to the id of the node that holds it. -/
def relinked : Node → Node
  | ⟨id, kind, name, location, children, parent, text, metadata⟩ =>
    ⟨id, kind, name, location, relinkedAll id children, parent, text, metadata⟩

def relinkedAll (id : NodeId) : List Node → List Node
  | [] => []
  | n :: ns => (relinked n).adoptedBy id :: relinkedAll id ns

end

/-- The node as the root of a tree of its own. -/
def detached (n : Node) : Node := { n.relinked with parent := none }

mutual

/-- Equality of trees, parent links included. -/
def beq : Node → Node → Bool
  | ⟨id, kind, name, location, children, parent, text, metadata⟩,
    ⟨id', kind', name', location', children', parent', text', metadata'⟩ =>
    id == id' && kind == kind' && name == name' && location == location' &&
      beqAll children children' && parent == parent' && text == text' &&
      Value.beqFields metadata metadata'

def beqAll : List Node → List Node → Bool
  | [], [] => true
  | n :: ns, m :: ms => beq n m && beqAll ns ms
  | _, _ => false

end

instance : BEq Node := ⟨beq⟩

mutual

/-- The text of a node; a node without text has the texts of its children on lines of their own. -/
def render : Node → String
  | ⟨_, _, _, _, children, _, text, _⟩ => match text with
    | some text => text
    | none => "\n".intercalate (renderAll children)

def renderAll : List Node → List String
  | [] => []
  | n :: ns => render n :: renderAll ns

end

end Node

end SourceTree
