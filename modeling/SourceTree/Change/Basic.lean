import SourceTree.Codec.Node

/-!
Changes to a source: insertions, replacements, deletions and moves of pieces of it, given by byte
offsets into the source that they were made for.
-/

namespace SourceTree

inductive ChangeKind where
  | insert | replace | delete | move
  deriving DecidableEq, Repr

namespace ChangeKind

def all : List ChangeKind := [insert, replace, delete, move]

def label : ChangeKind → String
  | insert => "insert"
  | replace => "replace"
  | delete => "delete"
  | move => "move"

def ofLabel? (s : String) : Option ChangeKind := all.find? fun k => k.label == s

end ChangeKind

/-- A change to a piece of a source. Only the two indices of the location matter for applying it. An
insertion takes place at the start of its location; a move cuts its piece out and puts it back at
its destination. -/
structure Change where
  kind : ChangeKind
  location : Location
  targetNode : Option NodeId := none
  newContent : Option String := none
  destination : Option Nat := none
  description : Option String := none
  deriving DecidableEq, Repr

namespace Change

/-- How messages refer to a change: by its description, or by its kind and place. -/
def label (c : Change) : String :=
  match c.description with
  | some description => description
  | none => c.kind.label ++ " [" ++ toString c.location.startIndex ++ ", " ++
      toString c.location.endIndex ++ ")"

def toValue (c : Change) : Value :=
  .object <|
    [("type", .string c.kind.label), ("location", c.location.toValue)] ++
    Value.field? "targetNode" .nat c.targetNode ++
    Value.field? "newContent" .string c.newContent ++
    Value.field? "destination" .nat c.destination ++
    Value.field? "description" .string c.description

def ofValue? (v : Value) : Option Change := do
  let fields ← v.record? ["type", "location", "targetNode", "newContent", "destination",
    "description"]
  let kind ← Value.required? fields "type" fun s => s.asString?.bind ChangeKind.ofLabel?
  let location ← Value.required? fields "location" Location.ofValue?
  let targetNode ← Value.optional? fields "targetNode" Value.asNat32?
  let newContent ← Value.optional? fields "newContent" Value.asString?
  let destination ← Value.optional? fields "destination" Value.asNat64?
  let description ← Value.optional? fields "description" Value.asString?
  return ⟨kind, location, targetNode, newContent, destination, description⟩

def listOfValue? (v : Value) : Option (List Change) := do (← v.asList?).mapM ofValue?

end Change

namespace Node

def describe (n : Node) : String :=
  match n.name with
  | some name => n.kind.label ++ " \x60" ++ name ++ "\x60"
  | none => n.kind.label ++ " n" ++ toString n.id

end Node

namespace Change

def insertBefore (n : Node) (content : String) : Change :=
  let l := n.location
  { kind := .insert
    location := ⟨l.startLine, l.startColumn, l.startLine, l.startColumn, l.startIndex, l.startIndex⟩
    targetNode := some n.id
    newContent := some content
    description := some ("insert before " ++ n.describe) }

def insertAfter (n : Node) (content : String) : Change :=
  let l := n.location
  { kind := .insert
    location := ⟨l.endLine, l.endColumn, l.endLine, l.endColumn, l.endIndex, l.endIndex⟩
    targetNode := some n.id
    newContent := some content
    description := some ("insert after " ++ n.describe) }

/-- Inserts content at a byte offset; line and column are left at zero. -/
def insertAt (index : Nat) (content : String) : Change :=
  { kind := .insert
    location := ⟨0, 0, 0, 0, index, index⟩
    newContent := some content
    description := some ("insert at " ++ toString index) }

def replaceNode (n : Node) (content : String) : Change :=
  { kind := .replace
    location := n.location
    targetNode := some n.id
    newContent := some content
    description := some ("replace " ++ n.describe) }

def replaceRange (location : Location) (content : String) : Change :=
  { kind := .replace, location := location, newContent := some content }

def deleteNode (n : Node) : Change :=
  { kind := .delete
    location := n.location
    targetNode := some n.id
    description := some ("delete " ++ n.describe) }

/-- Deletes a piece of the source. -/
def deleteRange (location : Location) : Change := { kind := .delete, location := location }

def moveNode (n : Node) (destination : Nat) : Change :=
  { kind := .move
    location := n.location
    targetNode := some n.id
    destination := some destination
    description := some ("move " ++ n.describe ++ " to " ++ toString destination) }

end Change

end SourceTree
