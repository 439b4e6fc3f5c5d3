import SourceTree.Go.Pattern
import SourceTree.Linkage
import SourceTree.Symbol

/-!
Imports, exports and symbols of a Go tree.
-/

namespace SourceTree.Go

/-- The import that a node states. A point imports all names, an underscore none, and without a name
the last component of the path is bound. -/
def nodeImport (n : Node) : Option Import := do
  let text ← n.text
  let m ← importSpec.matchFront? (Text.trim text.toList)
  let path := m.groupText 2
  let i : Import := { source := String.ofList path, location := n.location }
  match m.group? 1 with
  | none =>
    return { i with namespaceImport := some (String.ofList (Text.lastPiece (· == '/') path)) }
  | some g =>
    if g.text = ['.'] then return { i with isWildcard := true }
    else if g.text = ['_'] then return i
    else return { i with namespaceImport := some (String.ofList g.text) }

def imports (root : Node) : List Import :=
  (root.children.filter fun n => n.kind == .importDecl).filterMap nodeImport

/-- The exported declarations of a file. -/
def exports (root : Node) : List Export :=
  let isExported := fun (n : Node) =>
    (n.kind == .function || n.kind == .struct || n.kind == .interface || n.kind == .typeAlias ||
      n.kind == .variableDecl) && n.flag "exported"
  (root.children.filter isExported).filterMap fun n =>
    n.name.map fun name => { name := name, kind := .declaration, location := n.location }

/-- Methods belong to the type of their receiver. -/
def symbolRules : SymbolRules where
  counts := fun _ n => match n.kind with
    | .function | .method | .struct | .interface | .typeAlias | .variableDecl | .property => true
    | _ => false
  owns := fun kind => match kind with
    | .struct | .interface => true
    | _ => false
  statedOwner? := fun n => n.note? "receiverType"

end SourceTree.Go
