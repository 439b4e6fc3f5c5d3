import SourceTree.Java.Pattern
import SourceTree.Linkage
import SourceTree.Symbol

/-!
Imports, exports and symbols of a Java tree.
-/

namespace SourceTree.Java

def nodeImport (n : Node) : Option Import := do
  let text ← n.text
  let m ← importStatement.matchFront? (Text.trim text.toList)
  let path := m.groupText 2
  let isWildcard := (m.group? 3).isSome
  let last := Text.lastPiece (· == '.') path
  return {
    source := String.ofList path
    names := if isWildcard then [] else [{ name := String.ofList last }]
    isStatic := (m.group? 1).isSome
    isWildcard := isWildcard
    location := n.location }

def imports (root : Node) : List Import :=
  (root.children.filter fun n => n.kind == .importDecl).filterMap nodeImport

/-- The public types of a file. -/
def exports (root : Node) : List Export :=
  let isExported := fun (n : Node) =>
    (n.kind == .classDecl || n.kind == .interface) && n.flag "exported"
  (root.children.filter isExported).filterMap fun n =>
    n.name.map fun name => { name := name, kind := .declaration, location := n.location }

def symbolRules : SymbolRules where
  counts := fun _ n => match n.kind with
    | .classDecl | .interface | .method | .property => true
    | _ => false
  owns := fun kind => match kind with
    | .classDecl | .struct | .interface => true
    | _ => false

end SourceTree.Java
