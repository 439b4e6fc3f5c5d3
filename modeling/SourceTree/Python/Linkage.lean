import SourceTree.Linkage
import SourceTree.Node.Walk
import SourceTree.Python.Pattern
import SourceTree.Scan.Mask
import SourceTree.Symbol

/-!
Imports, exports and symbols of a Python tree.
-/

namespace SourceTree.Python

/-- The name that follows `as` in the words of an item. -/
def aliasOf? : List Text → Option Text
  | _ :: word :: short :: _ => if word = "as".toList then some short else none
  | _ => none

/-- The trimmed items of a comma-separated list, without empty ones. -/
def listItems (list : Text) : List Text :=
  ((Text.splitBy (· == ',') list).map Text.trim).filter fun item => !item.isEmpty

/-- Takes in one item of a `from` import. -/
def addImported (i : Import) (item : Text) : Import :=
  if item = ['*'] then { i with isWildcard := true }
  else match Text.words item with
    | [] => i
    | name :: more => { i with names := i.names ++
        [{ name := String.ofList name, rename := (aliasOf? (name :: more)).map String.ofList }] }

/-- One module of an `import` statement; without an alias its first component is bound. -/
def importedModule (location : Location) (item : Text) : Option Import := do
  let words := Text.words item
  let module ← words.head?
  let binding := (aliasOf? words).getD (Text.upTo (· == '.') module)
  return { source := String.ofList module, namespaceImport := some (String.ofList binding),
           location := location }

/-- The imports of an import node: one, or one for each module. -/
def nodeImports (n : Node) : List Import :=
  match n.text with
  | none => []
  | some text =>
    let masked := Scan.maskIndent text.toList
    match fromImport.matchFront? masked with
    | some m =>
      let list := (Text.trim (m.groupText 2)).dropWhile (· == '(')
      let items := listItems (Text.dropEndWhile (· == ')') list)
      [items.foldl addImported { source := String.ofList (m.groupText 1), location := n.location }]
    | none => match importStatement.matchFront? masked with
      | none => []
      | some m => (listItems (m.groupText 1)).filterMap (importedModule n.location)

def imports (root : Node) : List Import := (root.findByKind .importDecl).flatMap nodeImports

/-- The exports of a module: the names listed as public, or else the exported declarations. -/
def exports (root : Node) : List Export :=
  match root.children.find? fun n => n.kind == .variableDecl && n.name == some "__all__" with
  | some n =>
    (listedStrings (assignedValue (n.text.getD "").toList)).map fun name =>
      { name := String.ofList name, kind := .named, location := n.location }
  | none =>
    let isDeclaration := fun (n : Node) =>
      (n.kind == .function || n.kind == .classDecl || n.kind == .variableDecl) && n.flag "exported"
    (root.children.filter isDeclaration).filterMap fun n =>
      n.name.map fun name => { name := name, kind := .declaration, location := n.location }

def symbolRules : SymbolRules where
  counts := fun _ n => match n.kind with
    | .function | .method | .classDecl | .variableDecl | .property => true
    | _ => false
  owns := fun kind => match kind with
    | .classDecl | .struct | .interface => true
    | _ => false

end SourceTree.Python
