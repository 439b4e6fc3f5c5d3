import SourceTree.Linkage
import SourceTree.Node.Walk
import SourceTree.Script.Pattern
import SourceTree.Symbol
import SourceTree.Text.Split

/-!
Import and export statements, read from their text.
-/

namespace SourceTree.Script

/-- The text without blanks and then without quotes and backticks around it. -/
def unquote (text : Text) : Text :=
  let isMark := fun c => isQuote c || c == '\x60'
  Text.dropEndWhile isMark ((Text.trim text).dropWhile isMark)

/-- The names of a list of specifiers; what is no specifier is passed over. -/
def specifiers (block : Text) : List ImportedName :=
  ((Text.splitBy (· == ',') block).map Text.trim).filterMap fun item =>
    (specifier.matchFront? item).map fun m =>
      { name := String.ofList (m.groupText 2)
        rename := (m.group? 3).map fun g => String.ofList g.text
        isType := (m.group? 1).isSome }

/-- The default binding of an import clause: what remains in front of the first comma that has
something in front of it. -/
def defaultBinding (clause : Text) : Option Text :=
  let remainder := namespaceBinding.eraseFirst (namedBlock.eraseFirst clause)
  ((Text.splitBy (· == ',') remainder).map Text.trim).find? fun part => !part.isEmpty

def addClause (clause : Text) (i : Import) : Import :=
  let space := namespaceBinding.search? clause
  { i with
    namespaceImport := space.map fun m => String.ofList (m.groupText 1)
    isWildcard := space.isSome
    names := ((namedBlock.search? clause).map fun m => specifiers (m.groupText 1)).getD []
    defaultImport := (defaultBinding clause).map String.ofList }

def importOf (text : Text) (location : Location) : Option Import :=
  let text := Text.trim text
  match sideEffectImport.matchFront? text with
  | some m => some { source := String.ofList (m.groupText 1), location := location }
  | none => do
    let m ← (fromClause 1).search? text
    let i : Import := { source := String.ofList (m.groupText 1), location := location }
    match importClause.matchFront? text with
    | none => return i
    | some c => return addClause (c.groupText 2) { i with isTypeOnly := (c.group? 1).isSome }

def nodeImport (n : Node) : Option Import := n.text.bind fun text => importOf text.toList n.location

def specifierExports (block : Text) (source : Option Text) (isTypeOnly : Bool)
    (location : Location) : List Export :=
  (specifiers block).map fun s =>
    { name := s.localName
      localName := if s.rename.isSome then some s.name else none
      kind := if source.isSome then .reExport else .named
      source := source.map String.ofList
      isTypeOnly := isTypeOnly || s.isType
      location := location }

/-- The exports of a declaration. One that declares several variables names them all. -/
def declarationExports (keyword name : Text) (declared : List String) (location : Location) :
    List Export :=
  let several := if ["const", "let", "var"].contains (String.ofList keyword) then declared else []
  let names := if several.isEmpty then [String.ofList name] else several
  names.map fun name =>
    { name := name, kind := .declaration, location := location
      isTypeOnly := keyword == "interface".toList || keyword == "type".toList }

/-- The exports that the text of a statement states; `declared` are the variables declared in
it. -/
def exportsOf (text : Text) (declared : List String) (location : Location) : List Export :=
  let text := Text.trim text
  if let some m := exportStar.matchFront? text then
    let base : Export := match m.group? 2 with
      | some g => { name := String.ofList g.text, kind := .namespaceReExport, location := location }
      | none => { name := "*", kind := .reExport, location := location }
    [{ base with source := some (String.ofList (m.groupText 3)), isTypeOnly := (m.group? 1).isSome }]
  else if let some m := exportNamed.matchFront? text then
    specifierExports (m.groupText 2) ((m.group? 3).map Span.text) (m.group? 1).isSome location
  else if let some m := exportDefault.matchFront? text then
    let target := defaultTarget.matchFront? (text.drop m.whole.text.length)
    let bound := target.bind fun t => ((t.group? 1).or (t.group? 2)).or (t.group? 3)
    [{ name := "default", kind := .default, location := location
       localName := bound.map fun g => String.ofList g.text }]
  else if let some m := exportDeclaration.matchFront? text then
    declarationExports (m.groupText 1) (m.groupText 2) declared location
  else []

/-- The names of the variables directly inside a node. -/
def variableNames (n : Node) : List String :=
  (n.children.filter fun child => child.kind == .variableDecl).filterMap Node.name

def nodeExports (n : Node) : List Export :=
  match n.text with
  | none => []
  | some text => exportsOf text.toList (variableNames n) n.location

def imports (root : Node) : List Import := (root.findByKind .importDecl).filterMap nodeImport

def exports (root : Node) : List Export :=
  (root.children.filter fun n => n.kind == .exportDecl).flatMap nodeExports

/-- Variables count only outside callables, and not if they hold a function. -/
def symbolRules : SymbolRules where
  counts := fun inCallable n => match n.kind with
    | .function | .arrowFunction | .method | .classDecl | .interface | .typeAlias | .moduleDecl
    | .property => true
    | .variableDecl => !inCallable && !n.flag "functionValue"
    | _ => false
  owns := fun kind => match kind with
    | .classDecl | .interface => true
    | _ => false

end SourceTree.Script
