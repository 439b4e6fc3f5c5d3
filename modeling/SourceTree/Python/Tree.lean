import SourceTree.Python.Header
import SourceTree.Scan.LogicalLine
import SourceTree.Scan.MaskedSource

/-!
The tree of a Python source. Statements are told apart by their first words, and the body of a
class or function is the block of lines indented further than its header.
-/

namespace SourceTree.Python

open Pattern
open Scan (LogicalLine MaskedSource)

/-- The words that may be followed by a colon without declaring anything. -/
def keywords : List String :=
  ["if", "elif", "else", "for", "while", "try", "except", "finally", "with", "match", "case",
    "lambda", "return", "pass", "raise", "del", "global", "nonlocal", "assert", "yield", "print"]

/-- A source, its mask and the names that the module declares to be its public ones. -/
structure Context where
  text : MaskedSource
  publicNames : Option (List Text)

namespace Context

/-- The mask of a line from its first character that is not blank. -/
def code? (text : MaskedSource) (line : LogicalLine) : Option Text :=
  text.code? line.contentStart line.stop

def assignsPublicNames? (text : MaskedSource) (line : LogicalLine) : Option Bool := do
  if line.isCode && line.indent == 0 then
    let code ← code? text line
    return Text.startsWith code "__all__".toList && (assignment.matchFront? code).isSome
  else return false

def publicNames? (text : MaskedSource) : List LogicalLine → Option (Option (List Text))
  | [] => some none
  | line :: lines => do
    if ← assignsPublicNames? text line then
      let content ← text.text? line.contentStart line.stop
      return some (listedStrings (assignedValue content))
    else publicNames? text lines

def ofSource? (source : Text) (lines : List LogicalLine) : Option Context := do
  let text : MaskedSource := ⟨source, Scan.maskIndent source⟩
  return ⟨text, ← publicNames? text lines⟩

/-- Whether a name of the module is offered to others. -/
def isExported (cx : Context) (name : Text) : Bool :=
  match cx.publicNames with
  | some names => names.contains name
  | none => visibility name == .pub

/-- The mask of a line from its first character that is not blank. -/
def code (cx : Context) (line : LogicalLine) : Build Text := Build.need (code? cx.text line)

/-- The ends of a line's statement, without blanks and comments around it. -/
def statement (cx : Context) (line : LogicalLine) : Build (Nat × Nat) := do
  let code ← cx.code line
  return (line.contentStart, line.contentStart + Text.size (Text.trimEnd code))

end Context

/-- The module that an import statement names first. -/
def importedModule? (code : Text) : Option Text :=
  match fromImport.matchFront? code with
  | some m => some (m.groupText 1)
  | none => do
    let m ← importStatement.matchFront? code
    (Text.words (Text.upTo (· == ',') (m.groupText 1))).head?

def importNode (cx : Context) (line : LogicalLine) : Attempt Node := do
  let source ← Attempt.expect (importedModule? (← cx.code line))
  let (start, stop) ← cx.statement line
  Attempt.span .importDecl start stop ((Draft.named source).noteText "source" source)

/-- An assignment or annotation on a line: a variable of the module or a property of a class. -/
def assignmentNode (cx : Context) (line : LogicalLine) (scope : Scope) : Attempt Node := do
  let code ← cx.code line
  let m ← Attempt.expect ((assignment.matchFront? code).or (annotatedName.matchFront? code))
  let name := m.groupText 1
  Attempt.check (!keywords.contains (String.ofList name))
  let (start, stop) ← cx.statement line
  let d := (Draft.named name).note "visibility" (.string (visibility name).label)
  let d ← match m.group? 2 with
    | some type => do
      let text ← Attempt.need (cx.text.text? (start + type.start) (start + type.stop))
      pure (d.noteText "typeAnnotation" (Text.trim text))
    | none => pure d
  if scope == .classBody then Attempt.span .property start stop d
  else Attempt.span .variableDecl start stop (d.note "exported" (.bool (cx.isExported name)))

def decoratorNode (cx : Context) (line : LogicalLine) : Build Node := do
  let (start, stop) ← cx.statement line
  let text ← Build.need (cx.text.text? start stop)
  Build.span .decorator start stop (Draft.named (decoratorName text))

/-- A class or function with its decorators. `stop` is the end of its block and `body` builds the
statements in it. -/
def definition (cx : Context) (scope : Scope) (decorators : List LogicalLine)
    (header : LogicalLine) (stop : Nat) (body : Scope → Build (List Node)) : Attempt Node := do
  let code ← cx.code header
  let isClass := (classHeader.matchFront? code).isSome
  Attempt.check (isClass || (defHeader.matchFront? code).isSome)
  let start := (decorators.head?.getD header).contentStart
  let decoratorNodes ← decorators.mapM fun d => (decoratorNode cx d : Attempt Node)
  let decoratorTexts := decoratorNodes.filterMap fun n => n.text.map String.toList
  let members ← body (if isClass then .classBody else .functionBody)
  let text ← Attempt.need (cx.text.text? header.contentStart header.stop)
  let draft ← if isClass then classDraft ⟨text, code⟩ decoratorTexts
    else defDraft ⟨text, code⟩ decoratorTexts scope
  let name := (draft.name.getD "").toList
  let draft := draft.note "visibility" (.string (visibility name).label)
  let draft := if scope == .moduleBody then
      draft.note "exported" (.bool (cx.isExported name)) else draft
  let draft := (draft.noteTexts "decorators" decoratorTexts).withChildren (decoratorNodes ++ members)
  let kind : NodeKind := if isClass then .classDecl
    else if scope == .classBody then .method else .function
  Attempt.span kind start stop draft

/-- The indentation of the first line of code. -/
def baseIndent? (lines : List LogicalLine) : Option Nat :=
  (lines.find? LogicalLine.isCode).map LogicalLine.indent

def simpleStatement (cx : Context) (scope : Scope) (line : LogicalLine) : Build (List Node) := do
  let node ← (match scope with
    | .moduleBody => Attempt.firstOf [importNode cx line, assignmentNode cx line scope]
    | .classBody => assignmentNode cx line scope
    | .functionBody => Attempt.expect none).run
  return node.toList

/-- The nodes of the next `count` lines, which are those of a block whose statements are indented
by `base`. The first `skip` of the lines belong to a definition already built; `decorators` are the
decorator lines just above. Lines indented otherwise belong to statements that declare nothing,
apart from imports in a module. -/
def statements (cx : Context) (scope : Scope) (base : Nat) (decorators : List LogicalLine)
    (skip count : Nat) : List LogicalLine → Build (List Node)
  | [] => pure []
  | line :: rest =>
    match skip, count with
    | _, 0 => pure []
    | skip + 1, count + 1 => statements cx scope base decorators skip count rest
    | 0, count + 1 => do
      if !line.isCode then
        statements cx scope base decorators 0 count rest
      else if line.indent != base then
        let found ← if scope == .moduleBody then (importNode cx line).run else pure none
        return found.toList ++ (← statements cx scope base [] 0 count rest)
      else if (← cx.code line).head? == some '@' then
        statements cx scope base (decorators ++ [line]) 0 count rest
      else
        let length := Scan.blockLength line.indent rest
        let stop := ((rest.take length).getLast?.getD line).stop
        let body := fun inner => match baseIndent? (rest.take length) with
          | none => pure []
          | some innerBase => statements cx inner innerBase [] 0 length rest
        match ← (definition cx scope decorators line stop body).run with
        | some node => return node :: (← statements cx scope base [] length count rest)
        | none =>
          let nodes ← simpleStatement cx scope line
          return nodes ++ (← statements cx scope base [] 0 count rest)

def tree (source : Text) : Build Node := do
  let lines := Scan.logicalLines source
  let cx ← Build.need (Context.ofSource? source lines)
  let children ← match baseIndent? lines with
    | none => pure []
    | some base => statements cx .moduleBody base [] 0 lines.length lines
  Build.root .program children

def parse? (source : Text) (path : String) : Option ParsedFile :=
  Build.file? path .python source (tree source)

end SourceTree.Python
