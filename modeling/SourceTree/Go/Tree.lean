import SourceTree.Body
import SourceTree.Go.Line
import SourceTree.Go.Parameters
import SourceTree.Go.Pattern

/-!
The tree of a Go source: the declarations that begin a line outside all braces, single or in
groups.
-/

namespace SourceTree.Go

open Scan (MaskedSource)

/-- Notes whether a name is exported and thus public. -/
def access (name : Text) (d : Draft) : Draft :=
  let exported := isExported name
  (d.note "exported" (.bool exported)).note "visibility"
    (.string (if exported then Visibility.pub else Visibility.priv).label)

/-- What a declaration yields: its nodes and its end. -/
structure Declared where
  nodes : List Node
  stop : Nat

def packageDecl (text : MaskedSource) (start : Nat) : Attempt Declared := do
  let m ← Attempt.expect (packageClause.matchFront? (← Attempt.need (Text.drop? text.masked start)))
  let stop := start + m.stop
  return ⟨[← Attempt.span .package start stop (Draft.named (m.groupText 1))], stop⟩

/-- The end of the statement that starts at `start`. -/
def lineEnd (text : MaskedSource) (start limit : Nat) : Attempt Nat :=
  Attempt.need (lineEnd? text start limit)

/-- How one kind of declaration reads a single item: from the start of its node, the start of the
item and the limit of the group around it. -/
abbrev ItemReader := Nat → Nat → Nat → Attempt Declared

/-- An import. Its path stands in a literal and so has to be read from the source. -/
def importItem (text : MaskedSource) : ItemReader := fun nodeStart start limit => do
  let stop ← lineEnd text start limit
  let m ← Attempt.expect (importSpec.matchFront? (← Attempt.need (text.text? start stop)))
  let path := m.groupText 2
  let node ← Attempt.span .importDecl nodeStart stop ((Draft.named path).noteText "source" path)
  return ⟨[node], stop⟩

/-- Notes what a receiver says. -/
def receiver (text : Text) (d : Draft) : Draft :=
  let text := Text.trim text
  let (name, type) := match Text.splitLast? Text.isBlank text with
    | some (name, type) => (some (Text.trim name), Text.trim type)
    | none => (none, text)
  let base := Text.trim (Text.upTo (· == '[') (type.dropWhile (· == '*')))
  let d := d.noteText? "receiver" name
  (d.noteText "receiverType" base).note "pointerReceiver" (.bool (Text.startsWith type ['*']))

/-- Notes the receiver in a header that was matched at `start`; there is one for methods only. -/
def receiverPart (text : MaskedSource) (start : Nat) (m : Match) (d : Draft) :
    Attempt (NodeKind × Draft) :=
  match m.group? 1 with
  | some g => do
    let part ← Attempt.need (text.text? (start + g.start) (start + g.stop))
    return (.method, receiver part d)
  | none => pure (.function, d)

/-- Notes the type parameters in a header that was matched at `start`. -/
def typeParameters (text : MaskedSource) (start : Nat) (m : Match) (d : Draft) : Attempt Draft :=
  match m.group? 3 with
  | some g => do
    let params ← Attempt.need (text.text? (start + g.start) (start + g.stop))
    return d.noteText "typeParameters" params
  | none => pure d

/-- The results end where the body begins, or with the line. -/
def resultsEnd (text : MaskedSource) (start : Nat) : Option Nat → Attempt Nat
  | some brace => pure brace
  | none => lineEnd text start text.size

/-- A function ends with its body, or with its results. -/
def funcEnd (text : MaskedSource) (name : Text) (resultsEnd : Nat) : Option Nat → Attempt Nat
  | some brace => do
    let (_, stop) ← Attempt.bodyEnds text name brace text.size
    return stop
  | none => pure resultsEnd

/-- A function or method. -/
def funcDecl (text : MaskedSource) (start : Nat) : Attempt Declared := do
  let m ← Attempt.expect (funcHeader.matchFront? (← Attempt.need (Text.drop? text.masked start)))
  let name := m.groupText 2
  let openParen := start + m.stop - 1
  match Scan.findMatching? text.masked openParen '(' ')' with
  | none =>
    Attempt.warn (.unclosedParameters name) openParen text.size
    Attempt.expect none
  | some closeParen =>
    let (kind, d) ← receiverPart text start m (Draft.named name)
    let d ← typeParameters text start m d
    let list ← Attempt.need (text.text? (openParen + 1) closeParen)
    let d := d.note "parameters" (Parameter.listValue (parameters list))
    let body ← Attempt.need (bodyOpen? text (closeParen + 1))
    let resultsEnd ← resultsEnd text (closeParen + 1) body
    let results := Text.trim (← Attempt.need (text.text? (closeParen + 1) resultsEnd))
    let d := if results.isEmpty then d else d.noteText "returnType" results
    let stop ← funcEnd text name resultsEnd body
    return ⟨[← Attempt.span kind start stop (access name d)], stop⟩

/-- The names and the type of a field that has names, from its text and the mask of it. -/
def namedField? (raw masked : Text) : Option (Option (List Text × Text)) :=
  match field.matchFront? masked with
  | none => some none
  | some m => do
    let type ← m.group? 2
    let stop := ((Text.find? (· == '\x60') type.text).map (type.start + ·)).getD type.stop
    let typeText := Text.trim (← Text.slice? raw type.start stop)
    return if typeText.isEmpty then none else some (listedNames (m.groupText 1), typeText)

def embeddedName (type : Text) : Text :=
  Text.lastPiece (· == '.') (Text.upTo (· == '[') (type.dropWhile (· == '*')))

/-- The fields on the line from `start` to `stop`. -/
def lineFields (text : MaskedSource) (start stop : Nat) : Build (List Node) := do
  let masked ← Build.need (text.code? start stop)
  let raw ← Build.need (text.text? start stop)
  let tag := (Text.find? (· == '\x60') raw).bind fun i => (Text.drop? raw i).map Text.trim
  match ← Build.need (namedField? raw masked) with
  | some (names, type) =>
    names.mapM fun name =>
      let d := (Draft.named name).noteText "typeAnnotation" type
      Build.span .property start stop ((access name d).noteText? "tag" tag)
  | none =>
    let type := Text.trim (Text.upTo (· == '\x60') masked)
    let name := embeddedName type
    if name.isEmpty then return []
    else
      let d := ((Draft.named name).noteText "typeAnnotation" type).note "embedded" (.bool true)
      return [← Build.span .property start stop ((access name d).noteText? "tag" tag)]

/-- Goes through the lines of a group and gathers what `read` gives for each. -/
def eachLine (text : MaskedSource) (limit : Nat) (read : Nat → Nat → Build (List α)) (pos : Nat) :
    Build (List α) := do
  if pos < limit then
    let stop ← Build.need (lineEnd? text pos limit)
    let found ← read pos stop
    let ⟨next, _⟩ ← Build.need (goOn? text pos stop)
    return found ++ (← eachLine text limit read next)
  else return []
termination_by limit - pos

def structFields (text : MaskedSource) (start limit : Nat) : Build (List Node) := do
  let pos ← Build.need (text.skipBlanks? start)
  eachLine text limit (lineFields text) pos

/-- What a line of an interface body holds. -/
inductive InterfaceItem where
  | method (node : Node)
  | embedded (text : Text)

namespace InterfaceItem

def node? : InterfaceItem → Option Node
  | method node => some node
  | embedded _ => none

def embedded? : InterfaceItem → Option Text
  | method _ => none
  | embedded text => some text

end InterfaceItem

/-- The method or the embedded type on the line from `start` to `stop`. -/
def interfaceItem (text : MaskedSource) (start stop : Nat) : Build (List InterfaceItem) := do
  let masked ← Build.need (text.code? start stop)
  let head := (interfaceMethod.matchFront? masked).bind fun m =>
    let openParen := start + m.stop - 1
    (Scan.findMatchingBefore? text.masked openParen stop '(' ')').map fun close =>
      (m.groupText 1, openParen, close)
  match head with
  | some (name, openParen, closeParen) =>
    let list ← Build.need (text.text? (openParen + 1) closeParen)
    let results ← Build.need (text.text? (min (closeParen + 1) stop) stop)
    let results := Text.trim results
    let d := (Draft.named name).note "parameters" (Parameter.listValue (parameters list))
    let d := access name (d.note "abstract" (.bool true))
    let d := if results.isEmpty then d else d.noteText "returnType" results
    return [.method (← Build.span .method start stop d)]
  | none =>
    if (Text.trim masked).isEmpty then return []
    else return [.embedded (Text.trim (← Build.need (text.text? start stop)))]

/-- The methods and the embedded types of an interface body. -/
def interfaceMembers (text : MaskedSource) (start limit : Nat) :
    Build (List Node × List Text) := do
  let pos ← Build.need (text.skipBlanks? start)
  let items ← eachLine text limit (interfaceItem text) pos
  return (items.filterMap InterfaceItem.node?, items.filterMap InterfaceItem.embedded?)

/-- Whether a type begins with this keyword and an opening brace. -/
def hasBraceKeyword (type : Text) (keyword : String) : Bool :=
  match Text.after? type keyword.toList with
  | some rest => (Text.trimStart rest).head? == some '\x7b'
  | none => false

/-- Whether brackets behind a type name hold type parameters: then a blank stands between words. -/
def isParameterList (brackets : Text) : Bool :=
  let inside := Text.dropEndWhile (fun c => c == '[' || c == ']')
    (brackets.dropWhile fun c => c == '[' || c == ']')
  (Text.trim inside).any Text.isBlank

def bodyType (text : MaskedSource) (name : Text) (nodeStart typeStart limit : Nat) (rest : Text)
    (d : Draft) : Attempt Declared := do
  let brace ← Attempt.expect (Text.find? (· == '\x7b') rest)
  let brace := typeStart + brace
  let (bodyEnd, stop) ← Attempt.bodyEnds text name brace limit
  if hasBraceKeyword rest "struct" then
    let fields ← structFields text (brace + 1) bodyEnd
    return ⟨[← Attempt.span .struct nodeStart stop (d.withChildren fields)], stop⟩
  else
    let (methods, embedded) ← interfaceMembers text (brace + 1) bodyEnd
    let d := (d.noteTexts "embeds" embedded).withChildren methods
    return ⟨[← Attempt.span .interface nodeStart stop d], stop⟩

/-- Where a type itself begins: behind its name and type parameters, which are noted, or at brackets
that belong to it. -/
def typePlace (text : MaskedSource) (start : Nat) (m : Match) : Attempt (Nat × Draft) :=
  let d := Draft.named (m.groupText 1)
  match m.group? 2 with
  | none => pure (start + m.stop, d)
  | some g =>
    if isParameterList g.text then do
      let params ← Attempt.need (text.text? (start + g.start) (start + g.stop))
      return (start + m.stop, d.noteText "typeParameters" params)
    else pure (start + g.start, d)

def typeItem (text : MaskedSource) : ItemReader := fun nodeStart start limit => do
  let m ← Attempt.expect (typeSpec.matchFront? (← Attempt.need (text.code? start limit)))
  let name := m.groupText 1
  let (typeStart, d) ← typePlace text start m
  let isAlias := (m.group? 3).isSome
  let rest ← Attempt.need (text.code? typeStart limit)
  let d := access name d
  if !isAlias && (hasBraceKeyword rest "struct" || hasBraceKeyword rest "interface") then
    bodyType text name nodeStart typeStart limit rest d
  else
    let stop ← lineEnd text typeStart limit
    let target ← Attempt.need (text.text? typeStart stop)
    let d := d.noteText "aliasOf" (Text.trim target)
    let d := if isAlias then d.note "declarationKind" (.string "alias") else d
    return ⟨[← Attempt.span .typeAlias nodeStart stop d], stop⟩

/-- Variables or constants that share a declaration. The blank name declares nothing. -/
def valueItem (text : MaskedSource) (keyword : Text) : ItemReader := fun nodeStart start limit => do
  let stop ← lineEnd text start limit
  let masked ← Attempt.need (text.code? start stop)
  let names ← Attempt.expect (nameList.matchFront? masked)
  let rest ← Attempt.need (Text.drop? masked names.stop)
  let typeCode := Text.trim (Text.upTo (· == '=') rest)
  let offset := start + names.stop + Text.blankSize rest
  let type ← if typeCode.isEmpty then pure none
    else do pure (some (← Attempt.need (text.text? offset (offset + Text.size typeCode))))
  let nodes ← ((listedNames names.whole.text).filter (· != ['_'])).mapM fun name => do
    let d := access name ((Draft.named name).noteText "declarationKind" keyword)
    let d := d.noteText? "typeAnnotation" type
    Attempt.span .variableDecl nodeStart stop d
  return ⟨nodes, stop⟩

/-- The item at `pos`; what is no item is passed over up to the end of its line. -/
def itemOrLine (text : MaskedSource) (item : ItemReader) (close pos : Nat) : Build Declared := do
  match ← (item pos pos close).run with
  | some declared => return declared
  | none => return ⟨[], ← Build.need (lineEnd? text pos close)⟩

/-- The items of a group that ends at `close`. -/
def groupItems (text : MaskedSource) (item : ItemReader) (close pos : Nat) : Build (List Node) := do
  if pos < close then
    let declared ← itemOrLine text item close pos
    let ⟨next, _⟩ ← Build.need (goOn? text pos declared.stop)
    return declared.nodes ++ (← groupItems text item close next)
  else return []
termination_by close - pos

/-- The parenthesis that closes a group; an unclosed group reaches to the end. -/
def groupClose (text : MaskedSource) (keyword : Text) (start : Nat) : Attempt Nat :=
  match Scan.findMatching? text.masked start '(' ')' with
  | some close => pure close
  | none => do
    Attempt.warn (.unclosedGroup keyword) start text.size
    return text.size

/-- A declaration of one item, or of a group of them in parentheses. -/
def grouped (text : MaskedSource) (keyword : Text) (item : ItemReader) (start : Nat) :
    Attempt Declared := do
  let after ← Attempt.need (text.skipBlanks? (start + Text.size keyword))
  if Text.at? text.masked after != some '(' then item start after text.size
  else
    let close ← groupClose text keyword after
    let pos ← Attempt.need (text.skipBlanks? (after + 1))
    let nodes ← groupItems text item close pos
    return ⟨nodes, min (close + 1) text.size⟩

def declared (text : MaskedSource) (keyword : Text) (start : Nat) : Attempt Declared :=
  match String.ofList keyword with
  | "package" => packageDecl text start
  | "import" => grouped text keyword (importItem text) start
  | "func" => funcDecl text start
  | "type" => grouped text keyword (typeItem text) start
  | _ => grouped text keyword (valueItem text keyword) start

/-- The declarations at the given keywords, passing over those that lie inside an earlier one or
inside a block. -/
def declarations (text : MaskedSource) (blocks : List Scan.Range) (covered : Nat) :
    List Span → Build (List Node)
  | [] => pure []
  | keyword :: keywords => do
    if keyword.start < covered || Scan.isNested blocks keyword.start then
      declarations text blocks covered keywords
    else match ← (declared text keyword.text keyword.start).run with
      | some found => return found.nodes ++ (← declarations text blocks found.stop keywords)
      | none => declarations text blocks covered keywords

def tree (source : Text) : Build Node := do
  let text := MaskedSource.ofBrace source
  let blocks := Scan.firstLevelBlocks text.masked ⟨0, text.size⟩
  let keywords := (declaration.findAll text.masked).filterMap fun m => m.group? 1
  let children ← declarations text blocks 0 keywords
  Build.root .program children

def parse? (source : Text) (path : String) : Option ParsedFile :=
  Build.file? path .go source (tree source)

end SourceTree.Go
