import SourceTree.Body
import SourceTree.Java.Parameters

/-!
The tree of a Java source. Declarations are looked for only where one can begin, so the statements
of a method body never show up among the members of its class.
-/

namespace SourceTree.Java

open Scan (MaskedSource Range)

/-- The type whose body is being read. -/
structure Owner where
  name : Text
  isInterface : Bool

/-- What stands in front of a declaration. -/
structure Front where
  /-- The modifiers. -/
  words : List Text
  annotations : List Text

namespace Front

/-- Reads annotations and modifiers off a header that was matched at `start`. -/
def ofMatch? (text : MaskedSource) (start : Nat) (m : Match) : Option Front := do
  let annotations ← m.group? 1
  let modifiers ← m.group? 2
  let words ← text.text? (start + modifiers.start) (start + modifiers.stop)
  let found ← (annotationMark.findAll annotations.text).mapM fun a =>
    text.text? (start + annotations.start + a.whole.start) (start + annotations.start + a.stop)
  return ⟨Text.words words, found⟩

def has (f : Front) (word : String) : Bool := f.words.contains word.toList

/-- The visibility that the modifiers give; without one, members of interfaces are public and all
else is open to its package. -/
def visibility (f : Front) (inInterface : Bool) : Visibility :=
  if f.has "public" then .pub
  else if f.has "protected" then .prot
  else if f.has "private" then .priv
  else if inInterface then .pub
  else .package

/-- Notes what the modifiers and annotations say. -/
def apply (f : Front) (inInterface : Bool) (d : Draft) : Draft :=
  let v := f.visibility inInterface
  let d := (d.note "visibility" (.string v.label)).note "exported" (.bool (v == .pub))
  let d := ((d.noteIf (f.has "static") "static").noteIf (f.has "abstract") "abstract").noteIf
    (f.has "final") "final"
  d.noteTexts "decorators" f.annotations

end Front

def packageNode (text : MaskedSource) (start limit : Nat) : Attempt Node := do
  let m ← Attempt.expect (packageStatement.matchFront? (← Attempt.need (text.code? start limit)))
  Attempt.span .package start (start + m.stop) (Draft.named (m.groupText 1))

def importNode (text : MaskedSource) (start limit : Nat) : Attempt Node := do
  let m ← Attempt.expect (importStatement.matchFront? (← Attempt.need (text.code? start limit)))
  let path := m.groupText 2
  Attempt.span .importDecl start (start + m.stop)
    (((Draft.named path).noteText "source" path).noteIf (m.group? 1).isSome "static")

/-- Notes type parameters at `pos` and gives the offset from which to go on. -/
def typeParameters (text : MaskedSource) (pos limit : Nat) (d : Draft) : Attempt (Nat × Draft) := do
  if Text.at? text.masked pos == some '<' then
    let close ← Attempt.expect (Scan.findMatchingBefore? text.masked pos limit '<' '>')
    let params ← Attempt.need (text.text? pos (close + 1))
    return (← Attempt.need (text.skipBlanks? (close + 1)), d.noteText "typeParameters" params)
  else return (pos, d)

/-- Notes the components of a record at `pos` and gives the offset from which to go on. -/
def recordComponents (text : MaskedSource) (name : Text) (pos limit : Nat) (d : Draft) :
    Attempt (Nat × Draft) := do
  if Text.at? text.masked pos == some '(' then
    match Scan.findMatchingBefore? text.masked pos limit '(' ')' with
    | none =>
      Attempt.warn (.unclosedComponents name) pos limit
      Attempt.expect none
    | some close =>
      let components ← Attempt.need (parameters? text ⟨pos + 1, close⟩)
      return (close + 1, d.note "parameters" (Parameter.listValue components))
  else return (pos, d)

/-- The header of a type: what it says, the type whose body follows, the body and the end. -/
structure TypeHeader where
  front : Front
  draft : Draft
  owner : Owner
  body : Range
  stop : Nat

/-- The header of a type from the supertypes at `pos` on, up to the brace that opens its body. -/
def typeRest (text : MaskedSource) (front : Front) (keyword name : Text) (pos limit : Nat)
    (d : Draft) : Attempt TypeHeader := do
  let header ← Attempt.expect (text.code? pos limit)
  let brace ← Attempt.expect (Text.find? (· == '\x7b') header)
  let brace := pos + brace
  Attempt.check (!Text.contains (← Attempt.need (text.code? pos brace)) [';'])
  let (bodyEnd, stop) ← Attempt.bodyEnds text name brace limit
  let (bases, implemented) ← Attempt.need (heritage? text ⟨pos, brace⟩)
  let isAnnotation := keyword == "@interface".toList
  let d := (d.noteTexts "bases" bases).noteTexts "implements" implemented
  let d := d.noteText "declarationKind" (if isAnnotation then "annotation".toList else keyword)
  return ⟨front, d, ⟨name, isAnnotation || keyword == "interface".toList⟩, ⟨brace + 1, bodyEnd⟩, stop⟩

/-- The header of a class, interface, enumeration, record or annotation type. -/
def typeHead (text : MaskedSource) (start limit : Nat) : Attempt TypeHeader := do
  let m ← Attempt.expect (typeHeader.matchFront? (← Attempt.need (text.code? start limit)))
  let front ← Attempt.need (Front.ofMatch? text start m)
  let keyword := m.groupText 3
  let name := m.groupText 4
  let pos ← Attempt.need (text.skipBlanks? (start + m.stop))
  let (pos, d) ← typeParameters text pos limit (Draft.named name)
  let (pos, d) ← if keyword = "record".toList then recordComponents text name pos limit d
    else pure (pos, d)
  typeRest text front keyword name pos limit d

/-- A class, interface, enumeration, record or annotation type. `body` builds its members. -/
def typeNode (text : MaskedSource) (body : Range → Owner → Build (List Node)) (start limit : Nat) :
    Attempt Node := do
  let head ← typeHead text start limit
  let members ← body head.body head.owner
  Attempt.span (if head.owner.isInterface then .interface else .classDecl) start head.stop
    ((head.front.apply false head.draft).withChildren members)

/-- The header of a callable: the match, its name and its return type. -/
structure CallableHeader where
  found : Match
  name : Text
  returnType : Option Text

/-- A constructor header: it has to bear the name of the type. -/
def constructorHead (text : MaskedSource) (owner : Owner) (start limit : Nat) :
    Attempt CallableHeader := do
  let m ← Attempt.expect (constructorHeader.matchFront? (← Attempt.need (text.code? start limit)))
  Attempt.check (m.groupText 4 == owner.name)
  return ⟨m, m.groupText 4, none⟩

/-- A method header: its type must not be a word that is no type, nor its own name. -/
def methodHead (text : MaskedSource) (start limit : Nat) : Attempt CallableHeader := do
  let m ← Attempt.expect (methodHeader.matchFront? (← Attempt.need (text.code? start limit)))
  let type ← Attempt.expect (m.group? 4)
  let name := m.groupText 5
  let word := Text.trim type.text
  Attempt.check (word != name && !nonTypes.contains (String.ofList word))
  let returnType ← Attempt.need (text.text? (start + type.start) (start + type.stop))
  return ⟨m, name, some (Text.trim returnType)⟩

/-- What follows the parameters of a callable: a body or a semicolon. Gives the end of the callable
and whether it has a body. -/
def callableEnd (text : MaskedSource) (name : Text) (after limit : Nat) : Attempt (Nat × Bool) := do
  let rest ← Attempt.expect (text.code? after limit)
  let offset ← Attempt.expect (Text.find? (fun c => c == '\x7b' || c == ';') rest)
  if Text.at? rest offset == some '\x7b' then
    let (_, stop) ← Attempt.bodyEnds text name (after + offset) limit
    return (stop, true)
  else return (after + offset + 1, false)

/-- The type parameters of a callable whose header was matched at `start`. -/
def callableTypeParameters (text : MaskedSource) (start : Nat) (m : Match) :
    Attempt (Option Text) :=
  match m.group? 3 with
  | some g => do
    return some (Text.trim (← Attempt.need (text.text? (start + g.start) (start + g.stop))))
  | none => pure none

/-- A method or constructor: header, parameters, perhaps exceptions, then a body or a semicolon. -/
def callableNode (text : MaskedSource) (owner : Owner) (head : Nat → Nat → Attempt CallableHeader)
    (isConstructor : Bool) (start limit : Nat) : Attempt Node := do
  let ⟨m, name, returnType⟩ ← head start limit
  let front ← Attempt.need (Front.ofMatch? text start m)
  let typeParams ← callableTypeParameters text start m
  let openParen := start + m.stop - 1
  match Scan.findMatchingBefore? text.masked openParen limit '(' ')' with
  | none =>
    Attempt.warn (.unclosedParameters name) openParen limit
    Attempt.expect none
  | some closeParen =>
    let parameters ← Attempt.need (parameters? text ⟨openParen + 1, closeParen⟩)
    let (stop, hasBody) ← callableEnd text name (closeParen + 1) limit
    let d := (Draft.named name).note "parameters" (Parameter.listValue parameters)
    let d := (d.noteText? "returnType" returnType).noteText? "typeParameters" typeParams
    let isAbstract := owner.isInterface && !hasBody && !front.has "default" && !front.has "static"
    let d := ((d.noteIf isConstructor "constructor").noteIf isAbstract "abstract").noteIf
      (front.has "default") "defaultMethod"
    Attempt.span .method start stop (front.apply owner.isInterface d)

/-- A field. Its node reaches to the end of the statement. -/
def fieldNode (text : MaskedSource) (owner : Owner) (start limit : Nat) : Attempt Node := do
  let m ← Attempt.expect (fieldHeader.matchFront? (← Attempt.need (text.code? start limit)))
  let front ← Attempt.need (Front.ofMatch? text start m)
  let type ← Attempt.expect (m.group? 3)
  Attempt.check (!nonTypes.contains (String.ofList (Text.trim type.text)))
  let typeText ← Attempt.need (text.text? (start + type.start) (start + type.stop))
  let stop ← Attempt.need (text.statementEnd? (start + m.stop - 1) limit)
  let d := (Draft.named (m.groupText 4)).noteText "typeAnnotation" (Text.trim typeText)
  Attempt.span .property start stop
    (front.apply owner.isInterface (d.noteIf owner.isInterface "static"))

/-- The declaration that begins at `start`, of the file or of the type `owner`. -/
def member (text : MaskedSource) (body : Range → Owner → Build (List Node)) (owner : Option Owner)
    (limit start : Nat) : Attempt Node :=
  match owner with
  | none => Attempt.firstOf
    [packageNode text start limit, importNode text start limit, typeNode text body start limit]
  | some owner => Attempt.firstOf
    [typeNode text body start limit,
      callableNode text owner (constructorHead text owner) true start limit,
      callableNode text owner (methodHead text) false start limit,
      fieldNode text owner start limit]

/-- Builds what begins at each of the offsets, passing over those that lie inside the construct
built last. -/
def collect (build : Nat → Attempt Node) (covered : Nat) : List Nat → Build (List Node)
  | [] => pure []
  | start :: starts => do
    if start < covered then collect build covered starts
    else match ← (build start).run with
      | some node => return node :: (← collect build node.location.endIndex starts)
      | none => collect build covered starts

/-- The declarations inside a region, which is the whole file or the body of `owner`. The depth
bounds how deep types are nested. -/
def members (text : MaskedSource) : Nat → Range → Option Owner → Build (List Node)
  | 0, _, _ => pure []
  | depth + 1, region, owner => do
    let starts ← Build.need (text.memberStarts? region)
    let body := fun inner innerOwner => members text depth inner (some innerOwner)
    collect (member text body owner region.stop) region.start starts

/-- The tree of a Java source. Types are nested less deep than the source has bytes. -/
def tree (source : Text) : Build Node := do
  let text := MaskedSource.ofBrace source
  let children ← members text (text.size + 1) ⟨0, text.size⟩ none
  Build.root .program children

def parse? (source : Text) (path : String) : Option ParsedFile :=
  Build.file? path .java source (tree source)

end SourceTree.Java
