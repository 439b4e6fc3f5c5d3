import SourceTree.Builder
import SourceTree.Parameter
import SourceTree.Scan.Split
import SourceTree.Script.Construct
import SourceTree.Script.Dialect
import SourceTree.Script.Kind
import SourceTree.Script.Linkage

/-!
From the constructs of a script to its tree. Constructs without a tag of their own are transparent.
Where the constructs come from is left open: any reader of scripts may give them.
-/

namespace SourceTree.Script

/-- A construct where it stands: with the constructs around it, innermost first, and with the constructs
in front of it, nearest first. -/
structure Site where
  source : Text
  construct : Construct
  around : List Construct
  before : List Construct

namespace Site

def textOf (s : Site) (c : Construct) : Text :=
  (Text.slice? s.source c.start c.stop).getD []

def text (s : Site) : Text := s.textOf s.construct

def partText? (s : Site) (role : String) : Option Text :=
  (s.construct.part? role).map s.textOf

def kind (s : Site) : String := s.construct.kind

def hasToken (s : Site) (token : String) : Bool := s.construct.hasToken token

def outer? (s : Site) : Option Construct := s.around.head?

/-- Whether the construct is the first of its neighbours with this role. -/
def plays (s : Site) (role : String) : Bool :=
  s.construct.role == some role && !s.before.any fun c => c.role == some role

/-- Whether the construct is a parameter because of where it stands. -/
def isParameter (s : Site) : Bool :=
  match s.outer? with
  | none => false
  | some outer =>
    (outer.kind == "formal_parameters" && !s.construct.isComment) ||
      (outer.kind == "arrow_function" && s.plays "parameter")

def tag? (s : Site) : Option NodeKind :=
  if s.isParameter then some .parameter else kindOf? s.kind

/-! ### Parameters -/

def targetParameter (s : Site) (c : Construct) : Parameter :=
  let text := s.textOf c
  if c.kind == "rest_pattern" then
    { name := String.ofList (Text.trim (Text.trimStartWord "...".toList text)), variadic := true }
  else { name := String.ofList (Text.trim text) }

/-- A type without the colon in front of it. -/
def bareType (text : Text) : Text := Text.trim ((Text.trim text).dropWhile (· == ':'))

def parameterOf (s : Site) (c : Construct) : Parameter :=
  let partString? (role : String) : Option String :=
    (c.part? role).map fun p => String.ofList (s.textOf p)
  let target (role : String) : Parameter :=
    ((c.part? role).map s.targetParameter).getD { name := "" }
  match c.kind with
  | "required_parameter" | "optional_parameter" =>
    let value := partString? "value"
    { target "pattern" with
      type := (c.part? "type").map fun p => String.ofList (bareType (s.textOf p))
      defaultValue := value
      optional := c.kind == "optional_parameter" || value.isSome }
  | "assignment_pattern" =>
    { target "left" with defaultValue := partString? "right", optional := true }
  | _ => s.targetParameter c

/-- The parameter list of a callable, or its only parameter. -/
def parameterPart? (s : Site) : Option Construct :=
  (s.construct.part? "parameters").or (s.construct.part? "parameter")

def parameters (s : Site) : List Parameter :=
  match s.parameterPart? with
  | none => []
  | some p =>
    if p.kind == "formal_parameters" then
      (p.namedParts.filter fun c => !c.isComment).map s.parameterOf
    else [s.parameterOf p]

/-! ### Names -/

/-- The name of the variable that holds the construct as its value. -/
def holderName? (s : Site) : Option Text := do
  let outer ← s.outer?
  if outer.kind == "variable_declarator" && s.plays "value" then
    (outer.part? "name").map s.textOf
  else none

def nameFor (s : Site) (tag : NodeKind) : Option Text :=
  let found := match tag with
    | .parameter => some (s.parameterOf s.construct).name.toList
    | .importDecl => (s.partText? "source").map unquote
    | .callExpression => (s.partText? "function").or (s.partText? "constructor")
    | .decorator =>
      some (Text.trim ((s.text.dropWhile (· == '@')).takeWhile (· != '(')))
    | .moduleDecl => (s.partText? "name").map unquote
    | .function | .arrowFunction => (s.partText? "name").or s.holderName?
    | _ => (s.partText? "name").or (s.partText? "property")
  found.filter fun name => !name.isEmpty

/-! ### Exports and decorators -/

/-- Constructs between a declaration and the export around it. -/
def isWrapper (kind : String) : Bool :=
  ["variable_declarator", "lexical_declaration", "variable_declaration",
    "ambient_declaration"].contains kind

/-- Whether a text begins as an export, and as a default export. -/
def exportFlags (text : Text) : Bool × Bool :=
  let text := Text.trimStart text
  (Text.startsWith text "export".toList, Text.startsWith text "export default".toList)

/-- Whether the construct is exported, and as the default: by its own text or by the export
statement around it. -/
def exported (s : Site) : Bool × Bool :=
  let own := exportFlags s.text
  if own.1 then own
  else match (s.around.dropWhile fun c => isWrapper c.kind).head? with
    | some c => if c.kind == "export_statement" then exportFlags (s.textOf c) else (false, false)
    | none => (false, false)

/-- Members have a visibility and are not exported. -/
def isMember (s : Site) : Bool :=
  match s.outer? with
  | some c => ["class_body", "interface_body", "object_type"].contains c.kind
  | none => false

/-- The decorators directly in front of the construct, fixed tokens apart, and those inside it. -/
def decorators (s : Site) : List Text :=
  let isDecorator := fun (c : Construct) => c.kind == "decorator"
  let outside := ((s.before.filter Construct.isNamed).takeWhile isDecorator).reverse
  let inside := s.construct.namedParts.filter isDecorator
  (outside ++ inside).map s.textOf

/-! ### Metadata -/

/-- The words in front of a member, and its visibility. -/
def noteModifiers (s : Site) (d : Draft) : Draft :=
  let access := s.construct.namedParts.find? fun c => c.kind == "accessibility_modifier"
  let isPrivate := match s.partText? "name" with
    | some ('#' :: _) => true
    | _ => false
  let visibility := match access with
    | some c => s.textOf c
    | none => (if isPrivate then "private" else "public").toList
  ((((d.noteIf (s.hasToken "static") "static").noteIf
    (s.hasToken "abstract" || s.kind == "abstract_method_signature") "abstract").noteIf
    (s.hasToken "readonly") "readonly").noteText "visibility" visibility)

def noteTypeParameters (s : Site) (d : Draft) : Draft :=
  d.noteText? "typeParameters" (s.partText? "type_parameters")

/-- Whether the construct is a method, with or without a body. -/
def isMethod (s : Site) : Bool :=
  Text.startsWith s.kind.toList "method".toList || s.kind == "abstract_method_signature"

/-- What only methods say. -/
def noteMethod (s : Site) (d : Draft) : Draft :=
  if !s.isMethod then d
  else
    let d := s.noteModifiers d
    let d := d.noteIf (s.partText? "name" == some "constructor".toList) "constructor"
    let d := if s.hasToken "get" then d.noteText "accessor" "get".toList else d
    let d := if s.hasToken "set" then d.noteText "accessor" "set".toList else d
    d.noteTexts "decorators" s.decorators

/-- Whether `async` stands in front of the parameters. -/
def isAsync (s : Site) : Bool :=
  let limit := (s.parameterPart?.map Construct.start).getD s.construct.stop
  s.construct.parts.any fun c => !c.isNamed && c.kind == "async" && c.stop ≤ limit

def isGenerator (s : Site) : Bool :=
  Text.contains s.kind.toList "generator".toList || s.hasToken "*"

def noteCallable (s : Site) (d : Draft) : Draft :=
  let d := d.note "async" (.bool s.isAsync)
  let d := d.noteIf s.isGenerator "generator"
  let d := d.note "parameters" (Parameter.listValue s.parameters)
  let d := d.noteText? "returnType" ((s.partText? "return_type").map bareType)
  s.noteMethod (s.noteTypeParameters d)

/-- The types of an `extends` or `implements` clause. -/
def clauseTypes (text : Text) : List Text :=
  let text := Text.trim text
  let types := ((Text.after? text "extends".toList).or
    (Text.after? text "implements".toList)).getD text
  (Scan.splitTopLevel types ',' true).map Span.text

/-- What a class extends. -/
def bases (s : Site) (tag : NodeKind) : List Text :=
  s.construct.namedParts.flatMap fun c =>
    if c.kind == "class_heritage" then
      c.namedParts.flatMap fun clause =>
        if clause.kind == "extends_clause" then clauseTypes (s.textOf clause)
        else if clause.kind == "implements_clause" then []
        else [Text.trim (s.textOf clause)]
    else if c.kind == "extends_type_clause" && tag == .interface then clauseTypes (s.textOf c)
    else []

def implemented (s : Site) : List Text :=
  (s.construct.namedParts.filter fun c => c.kind == "class_heritage").flatMap fun c =>
    (c.namedParts.filter fun clause => clause.kind == "implements_clause").flatMap fun clause =>
      clauseTypes (s.textOf clause)

/-- What classes, enumerations and interfaces say. -/
def noteClass (s : Site) (tag : NodeKind) (d : Draft) : Draft :=
  let d := if s.kind == "enum_declaration" then d.noteText "declarationKind" "enum".toList else d
  let d := d.noteIf (s.kind == "abstract_class_declaration") "abstract"
  let d := s.noteTypeParameters d
  let d := d.noteTexts "bases" (s.bases tag)
  let d := d.noteTexts "implements" s.implemented
  d.noteTexts "decorators" s.decorators

def declarationKeyword? (s : Site) : Option String := do
  let outer ← s.outer?
  match outer.kind with
  | "variable_declaration" => some "var"
  | "lexical_declaration" =>
    let text := Text.trimStart (s.textOf outer)
    some (if Text.startsWith text "const".toList then "const" else "let")
  | _ => none

def isFunctionKind (kind : String) : Bool :=
  ["arrow_function", "function_expression", "function", "generator_function"].contains kind

def noteVariable (s : Site) (d : Draft) : Draft :=
  let d := d.noteIf (((s.construct.part? "value").map fun c => isFunctionKind c.kind).getD false)
    "functionValue"
  d.noteText? "declarationKind" (s.declarationKeyword?.map String.toList)

def noteSource (s : Site) (d : Draft) : Draft :=
  d.noteText? "source" ((s.partText? "source").map unquote)

def noteExported (s : Site) (tag : NodeKind) (d : Draft) : Draft :=
  if isDeclaration tag && !s.isMember then
    (d.note "exported" (.bool s.exported.1)).noteIf s.exported.2 "default"
  else d

/-- All but the children of the node that the construct becomes. -/
def draft (s : Site) (tag : NodeKind) : Draft :=
  let d : Draft := { name := (s.nameFor tag).map String.ofList }
  let d := s.noteExported tag d
  match tag with
  | .function | .arrowFunction | .method => s.noteCallable d
  | .classDecl | .interface => s.noteClass tag d
  | .typeAlias => s.noteTypeParameters d
  | .property => s.noteModifiers d
  | .variableDecl => s.noteVariable d
  | .importDecl => (s.noteSource d).noteIf (s.hasToken "type") "typeOnly"
  | .exportDecl => s.noteSource (d.noteIf (s.hasToken "default") "default")
  | _ => d

end Site

mutual

/-- The nodes of a construct: its own, or those of its parts if it is transparent. What is missing has
none. -/
def nodesOf (source : Text) (around before : List Construct) : Construct → Build (List Node)
  | ⟨kind, isNamed, isMissing, role, start, stop, parts⟩ => do
    let c : Construct := ⟨kind, isNamed, isMissing, role, start, stop, parts⟩
    let site : Site := ⟨source, c, around, before⟩
    if isMissing then return []
    let children ← nodesOfAll source (c :: around) [] parts
    match site.tag? with
    | none => return children
    | some tag => return [← Build.span tag start stop ((site.draft tag).withChildren children)]

/-- The nodes of constructs that stand side by side. -/
def nodesOfAll (source : Text) (around before : List Construct) :
    List Construct → Build (List Node)
  | [] => return []
  | c :: cs => do
    if c.isNamed then
      let first ← nodesOf source around before c
      return first ++ (← nodesOfAll source around (c :: before) cs)
    else nodesOfAll source around (c :: before) cs

end

mutual

/-- Warns of all that could not be read or is missing, but not of what is inside of it. -/
def warnOf : Construct → Build Unit
  | ⟨kind, isNamed, isMissing, role, start, stop, parts⟩ =>
    let c : Construct := ⟨kind, isNamed, isMissing, role, start, stop, parts⟩
    if c.isError then Build.warn .unexpected start stop
    else if isMissing then Build.warn (.missing kind.toList) start stop
    else warnOfAll parts

def warnOfAll : List Construct → Build Unit
  | [] => return ()
  | c :: cs => do
    warnOf c
    warnOfAll cs

end

/-- The tree of a script, from the construct that is the whole of it. Without that construct it has no
nodes but its root, and all of it is unexpected. -/
def tree (whole : Option Construct) (source : Text) : Build Node :=
  match whole with
  | none => do
    Build.warn .unexpected 0 (Text.size source)
    Build.root .program []
  | some program => do
    let children ← nodesOfAll source [program] [] program.parts
    warnOf program
    Build.root .program children

/-- Reads a script as a construct, if it can be read at all. -/
abbrev ConcreteReader := Dialect → Text → Option Construct

def parse? (reader : ConcreteReader) (language : Language) (source : Text) (path : String) :
    Option ParsedFile :=
  Build.file? path language source (tree (reader (Dialect.ofPath language path) source) source)

end SourceTree.Script
