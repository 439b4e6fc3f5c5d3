import SourceTree.Script.Grammar.Callable

/-!
Classes and their members.
-/

namespace SourceTree.Script.Grammar

open Piece

/-- What a class extends and implements. -/
def heritage (r : Rules) : Piece := do
  let extended := node "extends_clause" (word "extends" ++
    sepBy1 (role "value" r.operand ++ opt (typeArguments r)) (punct ","))
  let implemented := node "implements_clause" (word "implements" ++ sepBy1 r.type (punct ","))
  if (← read).isTyped then
    node "class_heritage" ((extended ++ opt implemented) <|> implemented)
  else node "class_heritage" (word "extends" ++ r.operand)

def memberModifiers : Piece := do
  let own := ["static", "async", "get", "set"]
  let words := if (← read).isTyped then
    own ++ ["readonly", "declare", "abstract", "accessor"] else own
  many (firstOf ([typed accessibility, typed overriding] ++ words.map modifier)) ++ opt (punct "*")

def memberEnd (afterExpression : Bool) : Piece :=
  semicolon afterExpression <|> typed (punct ",")

def hasWord (w : String) (parts : List Construct) : Bool :=
  parts.any fun p => !p.isNamed && p.kind == w

/-- A method, given its modifiers. In typed dialects its decorators stay outside it. -/
def methodMember (r : Rules) (decorators modifiers : List Construct) : Piece := do
  let isTyped := (← read).isTyped
  let signature ← role "name" (propertyName r) ++ opt (typed (punct "?")) ++ callSignature r
  let definition : Piece := do
    let body ← body false r
    let parts := modifiers ++ signature ++ body
    let method := if isTyped then decorators ++ Construct.wrap "method_definition" parts
      else Construct.wrap "method_definition" (decorators ++ parts)
    return method ++ (← opt (punct ";" <|> typed (unwritten false)))
  let bodiless : Piece := do
    let kind := if hasWord "abstract" modifiers then "abstract_method_signature"
      else "method_signature"
    return decorators ++ Construct.wrap kind (modifiers ++ signature) ++ (← memberEnd false)
  definition <|> typed bodiless

/-- A field, given its modifiers. -/
def fieldMember (r : Rules) (front : List Construct) : Piece := do
  let isTyped := (← read).isTyped
  let name ← role (if isTyped then "name" else "property") (propertyName r)
  let type ← opt (typed (opt (punct "?" <|> punct "!") ++ opt (typeMark r)))
  let value ← opt (initializer r)
  let kind := if isTyped then "public_field_definition" else "field_definition"
  return Construct.wrap kind (front ++ name ++ type ++ value) ++
    (← memberEnd (!value.isEmpty))

/-- A method or a field. -/
def namedMember (r : Rules) : Piece := do
  let decorators ← many (decorator r)
  let modifiers ← memberModifiers
  methodMember r decorators modifiers <|> fieldMember r (decorators ++ modifiers)

def staticBlock (r : Rules) : Piece := node "class_static_block" (word "static" ++ body false r)

def classBody (r : Rules) : Piece :=
  role "body" (node "class_body" (punct "\x7b" ++ many (firstOf [
    punct ";",
    staticBlock r,
    typed (opt (modifier "static") ++ indexSignature r ++ memberEnd false),
    namedMember r]) ++ punct "\x7d"))

/-- What follows the name of a class. -/
def classTail (r : Rules) : Piece :=
  opt (typed (typeParameters r)) ++ opt (heritage r) ++ classBody r

def classDeclaration (afterExpression : Bool) (r : Rules) : Piece :=
  node "class_declaration" (many (decorator r) ++ word "class" ++ role "name" identifier ++
    classTail r ++ opt (unwritten afterExpression))

def abstractClass (r : Rules) : Piece :=
  typed (node "abstract_class_declaration" (many (decorator r) ++ word "abstract" ++ word "class" ++
    role "name" identifier ++ classTail r))

def classExpression (r : Rules) : Piece :=
  node "class" (many (decorator r) ++ word "class" ++ opt (role "name" identifier) ++ classTail r)

def objectMethod (r : Rules) : Piece :=
  node "method_definition" (memberModifiers ++ role "name" (propertyName r) ++
    opt (typed (punct "?")) ++ callSignature r ++ body false r)

end SourceTree.Script.Grammar
