import SourceTree.Script.Grammar.Pattern

/-!
Types, and the parameter lists that types and callables share.
-/

namespace SourceTree.Script.Grammar

open Piece

/-- Types in angle brackets. -/
def typeArguments (r : Rules) : Piece :=
  role "type_arguments" (node "type_arguments" (sign "<" ++ items r.type ++ sign ">"))

def typeParameter (r : Rules) : Piece :=
  node "type_parameter" (opt (word "const") ++ many (provided startsAnother
      (word "in" <|> word "out")) ++ role "name" identifier ++
    opt (role "constraint" (node "constraint" (word "extends" ++ r.type))) ++
    opt (node "default_type" (punct "=" ++ r.type)))
where
  /-- A word is a modifier if another name follows. -/
  startsAnother (cs : Text) : Bool :=
    match name? cs with
    | none => false
    | some (_, rest) => match name? (afterGap rest) with
      | none => false
      | some (next, _) => next != "extends".toList

def typeParameters (r : Rules) : Piece :=
  role "type_parameters" (node "type_parameters" (sign "<" ++ items (typeParameter r) ++ sign ">"))

/-- A type behind a colon. -/
def typeMark (r : Rules) : Piece := role "type" (node "type_annotation" (punct ":" ++ r.type))

/-- What a callable asserts about a parameter, or tests. -/
def typePredicate (r : Rules) : Piece :=
  let subject := identifier <|> nameWhere "this" true (· == "this")
  let test := onLine (word "is") ++ r.type
  firstOf [
    node "asserts" (word "asserts" ++ onLine subject ++ opt test),
    node "type_predicate" (subject ++ test)]

/-- The type of what a callable gives back. -/
def returnType (r : Rules) : Piece :=
  role "return_type" (node "type_annotation" (punct ":" ++ (typePredicate r <|> r.type)))

/-! ### Parameters -/

/-- Whether what follows a word shows that the word is a modifier: something that can start a name
or a target. -/
def startsMember (cs : Text) : Bool :=
  (privateName? cs).isSome || (name? cs).isSome || (number? cs).isSome || (quoted? cs).isSome ||
    (cs.head?.map fun c => ['[', '\x7b', '*'].contains c).getD false || facesMark "..." cs

def modifier (w : String) : Piece := provided (isModifier w) (word w)
where
  isModifier (w : String) (cs : Text) : Bool :=
    match name? cs with
    | none => false
    | some (taken, rest) => taken == w.toList && startsMember (afterGap rest)

/-- Who may use a member. -/
def accessibility : Piece :=
  node "accessibility_modifier" (firstOf ((["public", "private", "protected"]).map modifier))

def overriding : Piece := node "override_modifier" (modifier "override")

/-- What can be called behind an at sign: dotted names, perhaps with arguments. -/
def decoratorTarget (r : Rules) : Piece := do
  let target ← identifier ++ many (punct "." ++ anyName "property_identifier")
  let target := if target.length = 1 then target else Construct.wrap "member_expression" target
  let call : Piece := do
    let values ← opt (typed (typeArguments r)) ++ arguments r
    return Construct.wrap "call_expression" (Construct.mark "function" target ++ values)
  call <|> pure target

def decorator (r : Rules) : Piece :=
  node "decorator" (punct "@" ++ (parenthesized r <|> decoratorTarget r))

def endsParameter (cs : Text) : Bool := faces ',' cs || faces ')' cs

def typedParameter (r : Rules) : Piece := do
  let target ← many (decorator r) ++ opt accessibility ++ opt overriding ++
    opt (modifier "readonly") ++ role "pattern" (parameterTarget r)
  let mark ← opt (punct "?")
  let more ← opt (typeMark r) ++ opt (initializer r) ++ provided endsParameter nothing
  let kind := if mark.isEmpty then "required_parameter" else "optional_parameter"
  return Construct.wrap kind (target ++ mark ++ more)

def untypedParameter (r : Rules) : Piece :=
  withDefault r (parameterTarget r) ++ provided endsParameter nothing

/-- Any token that does not end a parameter. -/
def strayToken : Piece :=
  provided (fun cs => !endsParameter cs) <|
    anyName "identifier" <|> lexeme "stray" false fun cs =>
      (punctuator? cs).map fun mark => (mark.toList, cs.drop mark.length)

/-- Tokens in front of a parameter that belong to no parameter are set aside. -/
def straysAndParameter (r : Rules) : Nat → Piece
  | 0 => failure
  | n + 1 => do
    let first ← strayToken
    let parameter : Piece := do
      let parameter ← untypedParameter r
      return Construct.wrap "ERROR" first ++ parameter
    let more : Piece := do
      match ← straysAndParameter r n with
      | [] => failure
      | strays :: parameter =>
        return Construct.wrap "ERROR" (first ++ strays.parts) ++ parameter
    parameter <|> more

def parameter (r : Rules) : Piece := do
  if (← read).isTyped then typedParameter r
  else untypedParameter r <|> straysAndParameter r 16

def formalParameters (r : Rules) : Piece :=
  role "parameters" (node "formal_parameters" (bracketed "(" (parameter r) ")"))

/-- Type parameters, parameters and result of a callable. -/
def callSignature (r : Rules) : Piece :=
  opt (typed (typeParameters r)) ++ formalParameters r ++ opt (typed (returnType r))

/-! ### Members of object types -/

def indexSignature (r : Rules) : Piece :=
  let sign := opt (punct "-" <|> punct "+")
  let key := (identifier ++ punct ":" ++ r.type) <|>
    (identifier ++ word "in" ++ r.type ++ opt (word "as" ++ r.type))
  node "index_signature" (opt (sign ++ word "readonly") ++ punct "[" ++ key ++ punct "]" ++
    opt (sign ++ punct "?") ++ opt (typeMark r))

def typeMemberModifiers : Piece :=
  opt accessibility ++ opt (modifier "static") ++ opt overriding ++ opt (modifier "readonly") ++
    opt (modifier "async") ++ opt (firstOf [modifier "get", modifier "set", punct "*"])

/-- A property or a method of an object type. -/
def namedTypeMember (r : Rules) : Piece := do
  let front ← typeMemberModifiers ++ role "name" (propertyName r) ++ opt (punct "?")
  let method : Piece := do
    return Construct.wrap "method_signature" (front ++ (← callSignature r))
  let property : Piece := do
    return Construct.wrap "property_signature" (front ++ (← opt (typeMark r)))
  method <|> property

def typeMember (r : Rules) : Piece :=
  firstOf [
    node "call_signature" (callSignature r),
    node "construct_signature" (opt (word "abstract") ++ word "new" ++ opt (typeParameters r) ++
      formalParameters r ++ opt (typeMark r)),
    indexSignature r,
    namedTypeMember r]

def objectType (kind : String) (r : Rules) : Piece :=
  node kind (punct "\x7b" ++ many (firstOf [typeMember r, punct ";", punct ","]) ++ punct "\x7d")

/-! ### Other types -/

def tupleMember (r : Rules) : Piece :=
  let label := identifier <|> node "rest_pattern" (punct "..." ++ identifier)
  firstOf [
    node "required_parameter" (role "name" label ++ typeMark r),
    node "optional_parameter" (role "name" label ++ punct "?" ++ typeMark r),
    node "rest_type" (punct "..." ++ r.type),
    r.type ++ opt (punct "?")]

def functionType (r : Rules) : Piece :=
  node "function_type" (opt (typeParameters r) ++ formalParameters r ++ punct "=>" ++
    role "return_type" (typePredicate r <|> r.type))

def constructorType (r : Rules) : Piece :=
  node "constructor_type" (opt (word "abstract") ++ word "new" ++ opt (typeParameters r) ++
    formalParameters r ++ punct "=>" ++ r.type)

def importType (r : Rules) : Piece :=
  node "call_expression" (role "function" (nameWhere "import" true (· == "import")) ++ arguments r)

/-- Dotted names that may follow a type or a value in a type. -/
def members : Piece := many (punct "." ++ (anyName "identifier" <|> privateName))

/-- The words that are types although they are reserved. -/
def isTypeName (w : String) : Bool :=
  !reserved.contains w || ["void", "null", "this", "true", "false"].contains w

def namedType (r : Rules) : Piece :=
  node "generic_type" ((importType r <|> nameWhere "type_identifier" true isTypeName) ++ members ++
    opt (onLine (typeArguments r)))

def typeQuery (r : Rules) : Piece :=
  node "type_query" (word "typeof" ++ (importType r <|> anyName "identifier") ++ members ++
    opt (onLine (typeArguments r)))

def isFunctionType (cs : Text) : Bool :=
  faces '<' cs || closedAndThen (facesMark "=>") cs

def primaryType (r : Rules) : Piece :=
  firstOf [
    provided isFunctionType (functionType r),
    constructorType r,
    node "parenthesized_type" (punct "(" ++ r.type ++ punct ")"),
    objectType "object_type" r,
    node "tuple_type" (bracketed "[" (tupleMember r) "]"),
    typeQuery r,
    quotedText,
    node "literal_type" (opt (punct "-") ++ number),
    template "template_literal_type" "template_type" r.type,
    namedType r]

/-- A type with the brackets that make it an array or look up a member. -/
def postfixType (r : Rules) : Piece := do
  let first ← primaryType r
  let more ← many (onLine (punct "[" ++ opt r.type ++ punct "]"))
  return if more.isEmpty then first else Construct.wrap "array_type" (first ++ more)

/-- Whether a word is followed by something that it can modify. -/
def modifiesType (cs : Text) : Bool :=
  match name? cs with
  | none => false
  | some (_, rest) =>
    let next := afterGap rest
    (name? next).isSome || (quoted? next).isSome ||
      (next.head?.map fun c => ['(', '[', '\x7b', '\x60'].contains c).getD false

/-- A type variable that a condition finds out. -/
def inferredType (r : Rules) : Piece := do
  let front ← word "infer" ++ identifier
  let bound : Piece := do
    let bound ← word "extends" ++ postfixType r ++ provided (fun cs => !faces '?' cs) nothing
    return bound
  return Construct.wrap "infer_type" (front ++ (← opt bound))

def operatorType (r : Rules) : Piece :=
  let operators := many (provided modifiesType
    (firstOf [word "keyof", word "readonly", word "unique"]))
  operators ++ firstOf [inferredType r, postfixType r]

/-- Alternatives and intersections. -/
def unionType (r : Rules) : Piece :=
  let operator := punct "|" <|> punct "&"
  opt operator ++ sepBy1 (node "type_operand" (operatorType r)) operator

/-- A type. It may depend on whether one type extends another. -/
def typeRule (r : Rules) : Piece :=
  node "type" (unionType r ++ opt (word "extends" ++ unionType r ++ punct "?" ++ r.type ++
    punct ":" ++ r.type))

end SourceTree.Script.Grammar
