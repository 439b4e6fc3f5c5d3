import SourceTree.Script.Grammar.Class
import SourceTree.Script.Grammar.Element

/-!
Expressions, from operands to assignments.
-/

namespace SourceTree.Script.Grammar

open Piece

def objectLiteral (r : Rules) : Piece :=
  node "object" (bracketed "\x7b" (firstOf [
    spread r,
    objectMethod r,
    node "pair" (role "key" (propertyName r) ++ punct ":" ++ role "value" r.expression),
    nameWhere "shorthand_property_identifier" true fun _ => true]) "\x7d")

def arrayLiteral (r : Rules) : Piece :=
  node "array" (bracketed "[" (spread r <|> r.expression) "]")

def templateString (r : Rules) : Piece :=
  template "template_string" "template_substitution" (expressions r)

/-- Operands that are complete by themselves. -/
def primary (r : Rules) : Piece :=
  firstOf [
    parenthesized r,
    functionExpression r,
    classExpression r,
    objectLiteral r,
    arrayLiteral r,
    templateString r,
    quotedText,
    number,
    lexeme "regex" true regex?,
    node "meta_property" (word "new" ++ punct "." ++ word "target"),
    node "meta_property" (word "import" ++ punct "." ++ word "meta"),
    identifier,
    privateName,
    nameWhere "keyword" true fun w => ["this", "super", "null", "true", "false"].contains w,
    nameWhere "import" true (· == "import")]

def memberStep (r : Rules) : Piece :=
  let name := anyName "property_identifier" <|> privateName
  let element := punct "[" ++ expressions r ++ punct "]"
  firstOf [(punct "." <|> punct "?.") ++ name, opt (punct "?.") ++ element]

/-- Whether type arguments may end an expression in front of this. -/
def endsInstantiation (cs : Text) : Bool :=
  match cs.head? with
  | none => true
  | some c => [';', ',', ')', ']', '\x7d', ':', '.', '?'].contains c

/-- Members, calls and the like behind an operand, at most `fuel` of them. Without `calls` only
members follow. -/
def trail (r : Rules) (calls : Bool) : Nat → List Construct → Piece
  | 0, left => pure left
  | fuel + 1, left => do
    let member : Piece := do return Construct.wrap "member_expression" (left ++ (← memberStep r))
    let sure : Piece := do
      return Construct.wrap "non_null_expression" (left ++ (← typed (onLine (punct "!"))))
    let call (front : List Construct) : Piece := do
      let values ← arguments r <|> role "arguments" (templateString r)
      return Construct.wrap "call_expression" (Construct.mark "function" left ++ front ++ values)
    let plainCall : Piece := do
      if !calls then failure
      call (← opt (punct "?."))
    let typedCall : Piece := do
      if !calls then failure
      let types ← opt (punct "?.") ++ typed (typeArguments r)
      let instantiated : Piece := provided endsInstantiation do
        return Construct.wrap "instantiation_expression" (left ++ types)
      call types <|> instantiated
    match ← (some <$> firstOf [member, sure, plainCall, typedCall]) <|> pure none with
    | some next => trail r calls fuel next
    | none => pure left

/-- An object that is made. What it is made of is an operand with members but without calls. -/
def newExpression (r : Rules) : Piece :=
  node "new_expression" (word "new" ++ role "constructor" (constructed r) ++
    opt (typed (typeArguments r)) ++ opt (arguments r))
where
  constructed (r : Rules) : Piece := do
    let left ← provided (fun cs => (name? cs).any fun cut => cut.1 == "new".toList) r.operand <|>
      primary r
    trail r false (← get).rest.length left

/-- An operand with all that follows it. -/
def chain (r : Rules) : Piece := do
  let elements : Piece := do if (← read).hasElements then r.element else failure
  let left ← firstOf [newExpression r, provided (faces '<') elements, primary r]
  let left ← trail r true (← get).rest.length left
  let counted : Piece := do
    let mark ← onLine (punct "++" <|> punct "--")
    return Construct.wrap "update_expression" (Construct.mark "argument" left ++ mark)
  counted <|> pure left

/-- The words that cast a value. -/
def castStep (r : Rules) (left : List Construct) : Piece :=
  let cast (w kind : String) : Piece := do
    let type ← typed (word w ++ (word "const" <|> r.type))
    return Construct.wrap kind (left ++ type)
  cast "as" "as_expression" <|> cast "satisfies" "satisfies_expression"

/-- A value that is cast any number of times. -/
def casts (r : Rules) : Nat → List Construct → Piece
  | 0, left => pure left
  | fuel + 1, left => do
    match ← (some <$> castStep r left) <|> pure none with
    | some next => casts r fuel next
    | none => pure left

/-- A value that is waited for; casts belong to the value. -/
def awaitExpression (r : Rules) : Piece := do
  let mark ← word "await"
  let value ← casts r (← get).rest.length (← r.operand)
  return Construct.wrap "await_expression" (mark ++ value)

def unaryExpression (r : Rules) : Piece :=
  let operator := firstOf (["!", "~", "+", "-"].map punct ++ ["typeof", "void", "delete"].map word)
  node "unary_expression" (operator ++ role "argument" r.operand)

def typeAssertion (r : Rules) : Piece := do
  if (← read).hasElements then failure
  node "type_assertion" (typeArguments r ++ r.operand)

def operandRule (r : Rules) : Piece :=
  firstOf [
    unaryExpression r,
    node "update_expression" ((punct "++" <|> punct "--") ++ role "argument" r.operand),
    awaitExpression r,
    typeAssertion r,
    chain r]

/-- How tightly a binary operator binds. -/
def tightness? : String → Option Nat
  | "??" => some 1
  | "||" => some 2
  | "&&" => some 3
  | "|" => some 4
  | "^" => some 5
  | "&" => some 6
  | "==" | "!=" | "===" | "!==" => some 7
  | "<" | ">" | "<=" | ">=" | "in" | "instanceof" => some 8
  | "<<" | ">>" | ">>>" => some 9
  | "+" | "-" => some 10
  | "*" | "/" | "%" => some 11
  | "**" => some 12
  | _ => none

def binaryOperator? (cs : Text) : Option String :=
  match name? cs with
  | some (word, _) => if word == "in".toList || word == "instanceof".toList then
      some (String.ofList word) else none
  | none => (punctuator? cs).filter fun mark => (tightness? mark).isSome

/-- Operators that bind at least as tightly as `least`, and their right operands. A power groups to
the right, all else to the left. -/
def climb (r : Rules) : Nat → Nat → List Construct → Piece
  | 0, _, left => pure left
  | fuel + 1, least, left => do
    let cs := (← get).ahead
    match (binaryOperator? cs).bind fun mark => (tightness? mark).map fun t => (mark, t) with
    | none => pure left
    | some (mark, tightness) =>
      if tightness < least then return left
      let combined : Piece := do
        let operator ← if (name? cs).isSome then word mark else punct mark
        let inner := if mark == "**" then tightness else tightness + 1
        let right ← climb r fuel inner (← r.operand)
        return Construct.wrap "binary_expression" (Construct.mark "left" left ++
          Construct.mark "operator" operator ++ Construct.mark "right" right)
      match ← (some <$> combined) <|> pure none with
      | some next => climb r fuel least next
      | none => return left

/-- Operands joined by operators, with casts last. A cast value may be joined further. -/
def joined (r : Rules) : Nat → List Construct → Piece
  | 0, left => pure left
  | fuel + 1, left => do
    let left ← climb r (fuel + 1) 0 left
    match ← (some <$> castStep r left) <|> pure none with
    | some next => joined r fuel next
    | none => pure left

/-- A choice between two values. -/
def conditional (r : Rules) : Piece := do
  let condition ← joined r (← get).rest.length (← r.operand)
  let chosen : Piece := do
    let values ← punct "?" ++ role "consequence" r.expression ++ punct ":" ++
      role "alternative" r.expression
    return Construct.wrap "ternary_expression" (Construct.mark "condition" condition ++ values)
  chosen <|> pure condition

def assignmentOperators : List String :=
  ["+=", "-=", "*=", "/=", "%=", "^=", "&=", "|=", ">>=", ">>>=", "<<=", "**=", "&&=", "||=", "??="]

/-- An assignment to `left`, or `left` alone. -/
def assigned (r : Rules) (left : List Construct) : Piece :=
  let target := Construct.mark "left" left
  let plain : Piece := do
    let value ← punct "=" ++ role "right" r.expression
    return Construct.wrap "assignment_expression" (target ++ value)
  let augmented : Piece := do
    let value ← role "operator" (firstOf (assignmentOperators.map punct)) ++
      role "right" r.expression
    return Construct.wrap "augmented_assignment_expression" (target ++ value)
  firstOf [plain, augmented, pure left]

/-- Whether an object or an array at the front is taken apart. -/
def facesDestructuring (cs : Text) : Bool :=
  (faces '[' cs || faces '\x7b' cs) && closedAndThen (facesMark "=") cs

def destructuring (r : Rules) : Piece :=
  provided facesDestructuring do
    assigned r (← destructured r)

/-- A generator's value. -/
def yieldExpression (r : Rules) : Piece :=
  node "yield_expression" (word "yield" ++
    ((punct "*" ++ r.expression) <|> opt (onLine r.expression)))

/-- An arrow function. Behind its block a bracket goes on with what it is, even on the next line. -/
def arrowExpression (r : Rules) : Piece := do
  let function ← arrowFunction r
  trail r true (← get).rest.length function

def expressionRule (r : Rules) : Piece :=
  firstOf [yieldExpression r, arrowExpression r, destructuring r, do assigned r (← conditional r)]

end SourceTree.Script.Grammar
