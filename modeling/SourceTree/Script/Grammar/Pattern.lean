import SourceTree.Script.Grammar.Rules

/-!
What values are bound or assigned to: names, and objects and arrays of such targets. The readings
here are given the reading of the targets inside them.
-/

namespace SourceTree.Script.Grammar

open Piece

def withDefault (r : Rules) (target : Piece) : Piece := do
  let target ← target
  let withValue : Piece := do
    let value ← punct "=" ++ role "right" r.expression
    return Construct.wrap "assignment_pattern" (Construct.mark "left" target ++ value)
  withValue <|> pure target

/-- All that remains. -/
def restPattern (target : Piece) : Piece := node "rest_pattern" (punct "..." ++ target)

def objectPattern (r : Rules) (target : Piece) : Piece :=
  node "object_pattern" (bracketed "\x7b" (firstOf [
    restPattern target,
    node "pair_pattern" (role "key" (propertyName r) ++ punct ":" ++
      role "value" (withDefault r target)),
    withDefault r (anyName "shorthand_property_identifier_pattern")]) "\x7d")

def arrayPattern (r : Rules) (target : Piece) : Piece :=
  node "array_pattern" (bracketed "[" (restPattern target <|> withDefault r target) "]")

def bindingRule (r : Rules) : Piece :=
  firstOf [objectPattern r r.binding, arrayPattern r r.binding, identifier]

/-- An object or an array that is taken apart by an assignment. -/
def destructured (r : Rules) : Piece := objectPattern r r.target <|> arrayPattern r r.target

def targetRule (r : Rules) : Piece := destructured r <|> r.operand

def parameterTarget (r : Rules) : Piece :=
  firstOf [restPattern r.binding, r.binding, nameWhere "this" true (· == "this")]

end SourceTree.Script.Grammar
