import SourceTree.Script.Semicolon
import SourceTree.Script.Skim

/-!
The grammar of scripts is a set of rules that refer to each other. Each rule is written over a
record of all of them, and the record is tied to itself when a source is read.
-/

namespace SourceTree.Script

/-- The rules that others refer to. -/
structure Rules where
  /-- An expression without a comma outside brackets. -/
  expression : Piece
  operand : Piece
  statement : Piece
  type : Piece
  /-- What a declaration or a parameter binds. -/
  binding : Piece
  /-- What an assignment assigns to. -/
  target : Piece
  /-- An element in angle brackets. -/
  element : Piece

namespace Grammar

open Piece

/-- An expression, perhaps with commas. -/
def expressions (r : Rules) : Piece := do
  let first ← r.expression
  let more ← many (punct "," ++ r.expression)
  return if more.isEmpty then first else Construct.wrap "sequence_expression" (first ++ more)

def parenthesized (r : Rules) : Piece :=
  node "parenthesized_expression" (punct "(" ++ expressions r ++ punct ")")

def propertyName (r : Rules) : Piece :=
  firstOf [anyName "property_identifier", privateName, quotedText, number,
    node "computed_property_name" (punct "[" ++ r.expression ++ punct "]")]

/-- A value behind an equals sign. -/
def initializer (r : Rules) : Piece := punct "=" ++ role "value" r.expression

/-- A value that is spread out. -/
def spread (r : Rules) : Piece := node "spread_element" (punct "..." ++ r.expression)

def arguments (r : Rules) : Piece :=
  role "arguments" (node "arguments" (bracketed "(" (spread r <|> r.expression) ")"))

/-- Whether the bracket at the front is closed and then followed by something. -/
def closedAndThen (condition : Text → Bool) (cs : Text) : Bool :=
  match afterBracket? cs with
  | some rest => condition (afterGap rest)
  | none => false

/-- Whether a punctuator stands at the front. -/
def facesMark (mark : String) (cs : Text) : Bool := punctuator? cs == some mark

/-- Whether a character stands at the front. -/
def faces (c : Char) (cs : Text) : Bool := cs.head? == some c

def dotted : Piece := node "nested_identifier" (sepBy1 (anyName "identifier") (punct "."))

/-- A template; what is embedded in it is read by `p`. -/
def template (kind embedded : String) (p : Piece) : Piece :=
  node kind (sign "\x60" ++ many (raw "string_fragment" cutTemplate <|>
    node embedded (sign "$\x7b" ++ p ++ sign "\x7d")) ++ sign "\x60")

end Grammar

end SourceTree.Script
