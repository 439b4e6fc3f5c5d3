import SourceTree.Script.Grammar.Type

/-!
Elements in angle brackets, with attributes and children.
-/

namespace SourceTree.Script.Grammar

open Piece

/-- Whether a character may stand in the name of an element or an attribute. -/
def isElementNamePart (c : Char) : Bool := isNamePart c || c == '-' || c == ':' || c == '.'

/-- A name of an element or an attribute, with hyphens, colons and dots. -/
def elementName : Piece :=
  lexeme "identifier" true fun cs =>
    if (name? cs).isSome then some (Cut.ofWhile isElementNamePart cs) else none

/-- An expression in braces, perhaps spread out or left out. -/
def embedded (r : Rules) : Piece :=
  node "jsx_expression" (punct "\x7b" ++ opt (spread r <|> expressions r) ++ punct "\x7d")

def elementAttribute (r : Rules) : Piece :=
  let value := firstOf [lexeme "string" true verbatim?, embedded r, r.element]
  embedded r <|> node "jsx_attribute" (elementName ++ opt (sign "=" ++ value))

/-- Text between elements, up to a tag or an expression. -/
def elementText : Piece :=
  raw "jsx_text" fun cs => Cut.ofWhile (fun c => c != '<' && c != '\x7b') cs

/-- An element. One that closes itself has a name. -/
def elementRule (r : Rules) : Piece := do
  let front ← sign "<"
  let name ← opt (elementName ++ opt (typed (typeArguments r)))
  let attributes ← many (elementAttribute r)
  let closed : Piece := do
    if name.isEmpty then failure
    let stop ← sign "/" ++ sign ">"
    return Construct.wrap "jsx_self_closing_element" (front ++ name ++ attributes ++ stop)
  let full : Piece := do
    let children ← sign ">" ++ many (firstOf [elementText, embedded r, r.element])
    let closing ← sign "<" ++ sign "/" ++ opt elementName ++ sign ">"
    return Construct.wrap "jsx_element" (front ++ name ++ attributes ++ children ++ closing)
  closed <|> full

end SourceTree.Script.Grammar
