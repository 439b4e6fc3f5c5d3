import SourceTree.Script.Grammar.Type

/-!
Blocks, functions and arrow functions.
-/

namespace SourceTree.Script.Grammar

open Piece

/-- Statements in braces. The flag tells whether an expression could go on behind the block. -/
def block (afterExpression : Bool) (r : Rules) : Piece :=
  node "statement_block" (punct "\x7b" ++ many r.statement ++ punct "\x7d" ++
    opt (unwritten afterExpression))

def body (afterExpression : Bool) (r : Rules) : Piece := role "body" (block afterExpression r)

/-- `async` in front of something on the same line. -/
def asyncMark : Piece := do
  let mark ← word "async"
  onLine (pure mark)

/-- A function with a name; without a body it is a signature, which only typed dialects have. -/
def functionDeclaration (afterExpression : Bool) (r : Rules) : Piece := do
  let front ← opt asyncMark ++ word "function"
  let star ← opt (punct "*")
  let signature ← role "name" identifier ++ callSignature r
  let kind := if star.isEmpty then "function_declaration" else "generator_function_declaration"
  let declaration : Piece := do
    let body ← body afterExpression r ++ opt (unwritten afterExpression)
    return Construct.wrap kind (front ++ star ++ signature ++ body)
  let bodiless : Piece := do
    let stop ← semicolon false
    return Construct.wrap "function_signature" (front ++ star ++ signature ++ stop)
  declaration <|> typed bodiless

def functionExpression (r : Rules) : Piece := do
  let front ← opt asyncMark ++ word "function"
  let star ← opt (punct "*")
  let rest ← opt (role "name" identifier) ++ callSignature r ++ body true r
  let kind := if star.isEmpty then "function_expression" else "generator_function"
  return Construct.wrap kind (front ++ star ++ rest)

/-- Whether an arrow function without `async` seems to start here: one bare parameter, or a
parameter list that an arrow or, in typed dialects, a result type follows. -/
def facesPlainArrow (typed : Bool) (cs : Text) : Bool :=
  match name? cs with
  | some (_, rest) => facesMark "=>" (afterGap rest)
  | none =>
    (typed && faces '<' cs) ||
      (faces '(' cs && closedAndThen (fun rest =>
        facesMark "=>" rest || (typed && faces ':' rest)) cs)

/-- Whether an arrow function seems to start here. -/
def facesArrow (typed : Bool) (cs : Text) : Bool :=
  facesPlainArrow typed cs || match name? cs with
    | some (word, rest) => word == "async".toList && facesPlainArrow typed (afterGap rest)
    | none => false

/-- From the parameters of an arrow function to its body. -/
def arrowTail (r : Rules) : Piece :=
  (role "parameter" identifier <|> callSignature r) ++ punct "=>" ++
    (body true r <|> role "body" r.expression)

def arrowFunction (r : Rules) : Piece := do
  let d ← read
  provided (facesArrow d.isTyped)
    (node "arrow_function" (asyncMark ++ arrowTail r) <|> node "arrow_function" (arrowTail r))

end SourceTree.Script.Grammar
