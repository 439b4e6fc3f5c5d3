import SourceTree.Script.Grammar.Statement

/-!
Whole scripts. This is the reader of scripts that runs with the library; trees can be built with any
other.
-/

namespace SourceTree.Script.Grammar

open Piece

/-- The rules with at most so many references from one to another. -/
def rules : Nat → Rules
  | 0 => ⟨failure, failure, failure, failure, failure, failure, failure⟩
  | depth + 1 =>
    let r := rules depth
    { expression := fun d i => expressionRule r d i
      operand := fun d i => operandRule r d i
      statement := fun d i => statementRule r d i
      type := fun d i => typeRule r d i
      binding := fun d i => bindingRule r d i
      target := fun d i => targetRule r d i
      element := fun d i => elementRule r d i }

def interpreterLine : Piece :=
  raw "hash_bang_line" fun cs =>
    if Text.startsWith cs "#!".toList then Cut.ofWhile (fun c => !endsLine c) cs else ([], cs)

/-- A token that belongs to no statement. -/
def unreadable : Piece :=
  node "ERROR" <| firstOf [anyName "identifier", quotedText, number,
    lexeme "stray" false fun
      | c :: cs => some ([c], cs)
      | [] => none]

/-- A whole script, with the comments behind its last statement. -/
def program (r : Rules) : Piece := do
  let statements ← opt interpreterLine ++ many (r.statement <|> unreadable)
  return statements ++ ((← get).gap.1.map Prod.fst)

/-- The whole script as a construct. Between two references from rule to rule a character is read,
apart from those of a statement to an expression and of an expression to an operand, so the depth
suffices. -/
def concrete? (d : Dialect) (source : Text) : Option Construct := do
  let (parts, _) ← program (rules (3 * source.length + 8)) d ⟨0, source⟩
  return { kind := "program", isNamed := true, start := 0, stop := Text.size source, parts := parts }

end SourceTree.Script.Grammar
