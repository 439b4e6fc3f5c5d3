import SourceTree.Text.Basic

/-!
Matching brackets by a depth counter that looks at one kind of bracket only. Meant for masked text,
where brackets in comments and literals are gone.
-/

namespace SourceTree.Scan

/-- The offset of the closer that brings the depth back to zero. `offset` is the offset of the text
that is still to be read. -/
def closing? (opener closer : Char) : Nat → Nat → Text → Option Nat
  | _, _, [] => none
  | depth, offset, c :: cs =>
    if c = opener then closing? opener closer (depth + 1) (offset + c.utf8Size) cs
    else if c = closer then
      if depth ≤ 1 then some offset else closing? opener closer (depth - 1) (offset + c.utf8Size) cs
    else closing? opener closer depth (offset + c.utf8Size) cs

/-- The offset of the bracket that closes the one at `start`; nothing if there is no opener at
`start` or it is never closed. -/
def findMatching? (text : Text) (start : Nat) (opener closer : Char) : Option Nat :=
  match Text.drop? text start with
  | some (c :: cs) => if c = opener then closing? opener closer 0 start (c :: cs) else none
  | _ => none

/-- As `findMatching?`, but a closer at or past `limit` does not count. -/
def findMatchingBefore? (text : Text) (start limit : Nat) (opener closer : Char) : Option Nat :=
  (findMatching? text start opener closer).filter (· < limit)

/-- Just past the group that opens at `start`; the end of the text if the group is not closed. -/
def groupEnd (text : Text) (start : Nat) (opener closer : Char) : Nat :=
  match findMatching? text start opener closer with
  | some close => close + 1
  | none => Text.size text

/-- Just past the block in braces that opens at `start`. -/
def blockEnd (text : Text) (start : Nat) : Nat := groupEnd text start '\x7b' '\x7d'

/-- Just past the group in parentheses that opens at `start`. -/
def parenEnd (text : Text) (start : Nat) : Nat := groupEnd text start '(' ')'

end SourceTree.Scan
