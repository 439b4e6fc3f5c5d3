import SourceTree.Pattern.Basic

/-!
Splitting at separators that stand outside all brackets. Angle brackets count only on request,
because they also compare. Depths are numbers of 32 bits with a sign.
-/

namespace SourceTree.Scan

/-- The bracket depth after a character. A closing angle bracket at depth zero closes nothing. -/
def depthAfter (angles : Bool) (depth : Int32) (c : Char) : Int32 :=
  if c = '(' ∨ c = '[' ∨ c = '\x7b' then depth + 1
  else if c = ')' ∨ c = ']' ∨ c = '\x7d' then depth - 1
  else if angles ∧ c = '<' then depth + 1
  else if angles ∧ c = '>' ∧ 0 < depth then depth - 1
  else depth

/-- Whether a character counts as a bracket at this depth, and so never as a separator. -/
def isBracket (angles : Bool) (depth : Int32) (c : Char) : Bool :=
  "()[]\x7b\x7d".toList.contains c || (angles && (c == '<' || (c == '>' && 0 < depth)))

/-- The raw pieces between the separators outside all brackets; there is always at least one. -/
def cutTopLevel (separator : Char) (angles : Bool) : Int32 → Text → List Text
  | _, [] => [[]]
  | depth, c :: cs =>
    if c = separator ∧ depth ≤ 0 ∧ !isBracket angles depth c then
      [] :: cutTopLevel separator angles depth cs
    else match cutTopLevel separator angles (depthAfter angles depth c) cs with
      | [] => [[c]]
      | piece :: pieces => (c :: piece) :: pieces

/-- Puts pieces back to where they came from, `gap` bytes apart, and trims them. -/
def placePieces (gap offset : Nat) : List Text → List Span
  | [] => []
  | piece :: pieces =>
    ⟨offset + Text.blankSize piece, Text.trim piece⟩ ::
      placePieces gap (offset + Text.size piece + gap) pieces

/-- The pieces between the separators outside all brackets, trimmed and with their offsets; empty
pieces are dropped. -/
def splitTopLevel (text : Text) (separator : Char) (angles : Bool) : List Span :=
  (placePieces separator.utf8Size 0 (cutTopLevel separator angles 0 text)).filter fun piece =>
    !piece.text.isEmpty

end SourceTree.Scan
