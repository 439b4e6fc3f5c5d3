import SourceTree.Text.Blank

/-!
Cutting a text at separators: at every occurrence, at the first, at the last, or into its words.
-/

namespace SourceTree.Text

/-- The pieces between the characters that satisfy `p`; there is always at least one. -/
def splitBy (p : Char → Bool) : Text → List Text
  | [] => [[]]
  | c :: cs =>
    if p c then [] :: splitBy p cs
    else match splitBy p cs with
      | [] => [[c]]
      | piece :: pieces => (c :: piece) :: pieces

/-- What precedes and what follows the first character that satisfies `p`. -/
def splitFirst? (p : Char → Bool) : Text → Option (Text × Text)
  | [] => none
  | c :: cs => if p c then some ([], cs) else (splitFirst? p cs).map fun (a, b) => (c :: a, b)

/-- What precedes and what follows the last character that satisfies `p`. -/
def splitLast? (p : Char → Bool) (cs : Text) : Option (Text × Text) :=
  (splitFirst? p cs.reverse).map fun (a, b) => (b.reverse, a.reverse)

/-- What precedes the first character that satisfies `p`, or everything. -/
def upTo (p : Char → Bool) (cs : Text) : Text := cs.takeWhile fun c => !p c

/-- What follows the last character that satisfies `p`, or everything. -/
def lastPiece (p : Char → Bool) (cs : Text) : Text :=
  ((splitLast? p cs).map (·.2)).getD cs

/-- The longest runs without blanks. -/
def words (cs : Text) : List Text :=
  (splitBy isBlank cs).filter fun w => !w.isEmpty

end SourceTree.Text
