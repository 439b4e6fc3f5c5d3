import SourceTree.Text.Basic

/-!
Taking pieces from the front of a text.
-/

namespace SourceTree

/-- Takes something from the front of a text, or fails. -/
abbrev Take := StateT Text Option

namespace Take

/-- One character of a class. -/
def one (p : Char → Bool) : Take Char := do
  match ← get with
  | c :: cs => if p c then set cs *> pure c else failure
  | [] => failure

/-- A fixed text. -/
def lit (word : String) : Take Unit := do
  match Text.after? (← get) word.toList with
  | some rest => set rest
  | none => failure

/-- All characters of a class. -/
def while_ (p : Char → Bool) : Take Text := do
  let cs ← get
  set (cs.dropWhile p)
  return cs.takeWhile p

def atEnd : Take Unit := do if (← get).isEmpty then pure () else failure

/-- The first character, which stays. -/
def peek : Take (Option Char) := do return (← get).head?

/-- Takes something only if all of the text is used up by it. -/
def whole? (t : Take α) (cs : Text) : Option α := ((t <* atEnd).run cs).map Prod.fst

end Take

end SourceTree
