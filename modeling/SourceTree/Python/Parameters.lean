import SourceTree.Parameter
import SourceTree.Scan.Split
import SourceTree.Text.Split

/-!
Parameter lists of Python functions. The list is cut in the mask, where commas inside strings are
gone, and the pieces are read from the source.
-/

namespace SourceTree.Python

/-- Takes the stars off the front of a parameter and counts them. -/
def stars : Text → Nat × Text
  | '*' :: '*' :: rest => (2, rest)
  | '*' :: rest => (1, rest)
  | rest => (0, rest)

/-- One parameter, from its text and the mask of its text. The inner `none` stands for pieces that
declare nothing: the markers `*` and `/`, and the receivers `self` and `cls`. -/
def parameter? (raw masked : Text) : Option (Option Parameter) := do
  if raw = ['*'] ∨ raw = ['/'] then return none
  let (starCount, raw) := stars raw
  let masked ← Text.drop? masked starCount
  let (declaration, default) ← match Text.find? (· == '=') masked with
    | some eq => do
      let declaration ← Text.take? raw eq
      let value ← Text.drop? raw (eq + 1)
      pure (declaration, some (Text.trim value))
    | none => pure (raw, none)
  let (name, declared) := match Text.splitFirst? (· == ':') declaration with
    | some (name, type) => (Text.trim name, some (Text.trim type))
    | none => (Text.trim declaration, none)
  if name = "self".toList ∨ name = "cls".toList ∨ name = [] then return none
  return some {
    name := String.ofList name
    type := declared.map String.ofList
    defaultValue := default.map String.ofList
    optional := default.isSome || 0 < starCount
    variadic := 0 < starCount }

/-- The parameters of a list, from its text and the mask of its text. -/
def parameters? (text masked : Text) : Option (List Parameter) := do
  let pieces ← (Scan.splitTopLevel masked ',' false).mapM fun piece => do
    parameter? (← Text.slice? text piece.start piece.stop) piece.text
  return pieces.filterMap id

end SourceTree.Python
