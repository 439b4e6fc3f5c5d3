import SourceTree.Node.Kind
import SourceTree.Text.Split

/-!
What the spelling of a Python name or decorator says.
-/

namespace SourceTree.Python

/-- A name with two underscores on either side of something. -/
def isDunder (name : Text) : Bool :=
  4 < Text.size name && Text.startsWith name ['_', '_'] && Text.endsWith name ['_', '_']

/-- An underscore in front makes a name private, unless it has two on either side. -/
def visibility (name : Text) : Visibility :=
  if Text.startsWith name ['_'] && !isDunder name then .priv else .pub

/-- The name that a decorator applies, without its arguments. -/
def decoratorName (text : Text) : Text :=
  Text.trim (Text.upTo (· == '(') ((Text.trim text).dropWhile (· == '@')))

end SourceTree.Python
