import SourceTree.Settings.Layer
import SourceTree.Text.Blank
import SourceTree.Text.Case
import SourceTree.Text.Split
import SourceTree.Toml.Scalar

/-!
Settings from environment variables. The name of a variable is a path of keys, and its value is
written in a small form of its own; what is not written so is plain text.
-/

namespace SourceTree.Settings.Environment

open Take

/-! ### Values -/

def isGap (c : Char) : Bool := [' ', '\t', '\n', '\x0c', '\r'].contains c

def gaps : Take Unit := do discard (while_ isGap)

/-- Characters that end a bare word. -/
def isSeparator (c : Char) : Bool := [',', '\x7b', '\x7d', '[', ']'].contains c

/-- Decimal digits with an optional sign. -/
def whole? (t : Text) : Option Int :=
  let (sign, ds) := Toml.signed t
  if ds.isEmpty || !ds.all Char.isDigit then none else some (sign * (Toml.ofDigits 10 ds : Int))

/-- Whether a word with a point in it is a number. -/
def isFraction (t : Text) : Bool :=
  let (_, t) := Toml.signed t
  let (mantissa, power) := t.span fun c => c != 'e' && c != 'E'
  let (front, behind) := mantissa.span (· != '.')
  let places := behind.drop 1
  !behind.isEmpty && front.all Char.isDigit && places.all Char.isDigit &&
    !(front.isEmpty && places.isEmpty) &&
    match power with
    | [] => true
    | _ :: ds => (whole? ds).isSome

/-- The value of a bare word: a number that fits 128 bits, or the word itself. -/
def wordValue (t : Text) : Value :=
  if isFraction t then .number ((Toml.fraction? t).getD (.decimal 0 1))
  else match whole? t with
    | some n =>
      if -(Nat.pow 2 127 : Nat) ≤ n && n < (Nat.pow 2 128 : Nat) then .number (.whole n)
      else .string (String.ofList t)
    | none => .string (String.ofList t)

def quoted : Take Text := do
  lit "\x22"
  Toml.basicRest (← get).length

def isKeyPart (c : Char) : Bool := c.isAlphanum || c == '_' || c == '-'

/-- A key with its equals sign. -/
def key : Take String := do
  gaps
  let name ← quoted <|> while_ isKeyPart
  gaps
  lit "="
  return String.ofList name

mutual

/-- A value with the gaps around it; `fuel` bounds how deep values are nested and how many follow
each other. -/
def value : Nat → Take Value
  | 0 => failure
  | fuel + 1 => do
    gaps
    let v ← (do lit "true"; return .bool true) <|> (do lit "false"; return .bool false) <|> do
      match ← peek with
      | some '\x7b' => lit "\x7b"; return .object (← fields fuel [])
      | some '[' => lit "["; return .list (← items fuel)
      | some '\x22' => return .string (String.ofList (← quoted))
      | some '\x27' =>
        lit "\x27"
        let c ← one fun _ => true
        lit "\x27"
        return .string (String.ofList [c])
      | _ => return wordValue (Text.trim (← while_ fun c => !isSeparator c))
    gaps
    return v

/-- The items of a list and its closing bracket; a comma may follow the last one. -/
def items : Nat → Take (List Value)
  | 0 => failure
  | fuel + 1 =>
    (do lit "]"; return []) <|> do
      let first ← value fuel
      (do lit ","; return first :: (← items fuel)) <|> do
        lit "]"
        return [first]

/-- The fields of an object and its closing brace. -/
def fields : Nat → List (String × Value) → Take (List (String × Value))
  | 0, _ => failure
  | fuel + 1, found =>
    (do lit "\x7d"; return found) <|> do
      let name ← key
      let found := Value.putField name (← value fuel) found
      (do lit ","; fields fuel found) <|> do
        lit "\x7d"
        return found

end

def valueOf (t : Text) : Value :=
  (Take.whole? (value (t.length + 1)) t).getD (.string (String.ofList t))

/-! ### Variables -/

/-- Turns every pair of underscores into a dot. -/
def dotted : Text → Text
  | '_' :: '_' :: rest => '.' :: dotted rest
  | c :: rest => c :: dotted rest
  | [] => []

/-- The path of keys that a variable names. Names have `CS_` in front, in any letter case; no key is
empty. -/
def path? (name : Text) : Option (List String) :=
  let name := Text.trim name
  if (name.take 3).map Char.toLower == "cs_".toList then
    let keys := Text.splitBy (· == '.') (Text.trim (dotted (Text.lower (name.drop 3))))
    if keys.any List.isEmpty then none else some (keys.map String.ofList)
  else none

/-- The layer of all variables, later ones over earlier ones. -/
def layer (settings : List (String × String)) : Value :=
  settings.foldl (fun lower (name, v) => match path? name.toList with
    | some path => lower.overlay ((valueOf v.toList).nested path)
    | none => lower) (.object [])

end SourceTree.Settings.Environment
