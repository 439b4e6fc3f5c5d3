import SourceTree.Text.Split
import SourceTree.Toml.Take
import SourceTree.Value

/-!
Scalars of TOML: texts, numbers, truth values and points in time.
-/

namespace SourceTree.Toml

open Take

/-- Characters that stand for themselves in texts and comments. -/
def isPlain (c : Char) : Bool := c == '\t' || (0x20 ≤ c.toNat && c.toNat != 0x7F)

def isBlank (c : Char) : Bool := c == ' ' || c == '\t'

def blanks : Take Unit := do discard (while_ isBlank)

def newline : Take Unit := lit "\n" <|> lit "\r\n"

/-! ### Texts -/

def isHexDigit (c : Char) : Bool :=
  c.isDigit || ('a' ≤ c && c ≤ 'f') || ('A' ≤ c && c ≤ 'F')

def hexValue (c : Char) : Nat :=
  if c.isDigit then c.toNat - '0'.toNat
  else if 'a' ≤ c then c.toNat - 'a'.toNat + 10
  else c.toNat - 'A'.toNat + 10

def ofDigits (base : Nat) (digits : Text) : Nat :=
  digits.foldl (fun n c => n * base + hexValue c) 0

/-- A character by its number, which has so many hexadecimal digits. -/
def codePoint (width : Nat) : Take Char := do
  let cs ← get
  let digits := cs.take width
  if digits.length < width || !digits.all isHexDigit then failure
  let n := ofDigits 16 digits
  if n.isValidChar then
    set (cs.drop width)
    return Char.ofNat n
  else failure

/-- What follows a backslash. -/
def escape : Take Char := do
  match ← one fun _ => true with
  | 'b' => return '\x08'
  | 't' => return '\t'
  | 'n' => return '\n'
  | 'f' => return '\x0c'
  | 'r' => return '\r'
  | '\x22' => return '\x22'
  | '\\' => return '\\'
  | 'u' => codePoint 4
  | 'U' => codePoint 8
  | _ => failure

/-- The rest of a text in double quotes, of at most `fuel` characters. -/
def basicRest : Nat → Take Text
  | 0 => failure
  | fuel + 1 => do
    match ← one fun _ => true with
    | '\x22' => return []
    | '\\' => return (← escape) :: (← basicRest fuel)
    | c => if isPlain c then return c :: (← basicRest fuel) else failure

/-- The quotes at the end of a text in triple quotes: three close it and up to two more belong to
it. -/
def tripleEnd (quote : Char) : Take Text := do
  let run := ((← get).takeWhile (· == quote)).length
  if run < 3 then failure
  let kept := min (run - 3) 2
  set ((← get).drop (3 + kept))
  return List.replicate kept quote

/-- A backslash at the end of a line joins the next line, without the blanks in front of it. -/
def lineJoin : Take Unit := do
  lit "\\"
  blanks
  newline
  discard (while_ fun c => isBlank c || c == '\n' || c == '\r')

/-- The rest of a text in three double quotes. -/
def tripleBasicRest : Nat → Take Text
  | 0 => failure
  | fuel + 1 =>
    tripleEnd '\x22' <|> (do lineJoin; tripleBasicRest fuel) <|>
    (do newline; return '\n' :: (← tripleBasicRest fuel)) <|> do
      match ← one fun _ => true with
      | '\\' => return (← escape) :: (← tripleBasicRest fuel)
      | c => if isPlain c then return c :: (← tripleBasicRest fuel) else failure

/-- The rest of a text in three single quotes. -/
def tripleLiteralRest : Nat → Take Text
  | 0 => failure
  | fuel + 1 =>
    tripleEnd '\x27' <|> (do newline; return '\n' :: (← tripleLiteralRest fuel)) <|> do
      return (← one isPlain) :: (← tripleLiteralRest fuel)

def lineText : Take Text :=
  (do lit "\x22"; basicRest (← get).length) <|>
  (do
    lit "\x27"
    let body ← while_ fun c => isPlain c && c != '\x27'
    lit "\x27"
    return body)

/-- A text that may span lines; a line end right behind its opening does not belong to it. -/
def spanningText : Take Text :=
  let firstLineEnd := newline <|> pure ()
  (do lit "\x22\x22\x22"; firstLineEnd; tripleBasicRest ((← get).length + 1)) <|>
  (do lit "\x27\x27\x27"; firstLineEnd; tripleLiteralRest ((← get).length + 1))

def text : Take Text := do
  let cs ← get
  if Text.startsWith cs "\x22\x22\x22".toList || Text.startsWith cs "\x27\x27\x27".toList then
    spanningText
  else lineText

/-! ### Numbers -/

/-- Digits with single underscores between them, without the underscores. -/
def digits? (p : Char → Bool) (t : Text) : Option Text :=
  let groups := Text.splitBy (· == '_') t
  if groups.all fun g => !g.isEmpty && g.all p then some groups.flatten else none

def signed (t : Text) : Int × Text :=
  match t with
  | '-' :: rest => (-1, rest)
  | '+' :: rest => (1, rest)
  | _ => (1, t)

/-- Decimal digits without a superfluous zero in front. -/
def decimalDigits? (t : Text) : Option Text :=
  match digits? Char.isDigit t with
  | some ('0' :: _ :: _) => none
  | other => other

/-- A whole number. Only decimal numbers have a sign. -/
def whole? (t : Text) : Option Int :=
  let inBase (base : Nat) (p : Char → Bool) (t : Text) : Option Int :=
    (digits? p t).map fun ds => (ofDigits base ds : Int)
  match t with
  | '0' :: 'x' :: ds => inBase 16 isHexDigit ds
  | '0' :: 'o' :: ds => inBase 8 (fun c => '0' ≤ c && c ≤ '7') ds
  | '0' :: 'b' :: ds => inBase 2 (fun c => c == '0' || c == '1') ds
  | t =>
    let (sign, ds) := signed t
    (decimalDigits? ds).map fun ds => sign * (ofDigits 10 ds : Int)

/-- Whole numbers have to fit 64 bits. -/
def integer? (t : Text) : Option Int :=
  (whole? t).filter fun n => -(Nat.pow 2 63 : Nat) ≤ n && n < (Nat.pow 2 63 : Nat)

/-- A fraction with or without a power of ten. -/
def fraction? (t : Text) : Option Number := do
  let (sign, t) := signed t
  let (mantissa, power) := t.span fun c => c != 'e' && c != 'E'
  let (front, behind) := mantissa.span (· != '.')
  let front ← decimalDigits? front
  let places ← match behind with
    | [] => if power.isEmpty then none else some []
    | _ :: ds => digits? Char.isDigit ds
  let exponent : Int ← match power with
    | [] => some 0
    | _ :: ds =>
      let (sign, ds) := signed ds
      (digits? Char.isDigit ds).map fun ds => sign * (ofDigits 10 ds : Int)
  let digits := sign * (ofDigits 10 (front ++ places) : Int)
  let shift := (places.length : Int) - exponent
  return if 0 ≤ shift then .decimal digits shift.toNat
    else .decimal (digits * (Nat.pow 10 (-shift).toNat : Nat)) 0

/-- Whether a word stands for no finite number. -/
def isUnbounded (t : Text) : Bool :=
  let (_, word) := signed t
  word == "inf".toList || word == "nan".toList

/-! ### Points in time -/

/-- So many decimal digits. -/
def fixedDigits (width : Nat) : Take Nat := do
  let cs ← get
  let digits := cs.take width
  if digits.length < width || !digits.all Char.isDigit then failure
  set (cs.drop width)
  return ofDigits 10 digits

/-- A number of so many digits between two bounds. -/
def between (width low high : Nat) : Take Nat := do
  let n ← fixedDigits width
  if low ≤ n && n ≤ high then return n else failure

def daysIn (year month : Nat) : Nat :=
  if month == 2 then
    if (year % 4 == 0 && year % 100 != 0) || year % 400 == 0 then 29 else 28
  else if [4, 6, 9, 11].contains month then 30 else 31

def date : Take Unit := do
  let year ← fixedDigits 4
  lit "-"
  let month ← between 2 1 12
  lit "-"
  discard (between 2 1 (daysIn year month))

def time : Take Unit := do
  discard (between 2 0 23)
  lit ":"
  discard (between 2 0 59)
  lit ":"
  discard (between 2 0 60)
  (do lit "."; if (← while_ Char.isDigit).isEmpty then failure) <|> pure ()

/-- The distance from universal time. -/
def timeOffset : Take Unit :=
  (lit "Z" <|> lit "z") <|> (do
    discard (one fun c => c == '+' || c == '-')
    discard (between 2 0 23)
    lit ":"
    discard (between 2 0 59))

def pointInTime : Take Unit :=
  (do
    date
    (do
      discard (one fun c => c == 'T' || c == 't' || c == ' ')
      time
      timeOffset <|> pure ()) <|> pure ()) <|> time

/-! ### Scalars -/

def isScalarPart (c : Char) : Bool :=
  c.isAlphanum || c == '_' || c == '+' || c == '-' || c == '.' || c == ':'

/-- The extent of a scalar that is no text. A date and a time may be one blank apart. -/
def scalarText : Take Text := do
  let first ← while_ isScalarPart
  match ← get with
  | ' ' :: c :: rest =>
    if c.isDigit && (Take.whole? date first).isSome then
      set (c :: rest)
      return first ++ ' ' :: (← while_ isScalarPart)
    else return first
  | _ => return first

/-- The value of a scalar that is no text. A point in time is an object of its own kind; what is no
finite number is kept only as being there. -/
def scalarValue? (t : Text) : Option Value :=
  if t == "true".toList then some (.bool true)
  else if t == "false".toList then some (.bool false)
  else if let some n := integer? t then some (.number (.whole n))
  else if let some n := fraction? t then some (.number n)
  else if isUnbounded t then some .null
  else if (Take.whole? pointInTime t).isSome then
    some (.object [("$datetime", .string (String.ofList t))])
  else none

def scalar : Take Value := do
  match scalarValue? (← scalarText) with
  | some v => return v
  | none => failure

end SourceTree.Toml
