import SourceTree.Toml.Scalar
import SourceTree.Toml.Table

/-!
TOML documents: reading them, and writing values as documents.
-/

namespace SourceTree.Toml

open Take

/-! ### Reading -/

def comment : Take Unit := do
  lit "#"
  discard (while_ isPlain)

/-- The rest of a line that has nothing more to say. -/
def lineEnd : Take Unit := do
  blanks
  comment <|> pure ()
  newline <|> atEnd

/-- Blanks, comments and line ends. -/
def filler : Nat → Take Unit
  | 0 => pure ()
  | fuel + 1 => do
    blanks
    (do (comment <|> pure ()); newline; filler fuel) <|> pure ()

def isBareKeyPart (c : Char) : Bool := c.isAlphanum || c == '_' || c == '-'

/-- One key, bare or quoted. -/
def key : Take String := do
  let bare ← while_ isBareKeyPart
  if bare.isEmpty then return String.ofList (← lineText) else return String.ofList bare

/-- Keys with dots between them, at most `fuel` of them behind the first. -/
def keysFrom (first : String) : Nat → Take (List String)
  | 0 => return [first]
  | fuel + 1 =>
    (do
      blanks
      lit "."
      blanks
      return first :: (← keysFrom (← key) fuel)) <|> return [first]

/-- A dotted key: the keys in front and the last one. -/
def dottedKey : Take (List String × String) := do
  let keys ← keysFrom (← key) (← get).length
  match keys.getLast? with
  | some last => return (keys.dropLast, last)
  | none => failure

mutual

/-- A value; `fuel` bounds how deep values are nested and how many follow each other. -/
def value : Nat → Take Value
  | 0 => failure
  | fuel + 1 => do
    match ← peek with
    | some '\x22' => return .string (String.ofList (← text))
    | some '\x27' => return .string (String.ofList (← text))
    | some '[' => lit "["; return .list (← items fuel)
    | some '\x7b' =>
      lit "\x7b"
      blanks
      let entries ← (do lit "\x7d"; return []) <|> inlineEntries fuel []
      return .object (Item.entriesValue entries)
    | _ => scalar

def items : Nat → Take (List Value)
  | 0 => failure
  | fuel + 1 => do
    filler (← get).length
    (do lit "]"; return []) <|> do
      let first ← value fuel
      filler (← get).length
      (do lit "]"; return [first]) <|> do
        lit ","
        return first :: (← items fuel)

/-- The entries of an inline table and its closing brace. -/
def inlineEntries : Nat → Entries → Take Entries
  | 0, _ => failure
  | fuel + 1, entries => do
    let (keys, last) ← dottedKey
    blanks
    lit "="
    blanks
    let v ← value fuel
    blanks
    match entries.addAt? [] keys last v with
    | none => failure
    | some entries =>
      (do lit "\x7d"; return entries) <|> do
        lit ","
        blanks
        inlineEntries fuel entries

end

/-- A document as far as it is read: its tables, and the path of the one that is open. -/
structure Draft where
  root : Entries := []
  path : List String := []

/-- Uses an answer that may be missing. -/
def need (a : Option α) : Take α := StateT.lift a

def header (d : Draft) : Take Draft := do
  let bracketed (opening closing : String) : Take (List String × String) := do
    lit opening
    blanks
    let name ← dottedKey
    blanks
    lit closing
    return name
  let several := Text.startsWith (← get) "[[".toList
  let (path, last) ← if several then bracketed "[[" "]]" else bracketed "[" "]"
  let root ← need (if several then d.root.openNext? path last else d.root.openTable? path last)
  return { root := root, path := path ++ [last] }

/-- A key and its value. -/
def entry (d : Draft) : Take Draft := do
  let (keys, last) ← dottedKey
  blanks
  lit "="
  blanks
  let v ← value ((← get).length + 1)
  return { d with root := ← need (d.root.addAt? d.path keys last v) }

/-- Lines up to the end of the text. -/
def lines : Nat → Draft → Take Draft
  | 0, _ => failure
  | fuel + 1, d => do
    blanks
    match ← peek with
    | none => return d
    | some '[' => let d ← header d; lineEnd; lines fuel d
    | some c =>
      if c == '#' || c == '\n' || c == '\r' then lineEnd; lines fuel d
      else let d ← entry d; lineEnd; lines fuel d

/-- Reads a document. A byte order mark in front is passed over. -/
def read? (source : Text) : Option Value :=
  let source := (Text.after? source ['\uFEFF']).getD source
  (Take.whole? (lines (source.length + 1) {}) source).map fun d =>
    .object (Item.entriesValue d.root)

/-! ### Writing -/

/-- The last so many hexadecimal digits of a number. -/
def hexDigits : Nat → Nat → Text
  | 0, _ => []
  | width + 1, n => hexDigits width (n / 16) ++ [Nat.digitChar (n % 16)]

def writeChar (c : Char) : Text :=
  if c == '\x22' || c == '\\' then ['\\', c]
  else if isPlain c then [c]
  else '\\' :: 'U' :: hexDigits 8 c.toNat

/-- A text in double quotes. -/
def writeText (s : String) : Text := '\x22' :: s.toList.flatMap writeChar ++ ['\x22']

/-- Texts with something between them. -/
def joined (separator : String) (ts : List Text) : Text :=
  (ts.intersperse separator.toList).flatten

mutual

/-- The lines that write the leaves of a value, each under its dotted key. -/
def writeLines (path : List Text) : Value → List Text
  | .object fields => writeFields path fields
  | .null => []
  | .bool b => [writeLine path (if b then "true" else "false").toList]
  | .number (.whole n) => [writeLine path (toString n).toList]
  | .number (.decimal m places) => [writeLine path ((toString m).toList ++ "e-".toList ++
      (toString places).toList)]
  | .string s => [writeLine path (writeText s)]
  | .list items => [writeLine path ('[' :: joined ", " (items.filterMap fun v =>
      (v.asString?.map writeText)) ++ [']'])]

def writeFields (path : List Text) : List (String × Value) → List Text
  | [] => []
  | (k, v) :: rest => writeLines (path ++ [writeText k]) v ++ writeFields path rest

def writeLine (path : List Text) (v : Text) : Text := joined "." path ++ " = ".toList ++ v

end

/-- Writes an object as a document. Of lists only those of texts are written. -/
def write (v : Value) : Text := (writeLines [] v).flatMap (· ++ ['\n'])

end SourceTree.Toml
