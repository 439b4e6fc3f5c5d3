import SourceTree.Text.Blank

/-!
Logical lines of an indented language. A newline ends a line unless it stands in brackets, in a
triple-quoted literal, or behind a backslash. The brackets are counted in 32 bits with a sign.
-/

namespace SourceTree.Scan

/-- The width of the blanks in front; a tab leads to the next multiple of eight. -/
def indentWidth (line : Text) : Nat := go 0 line
where
  go (width : Nat) : Text → Nat
    | ' ' :: cs => go (width + 1) cs
    | '\t' :: cs => go ((width / 8 + 1) * 8) cs
    | _ => width

/-- Where the line scanner stands. -/
inductive LineState where
  | code
  | comment
  | quoted (quote : Char) (triple : Bool)
  deriving DecidableEq, Repr

/-- Puts characters in front of the first line. -/
def consLine (cs : Text) : List Text → List Text
  | [] => [cs]
  | line :: lines => (cs ++ line) :: lines

/-- Cuts text into lines at the newlines that end one, from a state and a bracket depth. The last
piece is what follows the last such newline. -/
def cutLines : LineState → Int32 → Text → List Text
  | _, _, [] => [[]]
  | .comment, depth, c :: cs =>
    if c = '\n' then
      if depth = 0 then [] :: cutLines .code 0 cs else consLine [c] (cutLines .code depth cs)
    else consLine [c] (cutLines .comment depth cs)
  | .quoted quote triple, depth, '\\' :: escaped :: cs =>
    consLine ['\\', escaped] (cutLines (.quoted quote triple) depth cs)
  | .quoted quote true, depth, a :: b :: c :: cs =>
    if a = quote ∧ b = quote ∧ c = quote then consLine [a, b, c] (cutLines .code depth cs)
    else consLine [a] (cutLines (.quoted quote true) depth (b :: c :: cs))
  | .quoted quote true, depth, c :: cs => consLine [c] (cutLines (.quoted quote true) depth cs)
  | .quoted quote false, depth, c :: cs =>
    if c = '\n' then
      if depth = 0 then [] :: cutLines .code 0 cs else consLine [c] (cutLines .code depth cs)
    else if c = quote then consLine [c] (cutLines .code depth cs)
    else consLine [c] (cutLines (.quoted quote false) depth cs)
  | .code, depth, '\x22' :: '\x22' :: '\x22' :: cs =>
    consLine ['\x22', '\x22', '\x22'] (cutLines (.quoted '\x22' true) depth cs)
  | .code, depth, '\x27' :: '\x27' :: '\x27' :: cs =>
    consLine ['\x27', '\x27', '\x27'] (cutLines (.quoted '\x27' true) depth cs)
  | .code, depth, '\\' :: '\n' :: cs => consLine ['\\', '\n'] (cutLines .code depth cs)
  | .code, depth, c :: cs =>
    if c = '#' then consLine [c] (cutLines .comment depth cs)
    else if c = '\x22' ∨ c = '\x27' then consLine [c] (cutLines (.quoted c false) depth cs)
    else if c = '(' ∨ c = '[' ∨ c = '\x7b' then consLine [c] (cutLines .code (depth + 1) cs)
    else if c = ')' ∨ c = ']' ∨ c = '\x7d' then
      consLine [c] (cutLines .code (max (depth - 1) 0) cs)
    else if c = '\n' ∧ depth = 0 then [] :: cutLines .code 0 cs
    else consLine [c] (cutLines .code depth cs)

/-- The lines of a source without the newlines that end them. A newline at the very end opens no
further line. -/
def lineTexts (source : Text) : List Text :=
  let pieces := cutLines .code 0 source
  if pieces.getLast? = some [] then pieces.dropLast else pieces

inductive LineKind where
  | blank | comment | code
  deriving DecidableEq, Repr

namespace LineKind

def label : LineKind → String
  | blank => "Blank"
  | comment => "Comment"
  | code => "Code"

end LineKind

structure LogicalLine where
  /-- The offset of the first character. -/
  start : Nat
  /-- The characters up to the newline, without a carriage return in front of it. -/
  text : Text
  deriving DecidableEq, Repr

namespace LogicalLine

/-- The line of a raw text that starts at `start`. -/
def ofRaw (start : Nat) (raw : Text) : LogicalLine :=
  ⟨start, if raw.getLast? = some '\r' then raw.dropLast else raw⟩

/-- The offset just past the last character. -/
def stop (l : LogicalLine) : Nat := l.start + Text.size l.text

/-- The offset of the first character that is not blank. -/
def contentStart (l : LogicalLine) : Nat := l.start + Text.blankSize l.text

/-- The text from the first character that is not blank. -/
def content (l : LogicalLine) : Text := Text.trimStart l.text

def indent (l : LogicalLine) : Nat := indentWidth l.text

def kind (l : LogicalLine) : LineKind :=
  match l.content with
  | [] => .blank
  | '#' :: _ => .comment
  | _ => .code

def isCode (l : LogicalLine) : Bool := l.kind == .code

end LogicalLine

/-- Gives raw lines their offsets; a newline lies between neighbours. -/
def placeLines (offset : Nat) : List Text → List LogicalLine
  | [] => []
  | raw :: raws => LogicalLine.ofRaw offset raw :: placeLines (offset + Text.size raw + 1) raws

def logicalLines (source : Text) : List LogicalLine := placeLines 0 (lineTexts source)

/-- The number of lines that follow a header of that indentation and belong to its block: all up to
the first line that is not blank and not indented further. -/
def blockLength (indent : Nat) (following : List LogicalLine) : Nat :=
  (following.takeWhile fun l => l.kind == .blank || indent < l.indent).length

/-- The index of the last line of the block that the line at `header` heads. -/
def blockLast (lines : List LogicalLine) (header : Nat) : Nat :=
  match lines[header]? with
  | none => header
  | some l => header + blockLength l.indent (lines.drop (header + 1))

end SourceTree.Scan
