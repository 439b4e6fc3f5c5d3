import SourceTree.Script.Lexeme

/-!
Finding the bracket that closes a bracket without reading what stands between them. Brackets in
quoted texts, templates, regular expressions and comments do not count.
-/

namespace SourceTree.Script

/-- What is open at a place. -/
inductive Frame where
  | bracket
  | quoted (quote : Char)
  | template
  | lineComment
  | blockComment
  | regex
  | regexClass
  deriving DecidableEq, Repr

/-- Whether a slash starts a regular expression, judged by the last character before it that is no
space: behind an operand it divides. -/
def startsRegex (last : Char) : Bool :=
  !(isNamePart last || [')', ']', '\x7d', '\x22', '\x27', '\x60'].contains last)

/-- A step inside brackets: whether the next character belongs to this one, what is open
afterwards, and the last character that is no space. -/
def skimCode (outer : List Frame) (last c : Char) (next : Option Char) :
    Bool × List Frame × Char :=
  let here := Frame.bracket :: outer
  if c == '/' && next == some '/' then (true, .lineComment :: here, last)
  else if c == '/' && next == some '*' then (true, .blockComment :: here, last)
  else if c == '/' && startsRegex last then (false, .regex :: here, c)
  else if c == '\x22' || c == '\x27' then (false, .quoted c :: here, c)
  else if c == '\x60' then (false, .template :: here, c)
  else if c == '(' || c == '[' || c == '\x7b' then (false, .bracket :: here, c)
  else if c == ')' || c == ']' || c == '\x7d' then (false, outer, c)
  else if isSpace c then (false, here, last)
  else (false, here, c)

/-- A step at any place. -/
def skimStep (frames : List Frame) (last c : Char) (next : Option Char) :
    Bool × List Frame × Char :=
  match frames with
  | [] => (false, [], last)
  | .bracket :: outer => skimCode outer last c next
  | .quoted quote :: outer =>
    if c == '\\' then (true, frames, last)
    else (false, if c == quote then outer else frames, quote)
  | .template :: outer =>
    if c == '\\' then (true, frames, last)
    else if c == '$' && next == some '\x7b' then (true, .bracket :: frames, '\x7b')
    else (false, if c == '\x60' then outer else frames, '\x60')
  | .lineComment :: outer => (false, if endsLine c then outer else frames, last)
  | .blockComment :: outer =>
    if c == '*' && next == some '/' then (true, outer, last) else (false, frames, last)
  | .regex :: outer =>
    if c == '\\' then (true, frames, last)
    else if c == '[' then (false, .regexClass :: frames, last)
    else (false, if c == '/' then outer else frames, ')')
  | .regexClass :: outer =>
    if c == '\\' then (true, frames, last) else (false, if c == ']' then outer else frames, last)

/-- What follows once nothing is open any more; the flag tells whether the next character is
already accounted for. -/
def skim : Bool → List Frame → Char → Text → Option Text
  | false, [], _, cs => some cs
  | _, _, _, [] => none
  | true, frames, last, _ :: cs => skim false frames last cs
  | false, frames, last, c :: cs =>
    let (skips, frames, last) := skimStep frames last c cs.head?
    skim skips frames last cs

/-- What follows the bracket that closes the one at the front. -/
def afterBracket? : Text → Option Text
  | c :: cs => if ['(', '[', '\x7b'].contains c then skim false [.bracket] c cs else none
  | [] => none

end SourceTree.Script
