import SourceTree.Text.Blank

/-!
The lexemes of scripts: how far a name, a number, a quoted text and the like reach.
-/

namespace SourceTree.Script

abbrev Cut := Text × Text

namespace Cut

/-- Puts a character in front of the lexeme. -/
def push (c : Char) (cut : Cut) : Cut := (c :: cut.1, cut.2)

/-- A lexeme that consists of a first piece and whatever `next` finds behind it. -/
def andThen (cut : Cut) (next : Text → Cut) : Cut :=
  let (more, rest) := next cut.2
  (cut.1 ++ more, rest)

/-- The longest front of a text whose characters satisfy `p`. -/
def ofWhile (p : Char → Bool) (cs : Text) : Cut := (cs.takeWhile p, cs.dropWhile p)

end Cut

/-- Characters that separate tokens. -/
def isSpace (c : Char) : Bool :=
  (Text.isBlank c && c != '\x85') || ['\uFEFF', '\u2060', '\u200B'].contains c

def endsLine (c : Char) : Bool := ['\n', '\r', '\u2028', '\u2029'].contains c

/-- The characters that names do not contain, spaces and control characters apart. -/
def marks : List Char := ":;\x60\"\x27@#.,|^&<=>+-*/\\%?!~()[]\x7b\x7d".toList

def isNamePart (c : Char) : Bool := 0x20 ≤ c.toNat && !isSpace c && !marks.contains c

/-- The longest run of name characters and escaped characters; the flag tells whether the text
starts inside the braces of an escape. -/
def cutName : Bool → Text → Cut
  | _, [] => ([], [])
  | true, c :: cs => (cutName (c != '\x7d') cs).push c
  | false, '\\' :: 'u' :: '\x7b' :: cs =>
    (((cutName true cs).push '\x7b').push 'u').push '\\'
  | false, '\\' :: 'u' :: cs => ((cutName false cs).push 'u').push '\\'
  | false, c :: cs => if isNamePart c then (cutName false cs).push c else ([], c :: cs)

/-- A name does not start with a digit. -/
def name? (cs : Text) : Option Cut :=
  if (cs.head?.map Char.isDigit).getD true then none
  else
    let cut := cutName false cs
    if cut.1.isEmpty then none else some cut

/-- A name with a number sign in front. -/
def privateName? : Text → Option Cut
  | '#' :: cs => (name? cs).map (Cut.push '#')
  | _ => none

def isNumeral (c : Char) : Bool := c.isDigit || c == '_'

/-- The digits behind a decimal point. -/
def fraction : Text → Cut
  | '.' :: cs => (Cut.ofWhile isNumeral cs).push '.'
  | cs => ([], cs)

/-- A power of ten. -/
def exponent : Text → Cut
  | e :: s :: d :: cs =>
    if (e == 'e' || e == 'E') && (s == '+' || s == '-') && d.isDigit then
      (((Cut.ofWhile isNumeral cs).push d).push s).push e
    else if (e == 'e' || e == 'E') && s.isDigit then ((Cut.ofWhile isNumeral (d :: cs)).push s).push e
    else ([], e :: s :: d :: cs)
  | [e, s] =>
    if (e == 'e' || e == 'E') && s.isDigit then ([e, s], []) else ([], [e, s])
  | cs => ([], cs)

def bigMark : Text → Cut
  | 'n' :: cs => (['n'], cs)
  | cs => ([], cs)

def decimal (cs : Text) : Cut :=
  (((Cut.ofWhile isNumeral cs).andThen fraction).andThen exponent).andThen bigMark

def number? : Text → Option Cut
  | '0' :: x :: cs =>
    if "xXoObB".toList.contains x then
      some (((Cut.ofWhile (fun c => c.isAlphanum || c == '_') cs).push x).push '0')
    else some (decimal ('0' :: x :: cs))
  | '.' :: d :: cs => if d.isDigit then some (decimal ('.' :: d :: cs)) else none
  | c :: cs => if c.isDigit then some (decimal (c :: cs)) else none
  | [] => none

/-- The rest of a quoted text up to its closing quote. It ends on its line. -/
def cutQuoted (quote : Char) : Text → Option Cut
  | [] => none
  | '\\' :: c :: cs => (cutQuoted quote cs).map fun cut => (cut.push c).push '\\'
  | c :: cs =>
    if c == quote then some ([c], cs)
    else if c == '\n' then none
    else (cutQuoted quote cs).map (Cut.push c)

def quoted? : Text → Option Cut
  | c :: cs => if c == '\x22' || c == '\x27' then (cutQuoted c cs).map (Cut.push c) else none
  | [] => none

/-- A quoted text without escapes that may span several lines. -/
def verbatim? : Text → Option Cut
  | c :: cs =>
    if c == '\x22' || c == '\x27' then
      match cs.span (· != c) with
      | (body, close :: rest) => some (c :: body ++ [close], rest)
      | (_, []) => none
    else none
  | [] => none

/-- The rest of a regular expression up to its closing slash; inside a class a slash closes
nothing. -/
def cutRegex : Bool → Text → Option Cut
  | _, [] => none
  | inClass, '\\' :: c :: cs => (cutRegex inClass cs).map fun cut => (cut.push c).push '\\'
  | inClass, c :: cs =>
    if endsLine c then none
    else if c == '/' && !inClass then some ((Cut.ofWhile Char.isAlpha cs).push c)
    else (cutRegex (c == '[' || (inClass && c != ']')) cs).map (Cut.push c)

/-- A regular expression with its flags. -/
def regex? : Text → Option Cut
  | '/' :: cs => (cutRegex false cs).map (Cut.push '/')
  | _ => none

/-- The text of a template up to its end or to the next expression in it. -/
def cutTemplate : Text → Cut
  | [] => ([], [])
  | '\\' :: c :: cs => ((cutTemplate cs).push c).push '\\'
  | '\x60' :: cs => ([], '\x60' :: cs)
  | '$' :: '\x7b' :: cs => ([], '$' :: '\x7b' :: cs)
  | c :: cs => (cutTemplate cs).push c

/-- The punctuators, longer ones first. -/
def punctuators : List String :=
  [">>>=", "...", "===", "!==", ">>>", "<<=", ">>=", "**=", "&&=", "||=", "??=",
    "=>", "==", "!=", "<=", ">=", "&&", "||", "??", "?.", "++", "--", "+=", "-=", "*=", "/=", "%=",
    "&=", "|=", "^=", "<<", ">>", "**",
    "\x7b", "\x7d", "(", ")", "[", "]", ";", ",", "<", ">", "+", "-", "*", "/", "%", "&", "|", "^",
    "!", "~", "?", ":", "=", ".", "@", "#", "\x60"]

/-- The longest punctuator at the front. A question mark and a decimal number do not make a
chain. -/
def punctuator? (cs : Text) : Option String :=
  match cs with
  | '?' :: '.' :: d :: _ => if d.isDigit then some "?" else longest
  | _ => longest
where
  longest : Option String := punctuators.find? fun p => Text.startsWith cs p.toList

/-- Words that are never names. -/
def reserved : List String :=
  ["break", "case", "catch", "class", "const", "continue", "debugger", "default", "delete", "do",
    "else", "enum", "export", "extends", "false", "finally", "for", "function", "if", "import",
    "in", "instanceof", "new", "null", "return", "super", "switch", "this", "throw", "true", "try",
    "typeof", "var", "void", "while", "with"]

end SourceTree.Script
