import SourceTree.Text.Basic

/-!
Masks: copies of a source in which comments and the insides of literals are blank. A character is
blanked by as many spaces as it has bytes and newlines stay, so every offset means the same place
in the mask as in the source.

A mask is a scanner with a state; each step looks at the next characters, writes what becomes of
them and says in which state and where to go on.
-/

namespace SourceTree.Scan

/-- A blanked character: a newline, or as many spaces as the character has bytes. -/
def blank (c : Char) : Text :=
  if c = '\n' then ['\n'] else List.replicate c.utf8Size ' '

/-- Where the scanner of brace languages stands. -/
inductive BraceState where
  | code
  | lineComment
  | blockComment
  /-- Inside a literal between two of these quotes on one line. -/
  | quoted (quote : Char)
  /-- Inside a literal between triple quotes. -/
  | textBlock
  /-- Inside a literal between backticks, where nothing is escaped. -/
  | raw
  deriving DecidableEq, Repr

/-- Masks the source of a language with braces, slash comments, quotes with backslash escapes,
text blocks and raw strings. -/
def maskBraceFrom : BraceState → Text → Text
  | _, [] => []
  | .code, '/' :: '/' :: cs => ' ' :: ' ' :: maskBraceFrom .lineComment cs
  | .code, '/' :: '*' :: cs => ' ' :: ' ' :: maskBraceFrom .blockComment cs
  | .code, '\x22' :: '\x22' :: '\x22' :: cs =>
    '\x22' :: '\x22' :: '\x22' :: maskBraceFrom .textBlock cs
  | .code, c :: cs =>
    if c = '\x22' ∨ c = '\x27' then c :: maskBraceFrom (.quoted c) cs
    else if c = '\x60' then c :: maskBraceFrom .raw cs
    else c :: maskBraceFrom .code cs
  | .lineComment, c :: cs => blank c ++ maskBraceFrom (if c = '\n' then .code else .lineComment) cs
  | .blockComment, '*' :: '/' :: cs => ' ' :: ' ' :: maskBraceFrom .code cs
  | .blockComment, c :: cs => blank c ++ maskBraceFrom .blockComment cs
  | .quoted _, '\\' :: '\n' :: cs => ' ' :: '\n' :: maskBraceFrom .code cs
  | .quoted quote, '\\' :: escaped :: cs => ' ' :: blank escaped ++ maskBraceFrom (.quoted quote) cs
  | .quoted quote, c :: cs =>
    if c = '\\' then ' ' :: maskBraceFrom (.quoted quote) cs
    else if c = quote then c :: maskBraceFrom .code cs
    else if c = '\n' then '\n' :: maskBraceFrom .code cs
    else blank c ++ maskBraceFrom (.quoted quote) cs
  | .textBlock, '\x22' :: '\x22' :: '\x22' :: cs =>
    '\x22' :: '\x22' :: '\x22' :: maskBraceFrom .code cs
  | .textBlock, '\\' :: escaped :: cs => ' ' :: blank escaped ++ maskBraceFrom .textBlock cs
  | .textBlock, c :: cs => blank c ++ maskBraceFrom .textBlock cs
  | .raw, c :: cs =>
    if c = '\x60' then c :: maskBraceFrom .code cs else blank c ++ maskBraceFrom .raw cs

def maskBrace (source : Text) : Text := maskBraceFrom .code source

/-- Where the scanner of indented languages stands. -/
inductive IndentState where
  | code
  | comment
  /-- Inside a literal; `triple` literals go on over line ends. -/
  | quoted (quote : Char) (triple : Bool)
  deriving DecidableEq, Repr

/-- Masks the source of a language with hash comments and single and triple quotes, from a state. -/
def maskIndentFrom : IndentState → Text → Text
  | _, [] => []
  | .comment, c :: cs => blank c ++ maskIndentFrom (if c = '\n' then .code else .comment) cs
  | .quoted quote triple, '\\' :: escaped :: cs =>
    ' ' :: blank escaped ++ maskIndentFrom (.quoted quote triple) cs
  | .quoted quote true, a :: b :: c :: cs =>
    if a = quote ∧ b = quote ∧ c = quote then
      quote :: quote :: quote :: maskIndentFrom .code cs
    else blank a ++ maskIndentFrom (.quoted quote true) (b :: c :: cs)
  | .quoted quote true, c :: cs => blank c ++ maskIndentFrom (.quoted quote true) cs
  | .quoted quote false, c :: cs =>
    if c = '\\' then ' ' :: maskIndentFrom (.quoted quote false) cs
    else if c = quote then c :: maskIndentFrom .code cs
    else if c = '\n' then '\n' :: maskIndentFrom .code cs
    else blank c ++ maskIndentFrom (.quoted quote false) cs
  | .code, '\x22' :: '\x22' :: '\x22' :: cs =>
    '\x22' :: '\x22' :: '\x22' :: maskIndentFrom (.quoted '\x22' true) cs
  | .code, '\x27' :: '\x27' :: '\x27' :: cs =>
    '\x27' :: '\x27' :: '\x27' :: maskIndentFrom (.quoted '\x27' true) cs
  | .code, c :: cs =>
    if c = '#' then ' ' :: maskIndentFrom .comment cs
    else if c = '\x22' ∨ c = '\x27' then c :: maskIndentFrom (.quoted c false) cs
    else c :: maskIndentFrom .code cs

def maskIndent (source : Text) : Text := maskIndentFrom .code source

end SourceTree.Scan
