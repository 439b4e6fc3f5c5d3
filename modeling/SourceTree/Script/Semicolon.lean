import SourceTree.Script.Reading

/-!
Semicolons that are not written. A statement may end without one at the end of the text, in front
of a closing brace, and at the end of a line unless what follows continues it.
-/

namespace SourceTree.Script

/-- Whether a text starts with a word that is not the front of a longer one. -/
def startsWithWord (word : String) (cs : Text) : Bool :=
  match Text.after? cs word.toList with
  | none => false
  | some rest => !(rest.head?.map Char.isAlpha).getD false

/-- Whether what follows a line end can start a statement. Behind an expression some marks continue
it, and the typed dialects differ in which. -/
def startsStatement (typed afterExpression : Bool) : Text → Bool
  | [] => true
  | '.' :: cs => !typed && (cs.head?.map Char.isDigit).getD false
  | '+' :: cs => cs.head? == some '+'
  | '-' :: cs => cs.head? == some '-'
  | '!' :: cs => cs.head? != some '='
  | c :: cs =>
    if c == '(' || c == '[' then typed && !afterExpression
    else !"\x60,:;*%><=?^|&/".toList.contains c &&
      !startsWithWord "in" (c :: cs) && !startsWithWord "instanceof" (c :: cs)

/-- What follows spaces and comments. -/
def afterGap (cs : Text) : Text := (Input.mk 0 cs).ahead

def isLineFeed (c : Char) : Bool := c == '\n' || c == '\u2028' || c == '\u2029'

/-- Whether a statement may end here in a typed dialect: a comment on the same line has to be
passed first. -/
def endsTyped (afterExpression : Bool) (cs : Text) : Bool :=
  match cs.dropWhile fun c => isSpace c && c != '\n' with
  | [] => true
  | '\x7d' :: _ => true
  | '\n' :: rest => startsStatement true afterExpression (afterGap rest)
  | _ => false

/-- The text behind a block comment whose opening is already passed, and whether it spans lines. -/
def afterBlock (cs : Text) : Bool × Text :=
  match cs with
  | [] => (false, [])
  | '*' :: '/' :: rest => (false, rest)
  | c :: rest =>
    let (broken, rest) := afterBlock rest
    (broken || isLineFeed c, rest)

/-- Whether a comment alone lets a statement end. It does not if an expression could go on, or if
what follows continues a declaration. -/
def endsAtComment (afterExpression : Bool) (following : Text) : Bool :=
  !afterExpression && following.head? != some ',' && following.head? != some '='

/-- Whether a statement may end here in an untyped dialect; at most `fuel` comments are passed. -/
def endsUntyped (afterExpression : Bool) : Nat → Text → Bool
  | 0, _ => false
  | fuel + 1, cs =>
    match cs.dropWhile fun c => isSpace c && !isLineFeed c with
    | [] => true
    | '\x7d' :: _ => true
    | '/' :: '/' :: rest =>
      let following := afterGap ('/' :: '/' :: rest)
      endsAtComment afterExpression following || following.head? == some '\x7d'
    | '/' :: '*' :: rest =>
      let (broken, rest) := afterBlock rest
      (broken && endsAtComment afterExpression rest) || endsUntyped afterExpression fuel rest
    | c :: rest => isLineFeed c && startsStatement false afterExpression (afterGap rest)

def endsStatement (d : Dialect) (afterExpression : Bool) (cs : Text) : Bool :=
  if d.isTyped then endsTyped afterExpression cs
  else endsUntyped afterExpression (cs.length + 1) cs

namespace Piece

/-- The unwritten semicolon at the first place where the statement may end: here or behind one of
the comments that follow. -/
def unwritten (afterExpression : Bool) : Piece := do
  let d ← read
  let i ← get
  let comments := i.gap.1
  if endsStatement d afterExpression i.rest then return [emptyAt i.offset]
  let passed := comments.takeWhile fun (_, j) => !endsStatement d afterExpression j.rest
  match comments.drop passed.length with
  | [] => failure
  | (last, j) :: _ =>
    set j
    return passed.map Prod.fst ++ [last, emptyAt j.offset]
where
  emptyAt (offset : Nat) : Construct :=
    { kind := "automatic_semicolon", isNamed := false, start := offset, stop := offset }

def semicolon (afterExpression : Bool) : Piece := punct ";" <|> unwritten afterExpression

end Piece

end SourceTree.Script
