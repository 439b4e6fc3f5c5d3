import SourceTree.Text.Blank
import SourceTree.Text.Word

/-!
Patterns with ordered choice. A pattern is tried from a cursor; of two alternatives the first that
lets the rest of the pattern succeed is taken, and a greedy repetition prefers one more round to
stopping. The first way to succeed is the match.
-/

namespace SourceTree

/-- A piece of text and the byte offset at which it starts. -/
structure Span where
  start : Nat
  text : Text
  deriving DecidableEq, Repr

namespace Span

/-- The byte offset just past the piece. -/
def stop (s : Span) : Nat := s.start + Text.size s.text

/-- The same piece, counted from an origin `by` bytes further left. -/
def shift (s : Span) (by_ : Nat) : Span := { s with start := by_ + s.start }

end Span

/-- A place in a text: the character just before it, its byte offset and what follows. -/
structure Cursor where
  before : Option Char
  offset : Nat
  rest : Text
  deriving DecidableEq, Repr

namespace Cursor

def ofText (cs : Text) : Cursor := ⟨none, 0, cs⟩

/-- What lies between a cursor and a later one. -/
def spanTo (c d : Cursor) : Span := ⟨c.offset, c.rest.take (c.rest.length - d.rest.length)⟩

/-- Whether exactly one of the two neighbours is a word character. -/
def atWordEdge (c : Cursor) : Bool :=
  (c.before.map Text.isWord).getD false != (c.rest.head?.map Text.isWord).getD false

def atLineStart (c : Cursor) : Bool := c.before == none || c.before == some '\n'

end Cursor

/-- A pattern over characters. -/
inductive Pattern where
  /-- The empty text. -/
  | done
  /-- One character of a class. -/
  | one (p : Char → Bool)
  | seq (first second : Pattern)
  /-- The first alternative is preferred. -/
  | alt (first second : Pattern)
  /-- Any number of rounds: as many as possible if greedy, else as few as possible. -/
  | many (greedy : Bool) (body : Pattern)
  /-- The body, remembered under a number. -/
  | group (slot : Nat) (body : Pattern)
  | atEnd
  /-- The front of the text or just after a newline. -/
  | lineStart
  /-- Between a word character and something else. -/
  | wordEdge

namespace Pattern

instance : Append Pattern := ⟨seq⟩

instance : OrElse Pattern := ⟨fun a b => alt a (b ())⟩

/-- The groups remembered so far, latest first. -/
abbrev Groups := List (Nat × Span)

/-- What remains to be matched after a pattern. -/
abbrev Continuation := Cursor → Groups → Option (Cursor × Groups)

/-- Rounds of a body, at most `fuel` of them; a round that consumes nothing is not taken. -/
def rounds (body : Cursor → Groups → Continuation → Option (Cursor × Groups)) (greedy : Bool) :
    Nat → Cursor → Groups → Continuation → Option (Cursor × Groups)
  | 0, c, gs, k => k c gs
  | fuel + 1, c, gs, k =>
    let again := fun (_ : Unit) => body c gs fun d hs =>
      if d.rest.length < c.rest.length then rounds body greedy fuel d hs k else none
    if greedy then (again ()).orElse fun _ => k c gs else (k c gs).orElse again

/-- Tries a pattern at a cursor and then `k`; the first success counts. -/
def run : Pattern → Cursor → Groups → Continuation → Option (Cursor × Groups)
  | done, c, gs, k => k c gs
  | one p, c, gs, k => match c.rest with
    | [] => none
    | ch :: rest => if p ch then k ⟨some ch, c.offset + ch.utf8Size, rest⟩ gs else none
  | seq a b, c, gs, k => run a c gs fun d hs => run b d hs k
  | alt a b, c, gs, k => (run a c gs k).orElse fun _ => run b c gs k
  | many greedy body, c, gs, k => rounds (run body) greedy c.rest.length c gs k
  | group slot body, c, gs, k => run body c gs fun d hs => k d ((slot, c.spanTo d) :: hs)
  | atEnd, c, gs, k => if c.rest.isEmpty then k c gs else none
  | lineStart, c, gs, k => if c.atLineStart then k c gs else none
  | wordEdge, c, gs, k => if c.atWordEdge then k c gs else none

/-- A fixed word. -/
def lit (word : String) : Pattern :=
  word.toList.foldr (fun c p => one (· == c) ++ p) done

/-- One of several alternatives, earlier ones preferred. -/
def anyOf : List Pattern → Pattern
  | [] => one fun _ => false
  | [p] => p
  | p :: ps => alt p (anyOf ps)

/-- Any number of rounds, as many as possible. -/
def star (p : Pattern) : Pattern := many true p

/-- At least one round, as many as possible. -/
def plus (p : Pattern) : Pattern := p ++ many true p

/-- Any number of rounds, as few as possible. -/
def fewest (p : Pattern) : Pattern := many false p

/-- At least one round, as few as possible. -/
def fewestPlus (p : Pattern) : Pattern := p ++ many false p

/-- The pattern or nothing, preferably the pattern. -/
def opt (p : Pattern) : Pattern := alt p done

/-- One character other than those of `chars`. -/
def noneOf (chars : List Char) : Pattern := one fun c => !chars.contains c

/-- Any character. -/
def anything : Pattern := one fun _ => true

/-- Any number of blanks. -/
def blanks : Pattern := star (one Text.isBlank)

def blanks1 : Pattern := plus (one Text.isBlank)

/-- An ASCII letter or underscore followed by word characters. -/
def name : Pattern := one Text.isNameStart ++ star (one Text.isWord)

end Pattern

end SourceTree
