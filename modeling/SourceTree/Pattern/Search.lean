import SourceTree.Pattern.Basic

/-!
Looking for a pattern: at the front of a text, anywhere in it, and everywhere in it.
-/

namespace SourceTree

/-- A successful match: the matched piece and the remembered groups, latest first. -/
structure Match where
  whole : Span
  groups : List (Nat × Span)
  deriving DecidableEq, Repr

namespace Match

/-- What a group remembered last. -/
def group? (m : Match) (slot : Nat) : Option Span := m.groups.lookup slot

/-- The text of a group; empty if the group took no part in the match. -/
def groupText (m : Match) (slot : Nat) : Text := ((m.group? slot).map Span.text).getD []

/-- The byte offset just past the match. -/
def stop (m : Match) : Nat := m.whole.stop

end Match

namespace Pattern

def matchAt? (p : Pattern) (c : Cursor) : Option Match :=
  (run p c [] fun d gs => some (d, gs)).map fun (d, gs) => ⟨c.spanTo d, gs⟩

def matchFront? (p : Pattern) (cs : Text) : Option Match := matchAt? p (Cursor.ofText cs)

/-- The leftmost match at or after a place, with the place from which to go on. -/
def searchFrom? (p : Pattern) (before : Option Char) (offset : Nat) :
    Text → Option (Match × Cursor)
  | [] => next? ⟨before, offset, []⟩
  | c :: cs =>
    (next? ⟨before, offset, c :: cs⟩).orElse fun _ =>
      searchFrom? p (some c) (offset + c.utf8Size) cs
where
  next? (c : Cursor) : Option (Match × Cursor) :=
    (run p c [] fun d gs => some (d, gs)).map fun (d, gs) => (⟨c.spanTo d, gs⟩, d)

/-- The leftmost match. -/
def search? (p : Pattern) (cs : Text) : Option Match :=
  (searchFrom? p none 0 cs).map (·.1)

/-- Successive matches from a place, none overlapping the one before it; an empty match is followed
by a step of one character. -/
def findAllFrom (p : Pattern) : Nat → Cursor → List Match
  | 0, _ => []
  | fuel + 1, c => match searchFrom? p c.before c.offset c.rest with
    | none => []
    | some (m, d) =>
      if m.whole.text.isEmpty then
        match d.rest with
        | [] => [m]
        | ch :: rest => m :: findAllFrom p fuel ⟨some ch, d.offset + ch.utf8Size, rest⟩
      else m :: findAllFrom p fuel d

/-- All matches from left to right. -/
def findAll (p : Pattern) (cs : Text) : List Match :=
  findAllFrom p (cs.length + 1) (Cursor.ofText cs)

/-- How many characters fill `n` bytes. -/
def charsWithin (n : Nat) : Text → Nat
  | [] => 0
  | c :: cs => if c.utf8Size ≤ n then charsWithin (n - c.utf8Size) cs + 1 else 0

/-- The text without the given matches, which are in order; the text starts at `offset`. -/
def eraseMatches (offset : Nat) : List Match → Text → Text
  | [], cs => cs
  | m :: ms, cs =>
    let kept := cs.take (charsWithin (m.whole.start - offset) cs)
    kept ++ eraseMatches m.stop ms (cs.drop (kept.length + m.whole.text.length))

def eraseAll (p : Pattern) (cs : Text) : Text := eraseMatches 0 (findAll p cs) cs

def eraseFirst (p : Pattern) (cs : Text) : Text := eraseMatches 0 (search? p cs).toList cs

end Pattern

end SourceTree
