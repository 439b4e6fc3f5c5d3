import SourceTree.Scan.MaskedSource

/-!
Where Go statements end. A newline ends a statement unless it stands in brackets; the scanner jumps
over bracketed groups.
-/

namespace SourceTree.Go

open Scan (MaskedSource closing?)

/-- Just past the group that opens at the front of a text at `offset`; an unclosed group reaches to
`unclosed`. -/
def groupStop (opener closer : Char) (offset : Nat) (text : Text) (unclosed : Nat) : Nat :=
  match closing? opener closer 0 offset text with
  | some close => close + 1
  | none => unclosed

/-- The offset of the first newline outside brackets or the limit. Characters before `resume` belong
to a group and are passed over. -/
def newlineFrom (limit resume offset : Nat) : Text → Nat
  | [] => min offset limit
  | c :: cs =>
    let next := offset + c.utf8Size
    if limit ≤ offset then limit
    else if offset < resume then newlineFrom limit resume next cs
    else if c = '(' then
      newlineFrom limit (groupStop '(' ')' offset (c :: cs) (next + Text.size cs)) next cs
    else if c = '[' then newlineFrom limit (groupStop '[' ']' offset (c :: cs) limit) next cs
    else if c = '\x7b' then
      newlineFrom limit (groupStop '\x7b' '\x7d' offset (c :: cs) (next + Text.size cs)) next cs
    else if c = '\n' then offset
    else newlineFrom limit resume next cs

/-- The end of the statement that starts at `start`, without blanks at its end. -/
def lineEnd? (text : MaskedSource) (start limit : Nat) : Option Nat := do
  let rest ← Text.drop? text.masked start
  let stop := newlineFrom limit start start rest
  return start + Text.size (Text.trimEnd (← text.code? start stop))

/-- Whether the text, read backwards, ends in a word that braces belong to. -/
def endsInBraceType (passed : Text) : Bool :=
  let passed := passed.dropWhile Text.isBlank
  Text.startsWith passed "struct".toList.reverse || Text.startsWith passed "interface".toList.reverse

/-- The brace that opens a function body, braces of result types passed over; none if a newline
comes first. `passed` is what was read already, backwards. -/
def bodyOpenFrom (limit resume offset : Nat) (passed : Text) : Text → Option Nat
  | [] => none
  | c :: cs =>
    let next := offset + c.utf8Size
    if limit ≤ offset then none
    else if offset < resume then bodyOpenFrom limit resume next (c :: passed) cs
    else if c = '(' then
      bodyOpenFrom limit (groupStop '(' ')' offset (c :: cs) (next + Text.size cs)) next
        (c :: passed) cs
    else if c = '[' then
      bodyOpenFrom limit (groupStop '[' ']' offset (c :: cs) limit) next (c :: passed) cs
    else if c = '\x7b' then
      if endsInBraceType passed then
        bodyOpenFrom limit (groupStop '\x7b' '\x7d' offset (c :: cs) (next + Text.size cs)) next
          (c :: passed) cs
      else some offset
    else if c = '\n' then none
    else bodyOpenFrom limit resume next (c :: passed) cs

/-- The brace that opens the body of a function whose parameters end at `start`. -/
def bodyOpen? (text : MaskedSource) (start : Nat) : Option (Option Nat) := do
  let rest ← Text.drop? text.masked start
  return bodyOpenFrom text.size start start [] rest

/-- Where to go on behind what starts at `pos` and ends at `stop`: never at `pos` again. -/
def goOn? (text : MaskedSource) (pos stop : Nat) : Option { next : Nat // pos < next } :=
  (text.skipBlanks? (max stop (pos + 1))).pmap Subtype.mk fun next h => by
    have := MaskedSource.le_of_skipBlanks? h
    omega

end SourceTree.Go
