import SourceTree.Text.Basic

/-!
Blanks are the characters of the Unicode property White_Space. Trimming and splitting at blanks
use this one class everywhere.
-/

namespace SourceTree.Text

/-- The characters with the property White_Space. -/
def isBlank (c : Char) : Bool :=
  let n := c.toNat
  n == 0x20 || (0x09 ≤ n && n ≤ 0x0D) || n == 0x85 || n == 0xA0 || n == 0x1680 ||
    (0x2000 ≤ n && n ≤ 0x200A) || n == 0x2028 || n == 0x2029 || n == 0x202F || n == 0x205F ||
    n == 0x3000

/-- Drops the characters at the end that satisfy `p`. -/
def dropEndWhile (p : Char → Bool) (cs : Text) : Text := (cs.reverse.dropWhile p).reverse

def trimStart (cs : Text) : Text := cs.dropWhile isBlank

def trimEnd (cs : Text) : Text := dropEndWhile isBlank cs

def trim (cs : Text) : Text := trimEnd (trimStart cs)

/-- The number of bytes of the blanks at the front. -/
def blankSize (cs : Text) : Nat := size (cs.takeWhile isBlank)

/-- Removes every copy of `word` at the front. -/
def trimStartWord (word : Text) (cs : Text) : Text :=
  go cs.length cs
where
  go : Nat → Text → Text
    | 0, cs => cs
    | n + 1, cs => match after? cs word with
      | some rest => go n rest
      | none => cs

/-- Removes every copy of `word` at the end. -/
def trimEndWord (word : Text) (cs : Text) : Text :=
  (trimStartWord word.reverse cs.reverse).reverse

end SourceTree.Text
