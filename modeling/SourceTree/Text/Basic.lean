/-!
Text as a list of characters that is addressed by byte offsets of its UTF-8 form.

Cutting is partial: `drop?`, `take?` and `slice?` answer only at offsets that lie inside the text
and between two characters.
-/

namespace SourceTree

/-- Source text, character by character. -/
abbrev Text := List Char

namespace Text

/-- The number of bytes of the UTF-8 form. -/
def size : Text → Nat
  | [] => 0
  | c :: cs => c.utf8Size + size cs

/-- What follows a byte offset, provided the offset lies between two characters. -/
def drop? : Text → Nat → Option Text
  | cs, 0 => some cs
  | [], _ + 1 => none
  | c :: cs, n + 1 => if c.utf8Size ≤ n + 1 then drop? cs (n + 1 - c.utf8Size) else none

/-- What precedes a byte offset, provided the offset lies between two characters. -/
def take? : Text → Nat → Option Text
  | _, 0 => some []
  | [], _ + 1 => none
  | c :: cs, n + 1 =>
    if c.utf8Size ≤ n + 1 then (take? cs (n + 1 - c.utf8Size)).map (c :: ·) else none

/-- The characters between two byte offsets. -/
def slice? (cs : Text) (start stop : Nat) : Option Text :=
  if start ≤ stop then (drop? cs start).bind (take? · (stop - start)) else none

/-- The character that starts at a byte offset. -/
def at? (cs : Text) (offset : Nat) : Option Char :=
  (drop? cs offset).bind List.head?

/-- Each character with the byte offset at which it starts, counted from `offset`. -/
def indexed : Nat → Text → List (Nat × Char)
  | _, [] => []
  | offset, c :: cs => (offset, c) :: indexed (offset + c.utf8Size) cs

/-- The byte offset of the first character that satisfies `p`. -/
def find? (p : Char → Bool) : Text → Option Nat
  | [] => none
  | c :: cs => if p c then some 0 else (find? p cs).map (c.utf8Size + ·)

/-- Whether the text begins with `word`. -/
def startsWith (cs word : Text) : Bool := word.isPrefixOf cs

/-- Whether the text ends with `word`. -/
def endsWith (cs word : Text) : Bool := word.isSuffixOf cs

/-- What follows `word` at the front of the text. -/
def after? : Text → Text → Option Text
  | cs, [] => some cs
  | c :: cs, w :: word => if c = w then after? cs word else none
  | [], _ :: _ => none

/-- What precedes `word` at the end of the text. -/
def before? (cs word : Text) : Option Text :=
  (after? cs.reverse word.reverse).map List.reverse

/-- Whether `word` occurs in the text. -/
def contains (cs word : Text) : Bool :=
  startsWith cs word || match cs with
    | [] => false
    | _ :: rest => contains rest word

theorem size_append (a b : Text) : size (a ++ b) = size a + size b := by
  induction a with
  | nil => simp [size]
  | cons c cs ih => simp [size, ih, Nat.add_assoc]

end Text

end SourceTree
