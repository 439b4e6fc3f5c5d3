import SourceTree.Java.Pattern
import SourceTree.Parameter
import SourceTree.Scan.MaskedSource
import SourceTree.Scan.Split

/-!
Formal parameters of methods and components of records, and the supertypes that a header lists.
-/

namespace SourceTree.Java

open Scan (MaskedSource Range)

/-- Moves array brackets from the end of a name to the end of its type. -/
def moveBrackets : Nat → Text → Text → Text × Text
  | 0, type, name => (type, name)
  | fuel + 1, type, name => match Text.before? name ['[', ']'] with
    | some stem => moveBrackets fuel (type ++ ['[', ']']) stem
    | none => (type, name)

/-- One parameter, from its text and the mask of its text; nothing if a type or a name is missing. -/
def parameter (raw masked : Text) : Option Parameter := do
  if (Text.trim (annotationMark.eraseAll masked)).isEmpty then none
  let cleaned := Text.trim (annotationMark.eraseAll raw)
  let cleaned := Text.trim (Text.trimStartWord "final ".toList cleaned)
  let (type, name) ← Text.splitLast? Text.isBlank cleaned
  let name := Text.trim name
  let (type, name) := moveBrackets name.length (Text.trim type) name
  let variadic := Text.endsWith type "...".toList
  let type := if variadic then Text.trim (Text.trimEndWord "...".toList type) else type
  return { name := String.ofList name, type := some (String.ofList type),
           variadic := variadic }

/-- The parameters inside a range, which is that between the parentheses. -/
def parameters? (text : MaskedSource) (range : Range) : Option (List Parameter) := do
  let code ← text.code? range.start range.stop
  let pieces ← (Scan.splitTopLevel code ',' true).mapM fun piece => do
    return (← text.text? (range.start + piece.start) (range.start + piece.stop), piece.text)
  return pieces.filterMap fun (raw, masked) => parameter raw masked

/-- A keyword with the offset at which its list starts and that at which the next keyword does. -/
def heritageLists (size : Nat) : List Span → List (Text × Nat × Nat)
  | [] => []
  | [last] => [(last.text, last.stop, size)]
  | keyword :: next :: more =>
    (keyword.text, keyword.stop, next.start) :: heritageLists size (next :: more)

/-- The types that a header extends and those that it implements. -/
def heritage? (text : MaskedSource) (range : Range) : Option (List Text × List Text) := do
  let code ← text.code? range.start range.stop
  let keywords := (heritageKeyword.findAll code).filterMap fun m => m.group? 1
  let lists ← (heritageLists (Text.size code) keywords).mapM fun (keyword, start, stop) => do
    let list ← Text.slice? code start stop
    let names ← (Scan.splitTopLevel list ',' true).mapM fun piece =>
      text.text? (range.start + start + piece.start) (range.start + start + piece.stop)
    return (keyword, names)
  let ofKeyword (word : String) : List Text :=
    lists.flatMap fun (keyword, names) => if keyword = word.toList then names else []
  return (ofKeyword "extends", ofKeyword "implements")

end SourceTree.Java
