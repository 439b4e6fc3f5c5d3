import SourceTree.Parameter
import SourceTree.Scan.Split
import SourceTree.Text.Split

/-!
Parameter lists of Go functions: names that share the next type, or types alone.
-/

namespace SourceTree.Go

/-- A parameter of a type; three points in front of the type make it variadic. -/
def parameter (name type : Text) : Parameter :=
  let variadic := Text.startsWith type "...".toList
  { name := String.ofList name
    type := some (String.ofList (Text.trimStartWord "...".toList type))
    optional := variadic
    variadic := variadic }

/-- Reads pieces of a list with names; `pending` are the names still without a type. -/
def namedParameters (pending : List Text) : List Text → List Parameter
  | [] => pending.map fun name => { name := String.ofList name }
  | piece :: pieces => match Text.splitFirst? Text.isBlank piece with
    | some (name, type) =>
      (pending ++ [name]).map (parameter · (Text.trim type)) ++ namedParameters [] pieces
    | none => namedParameters (pending ++ [piece]) pieces

/-- The parameters of a list. If no piece holds a blank, the pieces are types without names. -/
def parameters (list : Text) : List Parameter :=
  let pieces := (Scan.splitTopLevel list ',' false).map Span.text
  if pieces.any fun piece => piece.any Text.isBlank then namedParameters [] pieces
  else pieces.map (parameter ['_'])

end SourceTree.Go
