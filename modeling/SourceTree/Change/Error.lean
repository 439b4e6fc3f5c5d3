/-!
Why a change or a batch of changes is rejected.
-/

namespace SourceTree

/-- Why a change is rejected; each cause names the changes that it is about by their labels. -/
inductive ChangeError where
  | outOfBounds (change : String) (start stop size : Nat)
  | invertedRange (change : String) (start stop : Nat)
  | notCharBoundary (change : String) (offset : Nat)
  | missingContent (change : String)
  | invalidDestination (change : String) (destination : Option Nat)
  | overlap (first second : String)
  deriving DecidableEq, Repr

namespace ChangeError

/-- The name of the cause. -/
def kind : ChangeError → String
  | outOfBounds .. => "OutOfBounds"
  | invertedRange .. => "InvertedRange"
  | notCharBoundary .. => "NotCharBoundary"
  | missingContent .. => "MissingContent"
  | invalidDestination .. => "InvalidDestination"
  | overlap .. => "Overlap"

def destinationText : Option Nat → String
  | some destination => "Some(" ++ toString destination ++ ")"
  | none => "None"

def quoted (label : String) : String := "'" ++ label ++ "'"

def message : ChangeError → String
  | outOfBounds change start stop size =>
    quoted change ++ ": range [" ++ toString start ++ ", " ++ toString stop ++
      ") is outside the source (length " ++ toString size ++ ")"
  | invertedRange change start stop =>
    quoted change ++ ": end " ++ toString stop ++ " is before start " ++ toString start
  | notCharBoundary change offset =>
    quoted change ++ ": offset " ++ toString offset ++ " is not on a UTF-8 character boundary"
  | missingContent change => quoted change ++ ": insert and replace need non-empty content"
  | invalidDestination change destination =>
    quoted change ++ ": move destination " ++ destinationText destination ++
      " must be inside the source and outside the moved span"
  | overlap first second => quoted first ++ " overlaps " ++ quoted second

def batchMessage (errors : List ChangeError) : String :=
  "Change batch rejected: " ++ "; ".intercalate (errors.map message)

end ChangeError

end SourceTree
