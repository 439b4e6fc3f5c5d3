import SourceTree.Text.Basic

/-!
Concrete constructs of scripts. Every token is a construct without parts; comments are constructs
too and stand among the parts of the innermost construct that surrounds them. What cannot be read is a
construct of its own kind, and what is not there but ought to be is an empty one.
-/

namespace SourceTree.Script

/-- A piece of a script: its name in the grammar, whether it is more than a fixed token, whether it was
only put in to mend the script, the part it plays in the construct around it, where it stands and what
it is made of. -/
structure Construct where
  kind : String
  isNamed : Bool
  isMissing : Bool := false
  role : Option String := none
  start : Nat
  stop : Nat
  parts : List Construct := []

namespace Construct

def isComment (c : Construct) : Bool := c.kind == "comment"

/-- Whether the construct is what could not be read. -/
def isError (c : Construct) : Bool := c.kind == "ERROR"

/-- The first part with a role. -/
def part? (c : Construct) (role : String) : Option Construct :=
  c.parts.find? fun p => p.role == some role

/-- Whether a fixed token is among the parts. -/
def hasToken (c : Construct) (token : String) : Bool :=
  c.parts.any fun p => !p.isNamed && p.kind == token

def namedParts (c : Construct) : List Construct := c.parts.filter isNamed

/-- Gives the constructs of a list a role; comments have none. -/
def mark (role : String) (cs : List Construct) : List Construct :=
  cs.map fun c => if c.isComment then c else { c with role := some role }

/-- Makes one construct of a list of parts. Comments in front stay outside it. -/
def wrap (kind : String) (cs : List Construct) : List Construct :=
  let leading := cs.takeWhile isComment
  let parts := cs.dropWhile isComment
  match parts.head?, parts.getLast? with
  | some first, some last =>
    leading ++ [{ kind := kind, isNamed := true, start := first.start, stop := last.stop,
                  parts := parts }]
  | _, _ => leading

end Construct

end SourceTree.Script
