import SourceTree.Language
import SourceTree.Node.Basic

/-!
The outcome of reading a source: its tree and what was odd about it.
-/

namespace SourceTree

inductive Severity where
  | error | warning
  deriving DecidableEq, Repr

namespace Severity

def label : Severity → String
  | error => "error"
  | warning => "warning"

def ofLabel? : String → Option Severity
  | "error" => some error
  | "warning" => some warning
  | _ => none

end Severity

structure Diagnostic where
  message : String
  location : Location
  severity : Severity
  deriving DecidableEq, Repr

structure ParsedFile where
  path : String
  language : Language
  root : Node
  source : String
  diagnostics : List Diagnostic

namespace ParsedFile

/-- Whether a diagnostic is more than a warning. -/
def hasErrors (f : ParsedFile) : Bool := f.diagnostics.any fun d => d.severity == .error

end ParsedFile

end SourceTree
