import SourceTree.Builder
import SourceTree.Scan.MaskedSource

/-!
Bodies of constructs: what stands between braces in the mask of a source.
-/

namespace SourceTree.Attempt

open Scan (MaskedSource)

/-- A body in braces that opens at `start`: where it ends and where the construct ends. An unclosed
body reaches to the limit. -/
def bodyEnds (text : MaskedSource) (name : Text) (start limit : Nat) : Attempt (Nat × Nat) :=
  match Scan.findMatchingBefore? text.masked start limit '\x7b' '\x7d' with
  | some close => pure (close, close + 1)
  | none => do
    Attempt.warn (.unclosedBody name) start limit
    return (limit, limit)

end SourceTree.Attempt
