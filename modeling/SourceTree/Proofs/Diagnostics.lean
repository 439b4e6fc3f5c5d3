import SourceTree.Proofs.Go.Silence
import SourceTree.Proofs.Go.Tree
import SourceTree.Proofs.Java.Silence
import SourceTree.Reader

/-!
When sources of brace languages are read without a report. The scanners count one kind of bracket
at a time and stop at the limit of the region that they are in, and yet they never call something
open that is closed: in well-nested code every such region is well nested as well.
-/

namespace SourceTree.Language

open Scan (WellNested maskBrace)

/-- If parentheses and braces nest in the code outside of comments and literals, the source is read
and nothing is reported. -/
theorem diagnostics_eq_nil_of_wellNested {l : Language} (brace : l = .java ∨ l = .go)
    {source : Text} (nested : WellNested (maskBrace source)) (path : String) :
    ∃ file, l.parse? source path = some file ∧ file.diagnostics = [] := by
  cases brace with
  | inl java =>
    subst java
    obtain ⟨file, parsed, -⟩ := Build.exists_file? (Java.tree_safe source)
    exact ⟨file, parsed, (Java.tree_silent nested).of_file? parsed⟩
  | inr go =>
    subst go
    obtain ⟨file, parsed, -⟩ := Build.exists_file? (Go.tree_safe source)
    exact ⟨file, parsed, (Go.tree_silent nested).of_file? parsed⟩

/-- Brackets in comments and literals need no partner. -/
theorem diagnostics_eq_nil_of_wellNested_quoted :
    (∃ file, java.parse? ("record Pair(int a, int b) \x7b // )\n".toList ++
        "  String f() \x7b return \"(\" + a + '\x7b'; \x7d\n\x7d\n".toList) "Pair.java" = some file ∧
      file.diagnostics = []) ∧
    ∃ file, go.parse? ("type (\n\tT struct \x7b f func(int) \x7d /* \x7d */\n)\n".toList ++
        "func (t T) M() (int, error) \x7b return t.f(0), nil \x7d\n".toList) "t.go" = some file ∧
      file.diagnostics = [] := by
  constructor
  · exact diagnostics_eq_nil_of_wellNested (.inl rfl) (by decide +kernel) "Pair.java"
  · exact diagnostics_eq_nil_of_wellNested (.inr rfl) (by decide +kernel) "t.go"

end SourceTree.Language
