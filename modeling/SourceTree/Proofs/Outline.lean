import SourceTree.Proofs.Go.Echo
import SourceTree.Proofs.Java.Echo
import SourceTree.Reader

/-!
What comments and literals cannot do. In the languages with braces the outline of a tree and the
diagnostics depend on the mask of the source alone.
-/

namespace SourceTree

variable {source source' : Text}

/-- The two files have trees of one outline and the same diagnostics. -/
structure ParsedFile.SameOutline (file file' : ParsedFile) : Prop where
  outline : file.root.outline = file'.root.outline
  diagnostics : file.diagnostics = file'.diagnostics

theorem Go.sameImports_of_none {masked : Text}
    (none : ∀ m ∈ declaration.findAll masked, m.groupText 1 ≠ "import".toList) :
    SameImports source source' masked := by
  intro keyword hk isImport
  obtain ⟨m, hm, hgroup⟩ := List.mem_filterMap.mp hk
  have text : m.groupText 1 = keyword.text := by simp [Match.groupText, hgroup]
  exact absurd (text.trans isImport) (none m hm)

namespace Language

/-- Two sources with one mask are read in both languages, and their trees have the same outline and
diagnostics: what stands in comments and literals cannot add, remove, rename or move a declaration.
In Go this takes a mask without imports, as their paths stand in literals. -/
theorem parse?_outline (same : Scan.maskBrace source = Scan.maskBrace source') (path path' : String) :
    (∃ file file', java.parse? source path = some file ∧ java.parse? source' path' = some file' ∧
      file.SameOutline file') ∧
    ((∀ m ∈ Go.declaration.findAll (Scan.maskBrace source), m.groupText 1 ≠ "import".toList) →
      ∃ file file', go.parse? source path = some file ∧ go.parse? source' path' = some file' ∧
        file.SameOutline file') := by
  have both := MasksBoth.of_maskBrace same
  constructor
  · obtain ⟨file, file', parsed, parsed', twin, diagnostics⟩ := (Java.tree_echoes same).exists_files
      both (Java.tree_safe source) (Java.tree_safe source') path path' .java
    exact ⟨file, file', parsed, parsed', twin.outline_eq, diagnostics⟩
  · intro none
    have echoes := Go.tree_echoes same (Go.sameImports_of_none none)
    obtain ⟨file, file', parsed, parsed', twin, diagnostics⟩ := echoes.exists_files
      both (Go.tree_safe source) (Go.tree_safe source') path path' .go
    exact ⟨file, file', parsed, parsed', twin.outline_eq, diagnostics⟩

/-- A function in a comment, and a variable in its place. -/
theorem parse?_outline_comment : ∃ source source' : Text,
    source = "type A struct \x7b /* func g() \x7b\x7d */ b int \x7d".toList ∧
    source' = "type A struct \x7b /* var a, c, d */ b int \x7d".toList ∧
    Scan.maskBrace source = Scan.maskBrace source' ∧
    (∀ m ∈ Go.declaration.findAll (Scan.maskBrace source), m.groupText 1 ≠ "import".toList) ∧
    (∃ file file', java.parse? source "a" = some file ∧
      java.parse? source' "b" = some file' ∧ file.SameOutline file') ∧
    ∃ file file', go.parse? source "a" = some file ∧
      go.parse? source' "b" = some file' ∧ file.SameOutline file' := by
  have same : Scan.maskBrace "type A struct \x7b /* func g() \x7b\x7d */ b int \x7d".toList =
      Scan.maskBrace "type A struct \x7b /* var a, c, d */ b int \x7d".toList := by decide +kernel
  have none : ∀ m ∈ Go.declaration.findAll
      (Scan.maskBrace "type A struct \x7b /* func g() \x7b\x7d */ b int \x7d".toList),
      m.groupText 1 ≠ "import".toList := by decide +kernel
  obtain ⟨java, go⟩ := parse?_outline same "a" "b"
  exact ⟨_, _, rfl, rfl, same, none, java, go none⟩

end Language

end SourceTree
