import SourceTree.Proofs.Outline
import SourceTree.Proofs.Scan.Uncomment

/-!
What comments can do to the headers of declarations. Headers are found in the mask but their
modifiers and parameters are read from the source, so a comment outside of them changes nothing and
one that stands among them is read as if it were code.
-/

namespace SourceTree

variable {front list : Nat → Prop}

/-- The nodes have the same access metadata if `front` holds of the offset at which they start, and
the same parameters if `list` does. -/
structure Node.SameHeader (front list : Nat → Prop) (n n' : Node) : Prop where
  access : front n.location.startIndex → ∀ key ∈ accessKeys,
    n.metadata.get? key = n'.metadata.get? key
  parameters : list n.location.startIndex →
    n.metadata.get? "parameters" = n'.metadata.get? "parameters"

theorem Node.Twin.sameHeaders {n n' : Node} (twin : n.Twin (.header front list) n') :
    List.Forall₂ (Node.SameHeader front list) n.nodes n'.nodes := by
  refine twin.nodes_alike.imp fun m m' alike => ?_
  constructor
  · intro here key hkey
    exact alike.metadata key (.inl ⟨hkey, here⟩)
  · intro here
    exact alike.metadata "parameters" (.inr ⟨rfl, here⟩)

/-- The two files have the same outline and, node by node, the same headers as far as `front` and
`list` tell. -/
structure ParsedFile.SameHeaders (front list : Nat → Prop) (file file' : ParsedFile) : Prop
    extends SameOutline file file' where
  headers : List.Forall₂ (Node.SameHeader front list) file.root.nodes file'.root.nodes

open Scan (maskBrace uncomment)

namespace Language

/-- Blanking the comments of a source changes neither the access metadata of a node whose modifiers
hold no comment nor the parameters of one whose parameters hold none. Names decide on access in Go,
so there no comment changes it; but a comment can hide an import, and with it the end of one. -/
theorem parse?_uncommented (source : Text) (path : String) :
    (∃ file file', java.parse? source path = some file ∧
      java.parse? (uncomment source) path = some file' ∧
      file.SameHeaders (Java.SameModifiers source (uncomment source) (maskBrace source))
        (Java.SameParameters source (uncomment source) (maskBrace source)) file') ∧
    (Go.SameImports source (uncomment source) (maskBrace source) →
      ∃ file file', go.parse? source path = some file ∧
        go.parse? (uncomment source) path = some file' ∧
        file.SameHeaders (fun _ => True)
          (Go.SameParameters source (uncomment source) (maskBrace source)) file') := by
  have same := (Scan.maskBrace_uncomment source).symm
  have both := MasksBoth.of_maskBrace same
  constructor
  · obtain ⟨file, file', parsed, parsed', twin, diagnostics⟩ := (Java.tree_echoes same).exists_files
      both (Java.tree_safe source) (Java.tree_safe (uncomment source)) path path .java
    exact ⟨file, file', parsed, parsed', ⟨twin.outline_eq, diagnostics⟩, twin.sameHeaders⟩
  · intro imports
    have echoes := Go.tree_echoes same imports
    obtain ⟨file, file', parsed, parsed', twin, diagnostics⟩ := echoes.exists_files
      both (Go.tree_safe source) (Go.tree_safe (uncomment source)) path path .go
    exact ⟨file, file', parsed, parsed', ⟨twin.outline_eq, diagnostics⟩, twin.sameHeaders⟩

/-- A list of names in a comment in front of a function. -/
theorem parse?_uncommented_function : ∃ source : Text,
    source = "// (a, b)\nfunc F(c int) \x7b\x7d".toList ∧
    Go.SameImports source (uncomment source) (maskBrace source) ∧
    Go.SameParameters source (uncomment source) (maskBrace source) 10 ∧
    ∃ file file', go.parse? source "a.go" = some file ∧
      go.parse? (uncomment source) "a.go" = some file' ∧
      file.SameHeaders (fun _ => True)
        (Go.SameParameters source (uncomment source) (maskBrace source)) file' := by
  have imports : Go.SameImports "// (a, b)\nfunc F(c int) \x7b\x7d".toList
      (uncomment "// (a, b)\nfunc F(c int) \x7b\x7d".toList)
      (maskBrace "// (a, b)\nfunc F(c int) \x7b\x7d".toList) :=
    Go.sameImports_of_none (by decide +kernel)
  refine ⟨_, rfl, imports, ?_, (parse?_uncommented _ "a.go").2 imports⟩
  intro list found
  have behind : 10 ≤ list.start := by
    cases found with
    | func => dsimp only; omega
    | method => dsimp only; omega
  obtain ⟨k, hk⟩ := Nat.exists_eq_add_of_le' behind
  have rest : Text.drop? "// (a, b)\nfunc F(c int) \x7b\x7d".toList (k + 10) =
    Text.drop? "func F(c int) \x7b\x7d".toList k := rfl
  have rest' : Text.drop? (uncomment "// (a, b)\nfunc F(c int) \x7b\x7d".toList) (k + 10) =
    Text.drop? "func F(c int) \x7b\x7d".toList k := rfl
  rw [SameIn, Text.slice?, Text.slice?, hk, rest, rest']

/-- The names of the parameters of each node that has any. -/
def parameterNames (source : Text) : Option (List (List String)) :=
  (go.parse? source "a.go").map fun file => file.root.nodes.filterMap fun n => do
    let parameters ← Parameter.listOfValue? (← n.metadata.get? "parameters")
    return parameters.map Parameter.name

/-- A comment in a parameter list is split at its commas and read as two parameters. -/
theorem parameterNames_comment :
    parameterNames "func f(/* a, b */ c int) \x7b\x7d".toList = some [["/*", "b"]] ∧
    parameterNames (uncomment "func f(/* a, b */ c int) \x7b\x7d".toList) = some [["c"]] := by
  decide +kernel

end Language

end SourceTree
