import Mathlib
import SourceTree.Proofs.Fidelity
import SourceTree.Proofs.Go.Import
import SourceTree.Proofs.Go.Tree
import SourceTree.Proofs.Java.Import
import SourceTree.Proofs.Java.Members

/-!
The imports of a file against the import nodes of its tree. The nodes that are missed are known from
their texts alone. Main statement: `imports_listed`.
-/

namespace SourceTree.Language

variable {l : Language} {tree : Text → Build Node} {read : Node → Option Import}
  {garbled : Text → Bool} {source : Text} {post : Node → Prop}

/-- A source that is always read lists the imports that can be read again from their nodes. -/
theorem imports_of_reread (scanned : l.scan? = some tree)
    (safe : Build.Safe source (tree source) post)
    (reread : Build.Grows source 0 (tree source) fun _ root =>
      ∀ n ∈ root.children, n.Reread read garbled) (path : String) :
    ∃ file, l.parse? source path = some file ∧
      List.Forall₂ Import.States
        ((file.root.children.filter fun n => n.kind == .importDecl).filterMap read)
        (Node.legibleImports garbled file.root.children) := by
  rw [parse?_eq_file? scanned]
  obtain ⟨file, parsed, -⟩ := Build.exists_file? safe
  obtain ⟨-, -, all⟩ := reread.of_file? parsed
  exact ⟨file, parsed, Node.imports_reread all⟩

/-- Every Java and every Go source is read, and the imports that are listed belong one by one to the
nodes of imports in the root whose texts are not garbled: each says the name and the location of its
node. -/
theorem imports_listed (source : Text) (path : String) :
    (∃ file, java.parse? source path = some file ∧
      List.Forall₂ Import.States (java.imports file.root)
        (Node.legibleImports Java.isGarbled file.root.children)) ∧
    ∃ file, go.parse? source path = some file ∧
      List.Forall₂ Import.States (go.imports file.root)
        (Node.legibleImports Go.isGarbled file.root.children) := by
  constructor
  · exact imports_of_reread rfl (Java.tree_safe source) (Java.tree_reread source) path
  · exact imports_of_reread rfl (Go.tree_safe source) (Go.tree_reread source) path

/-- Neither the keyword that runs into its path nor the comment keeps the node from being made, but
both keep the import from being listed. -/
theorem imports_unread :
    (∃ file, go.parse? "import\x22fmt\x22".toList "a.go" = some file ∧
      file.root.children.map (fun n => (n.kind, n.name)) = [(.importDecl, some "fmt")] ∧
      go.imports file.root = []) ∧
    ∃ file, java.parse? "import /* c */ a.b;".toList "A.java" = some file ∧
      file.root.children.map (fun n => (n.kind, n.name)) = [(.importDecl, some "a.b")] ∧
      java.imports file.root = [] := by
  have missed {l : Language} {source : Text} {path name : String}
      (h : (l.parse? source path).map (fun file =>
        (file.root.children.map fun n => (n.kind, n.name), l.imports file.root)) =
          some ([(.importDecl, some name)], [])) :
      ∃ file, l.parse? source path = some file ∧
        file.root.children.map (fun n => (n.kind, n.name)) = [(.importDecl, some name)] ∧
        l.imports file.root = [] := by
    obtain ⟨file, parsed, same⟩ := Option.map_eq_some_iff.mp h
    obtain ⟨nodes, none⟩ := Prod.mk.inj same
    exact ⟨file, parsed, nodes, none⟩
  constructor
  · exact missed (by cbv)
  · exact missed (by cbv)

end SourceTree.Language
