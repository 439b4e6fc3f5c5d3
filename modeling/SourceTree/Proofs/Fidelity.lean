import SourceTree.Proofs.Go.Growth
import SourceTree.Proofs.Java.Growth
import SourceTree.Proofs.Python.Growth
import SourceTree.Reader

/-!
What a tree says about its source. In the languages that are scanned, every node quotes the source
and is linked to the node that holds it, and ids ascend from the leaves to the root, which bears the
number of all ids handed out.
-/

namespace SourceTree

variable {source : Text} {path : String} {file : ParsedFile}

namespace Language

/-- How the tree of a source is built, in the languages whose sources are scanned for declarations. -/
def scan? : Language → Option (Text → Build Node)
  | python => some Python.tree
  | java => some Java.tree
  | go => some Go.tree
  | typescript | javascript => none

theorem scan?_grows {l : Language} {tree : Text → Build Node} (h : l.scan? = some tree)
    (source : Text) : Build.Grows source 0 (tree source) fun j n =>
      Grown source 0 j [n] ∧ n.id = j ∧ n.parent = none := by
  cases l with
  | python =>
    obtain rfl := Option.some.inj h
    exact Python.tree_grows source
  | java =>
    obtain rfl := Option.some.inj h
    exact Java.tree_grows source
  | go =>
    obtain rfl := Option.some.inj h
    exact Go.tree_grows source
  | typescript | javascript => cases h

theorem parse?_eq_file? {l : Language} {tree : Text → Build Node} (h : l.scan? = some tree)
    (source : Text) (path : String) : l.parse? source path = Build.file? path l source (tree source) := by
  cases l with
  | python | java | go =>
    obtain rfl := Option.some.inj h
    rfl
  | typescript | javascript => cases h

/-- A tree that was read from a source quotes it at every node; every node is linked to the one that
holds it and the root to none. Listed behind their children the nodes have ascending ids, so no two
have the same, and the id of the root is the number of ids that were handed out. -/
theorem parse?_faithful {l : Language} {tree : Text → Build Node} (scanned : l.scan? = some tree)
    (parsed : l.parse? source path = some file) :
    (∀ v ∈ file.root.visits,
      v.node.Quotes source ∧ v.node.parent = v.parent.map Node.id) ∧
    (file.root.postOrder.Pairwise fun a b => a.id < b.id) ∧
    (file.root.nodes.map Node.id).Nodup ∧
    ∃ b, (tree source).run (Builder.ofSource source) = some (file.root, b) ∧
      file.root.id = b.issued := by
  rw [parse?_eq_file? scanned] at parsed
  obtain ⟨b, run, grown, id, orphan⟩ := (scan?_grows scanned source).of_file? parsed
  have ascending : file.root.postOrder.Pairwise fun a b => a.id < b.id := by
    have all := grown.ascending
    rwa [Node.postOrderAll, Node.postOrderAll, List.append_nil] at all
  refine ⟨?_, ascending, ?_, b, run, id⟩
  · cases grown with
    | cons below _ quotes linked _ =>
      intro v hv
      rw [Node.visits, Node.walk, Node.walkFrom_all, List.mem_cons] at hv
      rcases hv with rfl | hv
      · exact ⟨quotes, orphan⟩
      · exact below.visits linked 1 v hv
  · have distinct : (file.root.postOrder.map Node.id).Nodup :=
      List.pairwise_map.mpr (ascending.imp Nat.ne_of_lt)
    exact (file.root.postOrder_perm_nodes.map Node.id).nodup_iff.mp distinct

/-- The decorator takes the second id and is lost, as the parameters of its function are not
closed. -/
theorem parse?_faithful_abandoned : ∃ source file,
    source = "x = 1\n@d\ndef f(".toList ∧ python.parse? source "a.py" = some file ∧
    file.root.nodes.map Node.id = [3, 1] ∧
    (∀ v ∈ file.root.visits,
      v.node.Quotes source ∧ v.node.parent = v.parent.map Node.id) ∧
    (file.root.postOrder.Pairwise fun a b => a.id < b.id) ∧
    (file.root.nodes.map Node.id).Nodup ∧
    ∃ b, (Python.tree source).run (Builder.ofSource source) = some (file.root, b) ∧
      file.root.id = b.issued := by
  have ids : (python.parse? "x = 1\n@d\ndef f(".toList "a.py").map
      (fun file => file.root.nodes.map Node.id) = some [3, 1] := by decide +kernel
  obtain ⟨file, parsed, same⟩ := Option.map_eq_some_iff.mp ids
  exact ⟨_, file, rfl, parsed, same, parse?_faithful rfl parsed⟩

end Language

end SourceTree
