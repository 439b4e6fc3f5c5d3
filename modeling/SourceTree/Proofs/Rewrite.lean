import Mathlib.Data.List.Perm.Basic
import SourceTree.Proofs.Change.Reorder
import SourceTree.Proofs.Fidelity
import SourceTree.Proofs.Java.Members
import SourceTree.Proofs.Node.Nested
import SourceTree.Proofs.Python.Nesting

/-!
Rewriting nodes of a tree. Nodes of a Java or Python tree neither of which contains the other lie
apart, so each of them can be replaced or deleted in one batch, in any order, and the new source has
the new contents in the places of their texts and is otherwise the old one.
-/

namespace SourceTree

variable {source : Text} {path : String} {file : ParsedFile}

/-! ### Where the nodes of a tree lie -/

namespace Java

open Scan (MaskedSource Range)

variable {masked : Text} {region : Range} {n : Node}

theorem Placed.lies (h : Placed masked region n) : LiesIn masked region n := by
  cases h with
  | leaf lies _ => exact lies
  | type _ lies _ _ _ => exact lies

/-- The body of a node lies inside it. -/
theorem IsBody.inside {limit : Nat} {body : Range} (h : IsBody masked limit n body) :
    n.location.startIndex ≤ body.start ∧ body.stop ≤ n.location.endIndex := by
  obtain ⟨brace, -, lt, start, closed | unclosed⟩ := h
  · obtain ⟨-, stop⟩ := closed
    omega
  · obtain ⟨-, last, stop⟩ := unclosed
    omega

theorem Placed.nested (h : Placed masked region n) : ∀ m ∈ n.nodes, m.Nested := by
  induction h with
  | leaf lies leaf =>
    intro m hm
    rw [Node.mem_nodes_iff, leaf] at hm
    obtain rfl : m = _ := by simpa using hm
    exact .of_leaf leaf
  | type body lies isBody ordered placed ih =>
    intro m hm
    rcases Node.mem_nodes_iff.mp hm with rfl | ⟨c, hc, hm⟩
    · refine ⟨fun c hc => ?_, ordered⟩
      have outer := isBody.inside
      have first := (placed c hc).lies.le_start
      have last := (placed c hc).lies.stop_le
      omega
    · exact ih c hc m hm

theorem tree_nested (source : Text) :
    Build.Safe source (tree source) fun root => ∀ m ∈ root.nodes, m.Nested := by
  refine (tree_safe source).mono fun root ⟨start, stop, ordered, placed⟩ m hm => ?_
  rcases Node.mem_nodes_iff.mp hm with rfl | ⟨c, hc, hm⟩
  · refine ⟨fun c hc => ?_, ordered⟩
    have last : c.location.endIndex ≤ Text.size source := (placed c hc).lies.stop_le
    omega
  · exact (placed c hc).nested m hm

end Java

namespace Python

theorem Orderly.nested {n : Node} (h : Orderly n) : n.Nested :=
  ⟨h.inside, h.apart.imp Nat.le_of_lt⟩

theorem tree_nested (source : Text) :
    Build.Grows source 0 (tree source) fun _ root => ∀ m ∈ root.nodes, m.Nested :=
  (tree_orderly source).mono fun _ _ _ orderly m hm => (orderly m hm).nested

end Python

namespace Language

theorem nested_of_parse? {l : Language} (hl : l = .java ∨ l = .python)
    (parsed : l.parse? source path = some file) : ∀ m ∈ file.root.nodes, m.Nested := by
  rcases hl with rfl | rfl
  · obtain ⟨file', parsed', nested⟩ := Build.exists_file? (Java.tree_nested source)
    obtain rfl : file' = file := Option.some.inj (parsed'.symm.trans parsed)
    exact nested
  · obtain ⟨-, -, nested⟩ := (Python.tree_nested source).of_file? parsed
    exact nested

theorem quotes_of_parse? {l : Language} {tree : Text → Build Node} (scanned : l.scan? = some tree)
    (parsed : l.parse? source path = some file) : ∀ m ∈ file.root.nodes, m.Quotes source := by
  rw [parse?_eq_file? scanned] at parsed
  obtain ⟨_, _, grown, _, _⟩ := (scan?_grows scanned source).of_file? parsed
  intro m hm
  exact (grown.each m (Node.mem_postOrderAll.mpr ⟨file.root, by simp, hm⟩)).1

end Language

/-! ### Batches of rewritten nodes -/

/-- A node and what takes the place of its text; a node without new content is deleted. -/
structure Rewriting where
  node : Node
  content : Option String

namespace Rewriting

variable {r : Rewriting} {batch : List Rewriting}

def change (r : Rewriting) : Change :=
  match r.content with
  | some content => Change.replaceNode r.node content
  | none => Change.deleteNode r.node

/-- The text that takes the place of the node's own. -/
def newText (r : Rewriting) : Text :=
  match r.content with
  | some content => content.toList
  | none => []

/-- The first text, which begins at the offset, becomes the second: the nodes of the batch follow
each other in it, the own text of each is exchanged for the new one, and all that lies between them
stays. -/
inductive Rewrites : Nat → List Rewriting → Text → Text → Prop where
  | done (pos : Nat) (rest : Text) : Rewrites pos [] rest rest
  | next {pos : Nat} {r : Rewriting} {batch : List Rewriting} {gap text rest rest' : Text} :
      r.node.location.startIndex = pos + Text.size gap →
      r.node.text = some (String.ofList text) →
      r.node.location.endIndex = r.node.location.startIndex + Text.size text →
      Rewrites r.node.location.endIndex batch rest rest' →
      Rewrites pos (r :: batch) (gap ++ text ++ rest) (gap ++ r.newText ++ rest')

/-- The edit of a rewritten node. -/
def edit (r : Rewriting) : Edit :=
  ⟨r.node.location.startIndex, r.node.location.endIndex, r.newText, 0⟩

theorem edits_change (source : Text) (r : Rewriting) : r.change.edits source 0 = [r.edit] := by
  obtain ⟨node, content⟩ := r
  cases content <;> rfl

theorem location_change (r : Rewriting) : r.change.location = r.node.location := by
  obtain ⟨node, content⟩ := r
  cases content <;> rfl

theorem wellFormed_change (quotes : r.node.Quotes source) (full : r.content ≠ some "") :
    r.change.WellFormed source := by
  obtain ⟨⟨t, slice, -⟩, -, -⟩ := quotes
  obtain ⟨le, first, last⟩ := Text.exists_slice?_iff.mp ⟨t, slice⟩
  rw [← location_change] at le first last
  obtain ⟨node, content⟩ := r
  cases content with
  | none =>
    have kind : (change ⟨node, none⟩).kind = .delete := rfl
    exact ⟨le, first, last, by simp [kind], by simp [kind]⟩
  | some content =>
    have kind : (change ⟨node, some content⟩).kind = .replace := rfl
    refine ⟨le, first, last, fun _ => ?_, by simp [kind]⟩
    change content ≠ ""
    simpa using full

/-- Rewritings of nodes that lie apart make no conflict. -/
theorem validate_changes (quotes : ∀ r ∈ batch, r.node.Quotes source)
    (full : ∀ r ∈ batch, r.content ≠ some "")
    (apart : batch.Pairwise fun r s => r.node.Apart s.node) :
    Change.validate true source (batch.map change) = [] := by
  rw [Change.validate_eq_nil_iff_clear]
  constructor
  · intro c hc
    obtain ⟨r, hr, rfl⟩ := List.mem_map.mp hc
    exact wellFormed_change (quotes r hr) (full r hr)
  · rw [List.pairwise_map]
    apply apart.imp
    intro r s apart a ha b hb overlap
    rw [edits_change, List.mem_singleton] at ha hb
    subst ha hb
    simp only [Edit.Overlaps, if_true, edit] at overlap
    simp only [Node.Apart] at apart
    omega

/-- What one pass over the source with the edits of the nodes writes is the rewritten source. -/
theorem rewrites_of_weave? (quotes : ∀ r ∈ batch, r.node.Quotes source) {pos : Nat}
    {rest output : Text} (here : Text.drop? source pos = some rest)
    (woven : Change.weave? source pos (batch.map edit) = some output) :
    Rewrites pos batch rest output := by
  induction batch generalizing pos rest output with
  | nil =>
    obtain rfl : rest = output := Option.some.inj (here.symm.trans woven)
    exact .done pos rest
  | cons r batch ih =>
    rw [List.map_cons, Change.weave?] at woven
    obtain ⟨gap, hgap, woven⟩ := Option.bind_eq_some_iff.mp woven
    obtain ⟨rest', later, same⟩ := Option.bind_eq_some_iff.mp woven
    obtain rfl : gap ++ r.newText ++ rest' = output := Option.some.inj same
    obtain ⟨⟨text, slice, htext⟩, -, -⟩ := quotes r (by simp)
    obtain ⟨front, back, hs, hfront, hgap'⟩ := Text.slice?_eq_some_iff.mp hgap
    obtain ⟨front', back', hs', hfront', htext'⟩ := Text.slice?_eq_some_iff.mp slice
    have behind : Text.drop? source r.node.location.endIndex = some back' := by
      rw [Text.drop?_eq_some_iff]
      refine ⟨front' ++ text, hs', ?_⟩
      rw [Text.size_append]
      omega
    have whole : rest = gap ++ text ++ back' := by
      have both := Text.slice?_append_slice? hgap slice
      have joined := Text.slice?_append_drop? both behind
      exact Option.some.inj (here.symm.trans joined)
    rw [whole]
    refine .next hgap'.symm htext htext'.symm ?_
    exact ih (fun s hs => quotes s (by simp [hs])) behind later

theorem carryOut?_changes (quotes : ∀ r ∈ batch, r.node.Quotes source)
    (valid : Change.validate true source (batch.map change) = []) :
    ∃ ordered output, ordered.Perm batch ∧ Rewrites 0 ordered source output ∧
      Change.carryOut? true source (batch.map change) = some (.applied output batch.length) := by
  obtain ⟨output, applied, woven⟩ := Change.carryOut?_woven valid
  rw [← Change.weave?_bare] at woven
  let sorted := (Change.batchEdits source (batch.map change)).mergeSort Edit.le
  have perm : (sorted.map Edit.bare).Perm (batch.map edit) := by
    have listed : (Change.batchEdits source (batch.map change)).map Edit.bare = batch.map edit := by
      rw [Change.batchEdits_bare, List.flatMap_map]
      simp only [edits_change]
      exact List.map_eq_flatMap.symm
    rw [← listed]
    exact (List.mergeSort_perm _ _).map _
  obtain ⟨ordered, hordered, perm⟩ : ∃ ordered : List Rewriting,
      sorted.map Edit.bare = ordered.map edit ∧ ordered.Perm batch := by
    have reordered := congrFun (congrFun (List.eq_map_comp_perm edit) (sorted.map Edit.bare)) batch
    exact reordered.mpr perm
  refine ⟨ordered, output, perm, ?_, ?_⟩
  · have whole : Text.drop? source 0 = some source := Text.drop?_append [] source
    refine rewrites_of_weave? (fun r hr => quotes r (perm.mem_iff.mp hr)) whole ?_
    rw [← hordered]
    exact woven
  · rw [applied, List.length_map]

end Rewriting

namespace Language

open Rewriting (Rewrites)

/-- In a Java or Python tree any nodes of which none is below another can be replaced and deleted in
one batch: it is accepted, and the new source is the old one with the texts of these nodes, and
nothing else, exchanged for the new contents. -/
theorem parse?_rewritable {l : Language} (hl : l = .java ∨ l = .python)
    (parsed : l.parse? source path = some file) (batch : List Rewriting)
    (known : ∀ r ∈ batch, r.node ∈ file.root.nodes)
    (unrelated : batch.Pairwise fun r s => r.node.Unrelated s.node)
    (full : ∀ r ∈ batch, r.content ≠ some "") :
    Change.validate true source (batch.map Rewriting.change) = [] ∧
    ∃ ordered output, ordered.Perm batch ∧ Rewrites 0 ordered source output ∧
      Change.carryOut? true source (batch.map Rewriting.change) =
        some (.applied output batch.length) := by
  have nested := nested_of_parse? hl parsed
  have scanned : ∃ tree, l.scan? = some tree := by
    rcases hl with rfl | rfl <;> exact ⟨_, rfl⟩
  obtain ⟨tree, scanned⟩ := scanned
  have quotes : ∀ r ∈ batch, r.node.Quotes source := fun r hr =>
    quotes_of_parse? scanned parsed r.node (known r hr)
  have apart : batch.Pairwise fun r s => r.node.Apart s.node := by
    apply unrelated.imp_of_mem
    intro r s hr hs unrelated
    exact Node.apart_of_nested nested (known r hr) (known s hs) unrelated
  have valid := Rewriting.validate_changes quotes full apart
  exact ⟨valid, Rewriting.carryOut?_changes quotes valid⟩

/-- Of a field of a class and the method behind it, the method is deleted and the field
replaced. -/
theorem parse?_rewritable_members : ∃ source file field method,
    source = "class A:\n x = 'é'\n def f(self):\n  pass\n".toList ∧
    python.parse? source "a.py" = some file ∧ file.root.nodes[2]? = some field ∧
    file.root.nodes[3]? = some method ∧
    Change.validate true source
      [Change.deleteNode method, Change.replaceNode field "y = 2"] = [] ∧
    ∃ ordered output, ordered.Perm [⟨method, none⟩, ⟨field, some "y = 2"⟩] ∧
      Rewrites 0 ordered source output ∧
      Change.carryOut? true source
        [Change.deleteNode method, Change.replaceNode field "y = 2"] =
          some (.applied output 2) := by
  have nodes : (python.parse? "class A:\n x = 'é'\n def f(self):\n  pass\n".toList "a.py").map
      (fun file => file.root.nodes.map fun n => (n.id, n.descendants.map Node.id)) =
      some [(4, [3, 1, 2]), (3, [1, 2]), (1, []), (2, [])] := by decide +kernel
  obtain ⟨file, parsed, same⟩ := Option.map_eq_some_iff.mp nodes
  obtain ⟨root, class', field, method, hnodes⟩ : ∃ a b c d, file.root.nodes = [a, b, c, d] :=
    List.length_eq_four.mp (by simpa using congrArg List.length same)
  simp only [hnodes, List.map_cons, List.map_nil, List.cons.injEq, Prod.mk.injEq,
    List.map_eq_nil_iff, and_true] at same
  obtain ⟨-, -, ⟨fieldId, fieldLeaf⟩, methodId, methodLeaf⟩ := same
  have unrelated : method.Unrelated field := by
    refine ⟨fun same => ?_, by simp [fieldLeaf], by simp [methodLeaf]⟩
    rw [same, fieldId] at methodId
    exact absurd methodId (by decide)
  refine ⟨_, file, field, method, rfl, parsed, by simp [hnodes], by simp [hnodes], ?_⟩
  exact parse?_rewritable (.inr rfl) parsed [⟨method, none⟩, ⟨field, some "y = 2"⟩]
    (by simp [hnodes]) (by simpa using unrelated) (by simp)

end Language

end SourceTree
