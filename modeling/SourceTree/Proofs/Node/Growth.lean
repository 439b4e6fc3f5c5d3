import SourceTree.LineIndex
import SourceTree.Node.Walk
import SourceTree.Proofs.Metadata

/-!
How a tree grows from its leaves up. Nodes are numbered as they are made, so the children of a node
are numbered before the node itself and the numbers ascend when each node is listed behind its
children. Numbers may be left out: whatever was made and thrown away keeps its own. What a node that
was made says of itself is a table in ascending order of its keys.
-/

namespace SourceTree

variable {source : Text} {i i' j : Nat} {n : Node} {ns ms : List Node}

namespace Node

mutual

/-- All nodes, each behind its children. -/
def postOrder : Node → List Node
  | n@⟨_, _, _, _, children, _, _, _⟩ => postOrderAll children ++ [n]

def postOrderAll : List Node → List Node
  | [] => []
  | n :: ns => postOrder n ++ postOrderAll ns

end

theorem postOrder_eq (n : Node) : n.postOrder = postOrderAll n.children ++ [n] := by
  cases n
  rw [postOrder]

theorem postOrderAll_append (ns ms : List Node) :
    postOrderAll (ns ++ ms) = postOrderAll ns ++ postOrderAll ms := by
  induction ns with
  | nil => rfl
  | cons n ns ih => rw [List.cons_append, postOrderAll, postOrderAll, ih, List.append_assoc]

theorem walkFrom_all (parent : Option Node) (depth : Nat) (n : Node) :
    walkFrom (fun _ => false) parent depth n =
      ⟨n, parent, depth⟩ :: walkAll (fun _ => false) n (depth + 1) n.children := by
  cases n
  rw [walkFrom]
  rfl

mutual

theorem postOrder_perm_walkFrom (parent : Option Node) (depth : Nat) : (n : Node) →
    n.postOrder.Perm ((walkFrom (fun _ => false) parent depth n).map Visit.node)
  | ⟨id, kind, name, location, children, up, text, metadata⟩ => by
    rw [postOrder_eq, walkFrom_all, List.map_cons]
    have below := postOrderAll_perm_walkAll
      ⟨id, kind, name, location, children, up, text, metadata⟩ (depth + 1) children
    exact (below.append_right _).trans (List.perm_append_singleton _ _)

theorem postOrderAll_perm_walkAll (parent : Node) (depth : Nat) : (ns : List Node) →
    (postOrderAll ns).Perm ((walkAll (fun _ => false) parent depth ns).map Visit.node)
  | [] => .refl _
  | n :: ns => by
    rw [postOrderAll, walkAll, List.map_append]
    exact (postOrder_perm_walkFrom (some parent) depth n).append
      (postOrderAll_perm_walkAll parent depth ns)

end

/-- Both orders list the same nodes. -/
theorem postOrder_perm_nodes (root : Node) : root.postOrder.Perm root.nodes :=
  postOrder_perm_walkFrom none 0 root

/-- The text of the node is the piece of the source between its two indices, and its lines and
columns are those of the indices. -/
structure Quotes (source : Text) (n : Node) : Prop where
  text : ∃ t, Text.slice? source n.location.startIndex n.location.endIndex = some t ∧
    n.text = some (String.ofList t)
  start : (LineIndex.ofText source).position n.location.startIndex =
    (n.location.startLine, n.location.startColumn)
  stop : (LineIndex.ofText source).position n.location.endIndex =
    (n.location.endLine, n.location.endColumn)

theorem Quotes.adopted (h : n.Quotes source) (id : NodeId) : (n.adoptedBy id).Quotes source :=
  ⟨h.text, h.start, h.stop⟩

end Node

open Node

/-- Trees that grew one behind the other on a source, while the count of numbers went from the first
to the second. Every node below them is linked to the one that holds it, and the keys of what is
said about a node ascend. -/
inductive Grown (source : Text) : Nat → Nat → List Node → Prop where
  | nil {i j : Nat} : i ≤ j → Grown source i j []
  | cons {i k j : Nat} {n : Node} {ns : List Node} : Grown source i k n.children → k < n.id →
      n.Quotes source → (∀ c ∈ n.children, c.parent = some n.id) → Grown source n.id j ns →
      n.metadata.Ascending → Grown source i j (n :: ns)

namespace Grown

theorem le (h : Grown source i j ns) : i ≤ j := by
  induction h with
  | nil le => exact le
  | cons _ lt _ _ _ _ ih ih' => omega

theorem since (h : Grown source i j ns) (le : i' ≤ i) : Grown source i' j ns := by
  induction h with
  | nil le' => exact .nil (by omega)
  | cons _ lt quotes linked later ordered ih _ =>
    exact .cons (ih le) lt quotes linked later ordered

theorem append {k : Nat} (h : Grown source i k ns) (h' : Grown source k j ms) :
    Grown source i j (ns ++ ms) := by
  induction h with
  | nil le => exact h'.since le
  | cons below lt quotes linked _ ordered _ ih =>
    exact .cons below lt quotes linked (ih h') ordered

/-- Linking trees to a node changes nothing inside them. -/
theorem adopted (h : Grown source i j ns) (id : NodeId) :
    Grown source i j (ns.map (·.adoptedBy id)) := by
  induction h with
  | nil le => exact .nil le
  | cons below lt quotes linked _ ordered _ ih =>
    exact .cons below lt (quotes.adopted id) linked ih ordered

/-- A node that is made of trees which have grown before it. -/
theorem graft (below : Grown source i j n.children) (lt : j < n.id) (quotes : n.Quotes source)
    (linked : ∀ c ∈ n.children, c.parent = some n.id) (ordered : n.metadata.Ascending) :
    Grown source i n.id [n] :=
  .cons below lt quotes linked (.nil (Nat.le_refl _)) ordered

/-- A walk through the trees meets nodes that quote the source and are linked to the node through
which the walk came. -/
theorem visits {parent : Node} (h : Grown source i j ns)
    (linked : ∀ n ∈ ns, n.parent = some parent.id) (depth : Nat) :
    ∀ v ∈ walkAll (fun _ => false) parent depth ns,
      v.node.Quotes source ∧ v.node.parent = v.parent.map Node.id := by
  induction h generalizing parent depth with
  | nil => simp [walkAll]
  | @cons i k j n ns below lt quotes linked' later _ ih ih' =>
    intro v hv
    rw [walkAll, walkFrom_all, List.cons_append, List.mem_cons, List.mem_append] at hv
    rcases hv with rfl | hv | hv
    · exact ⟨quotes, linked n (by simp)⟩
    · exact ih linked' (depth + 1) v hv
    · exact ih' (fun m hm => linked m (by simp [hm])) depth v hv

/-- Every node quotes the source, and what is said about it has ascending keys. -/
theorem each (h : Grown source i j ns) :
    ∀ n ∈ postOrderAll ns, n.Quotes source ∧ n.metadata.Ascending := by
  induction h with
  | nil => simp [postOrderAll]
  | @cons i k j n ns _ _ quotes _ _ ordered ih ih' =>
    intro m hm
    rw [postOrderAll, postOrder_eq, List.mem_append, List.mem_append, List.mem_singleton] at hm
    rcases hm with (hm | rfl) | hm
    · exact ih m hm
    · exact ⟨quotes, ordered⟩
    · exact ih' m hm

theorem ids (h : Grown source i j ns) : ∀ n ∈ postOrderAll ns, i < n.id ∧ n.id ≤ j := by
  induction h with
  | nil => simp [postOrderAll]
  | @cons i k j n ns below lt _ _ later _ ih ih' =>
    intro m hm
    have first := below.le
    have last := later.le
    rw [postOrderAll, postOrder_eq, List.mem_append, List.mem_append, List.mem_singleton] at hm
    rcases hm with (hm | rfl) | hm
    · obtain ⟨lower, upper⟩ := ih m hm
      exact ⟨lower, Nat.le_trans upper (Nat.le_trans (Nat.le_of_lt lt) last)⟩
    · exact ⟨Nat.lt_of_le_of_lt first lt, last⟩
    · obtain ⟨lower, upper⟩ := ih' m hm
      exact ⟨Nat.lt_trans (Nat.lt_of_le_of_lt first lt) lower, upper⟩

theorem ascending (h : Grown source i j ns) :
    (postOrderAll ns).Pairwise fun a b => a.id < b.id := by
  induction h with
  | nil => exact .nil
  | @cons i k j n ns below lt _ _ later _ ih ih' =>
    rw [postOrderAll, postOrder_eq, List.append_assoc]
    refine List.pairwise_append.mpr ⟨ih, ?_, ?_⟩
    · exact List.pairwise_cons.mpr ⟨fun m hm => (later.ids m hm).1, ih'⟩
    · intro a ha b hb
      have before : a.id < n.id := Nat.lt_of_le_of_lt (below.ids a ha).2 lt
      rcases List.mem_cons.mp hb with rfl | hb
      · exact before
      · exact Nat.lt_trans before (later.ids b hb).1

end Grown

end SourceTree
