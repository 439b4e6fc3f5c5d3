import Mathlib.Data.List.Pairwise
import SourceTree.Proofs.Node.Growth

/-!
Trees whose nodes lie inside each other. When the children of every node lie inside it and follow
each other, any two nodes of the tree lie apart unless one contains the other.
-/

namespace SourceTree.Node

variable {root n m a b : Node} {ns : List Node}

/-- What holds of a node whenever it holds of its children holds of every node. -/
theorem induct {motive : Node → Prop} (step : ∀ n, (∀ c ∈ n.children, motive c) → motive n)
    (n : Node) : motive n := by
  apply step
  intro c hc
  have smaller : sizeOf c < sizeOf n := by
    have below := List.sizeOf_lt_of_mem hc
    cases n
    simp only [mk.sizeOf_spec] at below ⊢
    omega
  exact induct step c
termination_by sizeOf n

theorem mem_postOrderAll : m ∈ postOrderAll ns ↔ ∃ n ∈ ns, m ∈ n.nodes := by
  induction ns with
  | nil => simp [postOrderAll]
  | cons n ns ih =>
    rw [postOrderAll, List.mem_append, ih, n.postOrder_perm_nodes.mem_iff]
    simp

/-- A node of a tree is its root or a node below one of its children. -/
theorem mem_nodes_iff : m ∈ n.nodes ↔ m = n ∨ ∃ c ∈ n.children, m ∈ c.nodes := by
  rw [← n.postOrder_perm_nodes.mem_iff, postOrder_eq, List.mem_append, mem_postOrderAll,
    List.mem_singleton, or_comm]

theorem self_mem_nodes (n : Node) : n ∈ n.nodes := mem_nodes_iff.mpr (.inl rfl)

theorem mem_nodes_trans (hb : b ∈ root.nodes) (ha : a ∈ b.nodes) : a ∈ root.nodes := by
  induction root using induct with
  | step root ih =>
    rcases mem_nodes_iff.mp hb with rfl | ⟨c, hc, hb⟩
    · exact ha
    · exact mem_nodes_iff.mpr (.inr ⟨c, hc, ih c hc hb⟩)

theorem nodes_eq_cons (n : Node) : n.nodes = n :: n.descendants := by
  rw [descendants, nodes, visits, walk, walkFrom_all]
  rfl

/-- The two nodes are different and neither is below the other. -/
def Unrelated (a b : Node) : Prop := a ≠ b ∧ a ∉ b.descendants ∧ b ∉ a.descendants

theorem Unrelated.not_mem_nodes (h : Unrelated a b) : a ∉ b.nodes ∧ b ∉ a.nodes := by
  obtain ⟨ne, notBelow, notAbove⟩ := h
  rw [nodes_eq_cons, nodes_eq_cons, List.mem_cons, List.mem_cons]
  exact ⟨fun h => h.elim ne notBelow, fun h => h.elim ne.symm notAbove⟩

/-- One of the two nodes ends before the other begins. -/
def Apart (a b : Node) : Prop :=
  a.location.endIndex ≤ b.location.startIndex ∨ b.location.endIndex ≤ a.location.startIndex

theorem Apart.symm (h : Apart a b) : Apart b a := Or.symm h

/-- The children of the node lie inside it and follow each other. -/
structure Nested (n : Node) : Prop where
  inside : ∀ c ∈ n.children, n.location.startIndex ≤ c.location.startIndex ∧
    c.location.endIndex ≤ n.location.endIndex
  ordered : n.children.Pairwise fun a b => a.location.endIndex ≤ b.location.startIndex

theorem Nested.of_leaf (leaf : n.children = []) : Nested n := by
  constructor <;> simp [leaf]

theorem Nested.apart (h : Nested n) (ha : a ∈ n.children) (hb : b ∈ n.children) (ne : a ≠ b) :
    Apart a b := by
  have either : n.children.Pairwise Apart := h.ordered.imp Or.inl
  have : Std.Symm Apart := ⟨fun _ _ => Apart.symm⟩
  exact either.forall ha hb ne

/-- Where the children of every node lie inside it, every node of a tree lies inside its root. -/
theorem within_of_inside (inside : ∀ m ∈ root.nodes, ∀ c ∈ m.children,
      m.location.startIndex ≤ c.location.startIndex ∧ c.location.endIndex ≤ m.location.endIndex)
    (hm : m ∈ root.nodes) :
    root.location.startIndex ≤ m.location.startIndex ∧
      m.location.endIndex ≤ root.location.endIndex := by
  induction root using induct with
  | step root ih =>
    rcases mem_nodes_iff.mp hm with rfl | ⟨c, hc, hm⟩
    · exact ⟨Nat.le_refl _, Nat.le_refl _⟩
    · have inner := ih c hc (fun m hm => inside m (mem_nodes_iff.mpr (.inr ⟨c, hc, hm⟩))) hm
      have outer := inside root root.self_mem_nodes c hc
      omega

theorem within_of_nested (nested : ∀ m ∈ root.nodes, Nested m) (hm : m ∈ root.nodes) :
    root.location.startIndex ≤ m.location.startIndex ∧
      m.location.endIndex ≤ root.location.endIndex :=
  within_of_inside (fun m hm => (nested m hm).inside) hm

/-- Two nodes of a tree neither of which contains the other lie apart. -/
theorem apart_of_nested (nested : ∀ m ∈ root.nodes, Nested m) (ha : a ∈ root.nodes)
    (hb : b ∈ root.nodes) (unrelated : Unrelated a b) : Apart a b := by
  obtain ⟨notBelow, notAbove⟩ := unrelated.not_mem_nodes
  induction root using induct with
  | step root ih =>
    rcases mem_nodes_iff.mp ha with rfl | ⟨c, hc, hac⟩
    · exact absurd hb notAbove
    rcases mem_nodes_iff.mp hb with rfl | ⟨d, hd, hbd⟩
    · exact absurd ha notBelow
    have below {c : Node} (hc : c ∈ root.children) : ∀ m ∈ c.nodes, Nested m := fun m hm =>
      nested m (mem_nodes_iff.mpr (.inr ⟨c, hc, hm⟩))
    by_cases same : c = d
    · subst same
      exact ih c hc (below hc) hac hbd
    · -- Below two children the nodes are as far apart as the children are.
      have first := within_of_nested (below hc) hac
      have second := within_of_nested (below hd) hbd
      have apart := (nested root root.self_mem_nodes).apart hc hd same
      simp only [Apart] at apart ⊢
      omega

/-- What the first node holds ends before the second node begins. -/
def Seals (a b : Node) : Prop := ∀ c ∈ a.children, c.location.endIndex < b.location.startIndex

/-- The children of the node lie inside it, and what is below one of them ends before a later one
begins. -/
structure Sealed (n : Node) : Prop where
  inside : ∀ c ∈ n.children, n.location.startIndex ≤ c.location.startIndex ∧
    c.location.endIndex ≤ n.location.endIndex
  seals : n.children.Pairwise Seals

theorem Seals.of_leaf (leaf : a.children = []) (b : Node) : Seals a b := by simp [Seals, leaf]

theorem Sealed.of_leaf (leaf : n.children = []) : Sealed n := by
  constructor <;> simp [leaf]

end SourceTree.Node
