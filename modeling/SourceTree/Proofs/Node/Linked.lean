import SourceTree.Proofs.Node.Levels

/-!
Parent links. They say nothing that the shape of a tree does not say: a tree is known by its nodes
without links, and `detached` sets the links that the shape asks for. A tree whose links are right
already is left as it is.
-/

namespace SourceTree.Node

variable {n : Node}

mutual

/-- The tree without its parent links. -/
def unlinked : Node → Node
  | ⟨id, kind, name, location, children, _, text, metadata⟩ =>
    ⟨id, kind, name, location, unlinkedAll children, none, text, metadata⟩

def unlinkedAll : List Node → List Node
  | [] => []
  | n :: ns => unlinked n :: unlinkedAll ns

end

/-- Every node of the tree is linked to the node that holds it, and the root to none. -/
def Linked (root : Node) : Prop := ∀ v ∈ root.visits, v.node.parent = v.parent.map Node.id

theorem eta (n : Node) :
    mk n.id n.kind n.name n.location n.children n.parent n.text n.metadata = n := by
  cases n
  rfl

theorem unlinkedAll_eq_map (ns : List Node) : unlinkedAll ns = ns.map unlinked := by
  induction ns with
  | nil => rfl
  | cons n ns ih => rw [unlinkedAll, ih, List.map_cons]

theorem relinkedAll_eq_map (id : NodeId) (ns : List Node) :
    relinkedAll id ns = ns.map fun n => n.relinked.adoptedBy id := by
  induction ns with
  | nil => rfl
  | cons n ns ih => rw [relinkedAll, ih, List.map_cons]

theorem unlinked_eq (n : Node) :
    n.unlinked = { n with children := n.children.map unlinked, parent := none } := by
  cases n
  rw [unlinked, unlinkedAll_eq_map]

theorem relinked_eq (n : Node) :
    n.relinked = { n with children := n.children.map fun c => c.relinked.adoptedBy n.id } := by
  cases n
  rw [relinked, relinkedAll_eq_map]

/-- Links that are missing or wrong do not matter to relinking. -/
theorem relinked_unlinked (n : Node) : n.unlinked.relinked = n.detached := by
  induction n using induct with
  | step n ih =>
    have below : ∀ c ∈ n.children,
        c.unlinked.relinked.adoptedBy n.id = c.relinked.adoptedBy n.id := by
      intro c hc
      rw [ih c hc]
      rfl
    rw [detached, relinked_eq, relinked_eq, unlinked_eq]
    simp only [List.map_map]
    congr 1
    exact List.map_congr_left below

/-- Relinking changes nothing but links. -/
theorem unlinked_detached (n : Node) : n.detached.unlinked = n.unlinked := by
  have relinked (n : Node) : n.relinked.unlinked = n.unlinked := by
    induction n using induct with
    | step n ih =>
      have below : ∀ c ∈ n.children, (c.relinked.adoptedBy n.id).unlinked = c.unlinked := by
        intro c hc
        rw [← ih c hc, unlinked_eq, unlinked_eq c.relinked]
        rfl
      rw [relinked_eq, unlinked_eq, unlinked_eq n]
      simp only [List.map_map]
      congr 1
      exact List.map_congr_left below
  rw [← relinked n, unlinked_eq, unlinked_eq n.relinked]
  rfl

/-- A walk finds links right if it finds that of the first node right and those below each child. -/
theorem linkedFrom_iff {parent : Option Node} {depth : Nat} :
    (∀ v ∈ walkFrom (fun _ => false) parent depth n, v.node.parent = v.parent.map Node.id) ↔
      n.parent = parent.map Node.id ∧ ∀ c ∈ n.children,
        ∀ v ∈ walkFrom (fun _ => false) (some n) (depth + 1) c,
          v.node.parent = v.parent.map Node.id := by
  rw [walkFrom_all, walkAll_eq_flatMap, List.forall_mem_cons]
  simp only [List.mem_flatMap]
  constructor
  · rintro ⟨here, below⟩
    exact ⟨here, fun c hc v hv => below v ⟨c, hc, hv⟩⟩
  · rintro ⟨here, below⟩
    exact ⟨here, fun v ⟨c, hc, hv⟩ => below c hc v hv⟩

theorem linkedFrom_relinked (n : Node) (parent : Option Node) (depth : Nat) :
    ∀ v ∈ walkFrom (fun _ => false) parent depth { n.relinked with parent := parent.map Node.id },
      v.node.parent = v.parent.map Node.id := by
  induction n using induct generalizing parent depth with
  | step n ih =>
    rw [linkedFrom_iff]
    refine ⟨rfl, ?_⟩
    rw [relinked_eq]
    intro c hc
    obtain ⟨child, mem, rfl⟩ := List.mem_map.mp hc
    exact ih child mem (some _) (depth + 1)

theorem linked_detached (n : Node) : Linked n.detached := linkedFrom_relinked n none 0

theorem relinked_eq_self {parent : Option Node} {depth : Nat}
    (linked : ∀ v ∈ walkFrom (fun _ => false) parent depth n,
      v.node.parent = v.parent.map Node.id) : n.relinked = n := by
  induction n using induct generalizing parent depth with
  | step n ih =>
    have each := (linkedFrom_iff.mp linked).2
    have below : ∀ c ∈ n.children, c.relinked.adoptedBy n.id = c := by
      intro c hc
      have link : c.parent = some n.id := (linkedFrom_iff.mp (each c hc)).1
      rw [ih c hc (each c hc), adoptedBy, ← link, eta]
    rw [relinked_eq, List.map_congr_left below, List.map_id', eta]

/-- Where every link is right already, relinking changes nothing at all. -/
theorem Linked.detached_eq (linked : Linked n) : n.detached = n := by
  have orphan : n.parent = none := (linkedFrom_iff.mp linked).1
  rw [detached, relinked_eq_self linked, ← orphan, eta]

end SourceTree.Node
