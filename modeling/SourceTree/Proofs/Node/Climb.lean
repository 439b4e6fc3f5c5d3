import Mathlib.Data.List.Nodup
import Mathlib.Data.List.Perm.Subperm
import Mathlib.Logic.Relation
import SourceTree.Codec.Node
import SourceTree.Node.Index
import SourceTree.Proofs.Node.Levels

/-!
Following parents by id. An index knows one node and one parent for each id, those of the last visit.
Where a node bears the id of a node above it, the way up can lead back to where it began and has no
end; where none does, every step leads to an id that is listed later when nodes are listed behind
their children, so the way up ends. Main statement: `ancestors?_ends`.
-/

namespace SourceTree

namespace NodeIndex

variable {index : NodeIndex} {id : NodeId} {above above' : List Node} {fuel : Nat}

/-- The way up from an id to one that has no parent, with the parents on it. -/
inductive Climb (index : NodeIndex) : NodeId → List Node → Prop where
  | stop {id : NodeId} : index.parentOf? id = none → Climb index id []
  | step {id : NodeId} {p : Node} {above : List Node} : index.parentOf? id = some p →
      Climb index p.id above → Climb index id (p :: above)

theorem Climb.unique (h : Climb index id above) (h' : Climb index id above') : above = above' := by
  induction h generalizing above' with
  | stop none =>
    cases h' with
    | stop => rfl
    | step some => simp [none] at some
  | step some _ ih =>
    cases h' with
    | stop none => simp [none] at some
    | step some' rest =>
      obtain rfl := Option.some.inj (some.symm.trans some')
      rw [ih rest]

/-- From everything on the way up the way on is shorter. -/
theorem Climb.further (h : Climb index id above) {x : NodeId} (hx : x ∈ above.map Node.id) :
    ∃ rest, Climb index x rest ∧ rest.length < above.length := by
  induction h with
  | stop => simp at hx
  | @step id p above _ climb ih =>
    rcases List.mem_cons.mp hx with rfl | hx
    · exact ⟨above, climb, Nat.lt_succ_self _⟩
    · obtain ⟨rest, climb, lt⟩ := ih hx
      exact ⟨rest, climb, Nat.lt_succ_of_lt lt⟩

/-- The way up meets no id twice: it is determined by where it begins, and it has one length. -/
theorem Climb.nodup (h : Climb index id above) : (id :: above.map Node.id).Nodup := by
  induction h with
  | stop => simp
  | @step id p above some climb ih =>
    refine List.nodup_cons.mpr ⟨fun again => ?_, ih⟩
    have whole : Climb index id (p :: above) := .step some climb
    obtain ⟨rest, climb', lt⟩ := whole.further again
    rw [whole.unique climb'] at lt
    exact Nat.lt_irrefl _ lt

/-- One step of the way up. -/
def Up (index : NodeIndex) (id id' : NodeId) : Prop := ∃ p, index.parentOf? id = some p ∧ p.id = id'

theorem Up.recorded {id' : NodeId} (h : Up index id id') : id ∈ index.parents.map Prod.fst := by
  obtain ⟨p, found, -⟩ := h
  obtain ⟨parent, found, -⟩ := Option.bind_eq_some_iff.mp found
  obtain ⟨front, back, split, -⟩ := List.lookup_eq_some_iff.mp found
  simp [split]

/-- Every id that a step leaves has a recorded parent. -/
theorem recorded_of_isChain {ids : List NodeId} (chain : (id :: ids).IsChain (Up index)) :
    (id :: ids).dropLast ⊆ index.parents.map Prod.fst := by
  induction ids generalizing id with
  | nil => simp
  | cons x ids ih =>
    obtain ⟨up, chain⟩ := List.isChain_cons_cons.mp chain
    rw [List.dropLast_cons_cons]
    exact List.cons_subset.mpr ⟨up.recorded, ih chain⟩

theorem length_le_of_isChain {ids : List NodeId} (chain : (id :: ids).IsChain (Up index))
    (distinct : (id :: ids).Nodup) : ids.length ≤ index.parents.length := by
  have some : (id :: ids).dropLast.Nodup := distinct.sublist (List.dropLast_sublist _)
  have le := (some.subperm (recorded_of_isChain chain)).length_le
  simpa using le

theorem Climb.isChain (h : Climb index id above) :
    (id :: above.map Node.id).IsChain (Up index) := by
  induction h with
  | stop => exact .singleton _
  | step found _ ih => exact List.isChain_cons_cons.mpr ⟨⟨_, found, rfl⟩, ih⟩

theorem Climb.length_le (h : Climb index id above) : above.length ≤ index.parents.length := by
  simpa using length_le_of_isChain h.isChain h.nodup

theorem ancestorsWithin_eq_some_iff :
    index.ancestorsWithin fuel id = some above ↔ Climb index id above ∧ above.length ≤ fuel := by
  induction fuel generalizing id above with
  | zero =>
    rw [ancestorsWithin]
    constructor
    · intro h
      split at h
      next none =>
        obtain rfl := Option.some.inj h
        exact ⟨.stop (Option.isNone_iff_eq_none.mp none), Nat.le_refl 0⟩
      next => cases h
    · rintro ⟨climb, empty⟩
      obtain rfl := List.eq_nil_of_length_eq_zero (Nat.le_zero.mp empty)
      cases climb with
      | stop none => rw [if_pos (Option.isNone_iff_eq_none.mpr none)]
  | succ fuel ih =>
    rw [ancestorsWithin]
    cases found : index.parentOf? id with
    | none =>
      constructor
      · intro h
        obtain rfl := Option.some.inj h
        exact ⟨.stop found, Nat.zero_le _⟩
      · rintro ⟨climb, -⟩
        rw [climb.unique (.stop found)]
    | some p =>
      simp only [Option.map_eq_some_iff, ih]
      constructor
      · rintro ⟨rest, ⟨climb, le⟩, rfl⟩
        exact ⟨.step found climb, Nat.succ_le_succ le⟩
      · rintro ⟨climb, le⟩
        cases climb with
        | stop none => simp [none] at found
        | step found' climb =>
          obtain rfl := Option.some.inj (found.symm.trans found')
          exact ⟨_, ⟨climb, Nat.le_of_succ_le_succ le⟩, rfl⟩

/-- The number of recorded parents is enough for every way up that has an end. -/
theorem ancestors?_eq_some_iff : index.ancestors? id = some above ↔ Climb index id above := by
  rw [ancestors?, ancestorsWithin_eq_some_iff]
  exact ⟨And.left, fun climb => ⟨climb, climb.length_le⟩⟩

theorem ancestors?_eq_none_iff : index.ancestors? id = none ↔ ∀ above, ¬Climb index id above := by
  rw [Option.eq_none_iff_forall_ne_some]
  exact forall_congr' fun above => not_congr ancestors?_eq_some_iff

/-! ### Ways up without an end -/

theorem Climb.of_reflTransGen {id' : NodeId} (climb : Climb index id above)
    (h : Relation.ReflTransGen (Up index) id id') : ∃ rest, Climb index id' rest := by
  induction h with
  | refl => exact ⟨above, climb⟩
  | tail _ up ih =>
    obtain ⟨rest, climb⟩ := ih
    obtain ⟨p, found, rfl⟩ := up
    cases climb with
    | stop none => simp [none] at found
    | step found' climb =>
      obtain rfl := Option.some.inj (found.symm.trans found')
      exact ⟨_, climb⟩

theorem Climb.lt_of_transGen {id' : NodeId} {rest : List Node} (climb : Climb index id above)
    (h : Relation.TransGen (Up index) id id') (climb' : Climb index id' rest) :
    rest.length < above.length := by
  induction climb with
  | stop none =>
    obtain ⟨next, ⟨p, found, -⟩, -⟩ := Relation.TransGen.head'_iff.mp h
    simp [none] at found
  | step found climb ih =>
    obtain ⟨next, ⟨p, found', rfl⟩, onward⟩ := Relation.TransGen.head'_iff.mp h
    obtain rfl := Option.some.inj (found.symm.trans found')
    refine Nat.lt_succ_of_le ?_
    rcases Relation.reflTransGen_iff_eq_or_transGen.mp onward with rfl | onward
    · rw [climb'.unique climb]
    · exact Nat.le_of_lt (ih onward)

/-- Where the fuel does not do, there are as many steps as it allows and one more. -/
theorem exists_chain_of_ancestorsWithin (h : index.ancestorsWithin fuel id = none) :
    ∃ ids : List NodeId, ids.length = fuel + 1 ∧ (id :: ids).IsChain (Up index) := by
  induction fuel generalizing id with
  | zero =>
    rw [ancestorsWithin] at h
    cases found : index.parentOf? id with
    | none => simp [found] at h
    | some p => exact ⟨[p.id], rfl, by simpa using ⟨p, found, rfl⟩⟩
  | succ fuel ih =>
    rw [ancestorsWithin] at h
    cases found : index.parentOf? id with
    | none => simp [found] at h
    | some p =>
      have rest : index.ancestorsWithin fuel p.id = none := by simpa [found] using h
      obtain ⟨ids, length, chain⟩ := ih rest
      exact ⟨p.id :: ids, by simp [length], List.isChain_cons_cons.mpr ⟨⟨p, found, rfl⟩, chain⟩⟩

/-- The way up has no end exactly if it comes to an id that leads up to itself. There are more steps
than recorded parents, so two of them begin at the same id. -/
theorem ancestors?_eq_none_iff_circle : index.ancestors? id = none ↔
    ∃ x, Relation.ReflTransGen (Up index) id x ∧ Relation.TransGen (Up index) x x := by
  constructor
  · intro endless
    obtain ⟨ids, length, chain⟩ := exists_chain_of_ancestorsWithin endless
    have onward : (id :: ids).Pairwise (Relation.TransGen (Up index)) :=
      (chain.imp fun _ _ => Relation.TransGen.single).pairwise
    have twice : ¬(id :: ids).Nodup := by
      intro distinct
      have le := length_le_of_isChain chain distinct
      omega
    simp only [List.nodup_iff_sublist, not_forall, not_not] at twice
    obtain ⟨x, twice⟩ := twice
    have circle : Relation.TransGen (Up index) x x := by simpa using onward.sublist twice
    refine ⟨x, ?_, circle⟩
    rcases List.mem_cons.mp (twice.subset (List.mem_cons_self ..)) with rfl | later
    · exact .refl
    · exact ((List.pairwise_cons.mp onward).1 x later).to_reflTransGen
  · rintro ⟨x, up, circle⟩
    rw [ancestors?_eq_none_iff]
    intro above climb
    obtain ⟨rest, climb⟩ := climb.of_reflTransGen up
    exact Nat.lt_irrefl _ (climb.lt_of_transGen circle climb)

end NodeIndex

namespace Node

open NodeIndex (Climb)

variable {root n : Node} {id q : NodeId} {depth : Nat}

/-! ### Nodes below a node -/

theorem nodes_walkFrom (parent : Option Node) (depth : Nat) (n : Node) :
    (walkFrom (fun _ => false) parent depth n).map Visit.node = n.nodes := by
  induction n using induct generalizing parent depth with
  | step n ih =>
    rw [nodes, visits, walk, walkFrom_all, walkFrom_all, walkAll_eq_flatMap, walkAll_eq_flatMap]
    simp only [List.map_cons, List.map_flatMap]
    congr 1
    exact List.flatMap_congr fun c hc => (ih c hc _ _).trans (ih c hc _ _).symm

theorem descendants_eq (n : Node) : n.descendants = n.children.flatMap nodes := by
  rw [descendants, nodes, visits, walk, walkFrom_all, walkAll_eq_flatMap, List.map_cons,
    List.drop_one, List.tail_cons, List.map_flatMap]
  exact List.flatMap_congr fun c _ => nodes_walkFrom _ _ c

/-! ### The way up in a tree -/

/-- No node bears the id of a node above it. -/
def Unrepeated (root : Node) : Prop := ∀ m ∈ root.nodes, ∀ x ∈ m.descendants, x.id ≠ m.id

/-- The parents that some visits record, by id. -/
def links (vs : List Visit) : List (NodeId × NodeId) :=
  vs.filterMap fun v => v.parent.map fun p => (v.node.id, p.id)

theorem parents_ofRoot (root : Node) : (NodeIndex.ofRoot root).parents = (links root.visits).reverse :=
  rfl

theorem links_walkFrom (p n : Node) (depth : Nat) :
    links (walkFrom (fun _ => false) (some p) depth n) =
      (n.id, p.id) :: links (walkAll (fun _ => false) n (depth + 1) n.children) := by
  rw [walkFrom_all]
  rfl

theorem links_walkAll (p : Node) (depth : Nat) (ns : List Node) :
    links (walkAll (fun _ => false) p depth ns) =
      ns.flatMap fun n => links (walkFrom (fun _ => false) (some p) depth n) := by
  rw [walkAll_eq_flatMap, links, List.filterMap_flatMap]
  rfl

/-- Below a node every visit records a parent. -/
theorem keys_links (p n : Node) (depth : Nat) :
    (links (walkFrom (fun _ => false) (some p) depth n)).map Prod.fst = n.nodes.map Node.id := by
  induction n using induct generalizing p depth with
  | step n ih =>
    rw [links_walkFrom, links_walkAll, nodes_eq_cons, descendants_eq, List.map_cons, List.map_cons,
      List.map_flatMap, List.map_flatMap]
    congr 1
    exact List.flatMap_congr fun c hc => ih c hc n (depth + 1)

/-- A piece of a list that is made of lists lies in one of them. -/
theorem split_of_flatMap {α β : Type} {f : α → List β} {xs : List α} {front back : List β} {y : β}
    (h : xs.flatMap f = front ++ y :: back) : ∃ before x after front' back',
      xs = before ++ x :: after ∧ f x = front' ++ y :: back' ∧ back = back' ++ after.flatMap f := by
  induction xs generalizing front with
  | nil => simp at h
  | cons x xs ih =>
    rw [List.flatMap_cons] at h
    rcases List.append_eq_append_iff.mp h with ⟨more, -, later⟩ | ⟨more, here, hm⟩
    · obtain ⟨before, z, after, front', back', rfl, hz, hb⟩ := ih later
      exact ⟨x :: before, z, after, front', back', rfl, hz, hb⟩
    · cases more with
      | nil =>
        obtain ⟨before, z, after, front', back', rfl, hz, hb⟩ := @ih [] hm.symm
        exact ⟨x :: before, z, after, front', back', rfl, hz, hb⟩
      | cons z more =>
        obtain ⟨rfl, hb⟩ := List.cons.inj hm
        exact ⟨[], x, xs, front, more, rfl, here, hb⟩

theorem Unrepeated.child {c : Node} (h : Unrepeated n) (hc : c ∈ n.children) : Unrepeated c :=
  fun m hm => h m (mem_nodes_iff.mpr (.inr ⟨c, hc, hm⟩))

/-- When nodes are listed behind their children, the last parent of an id has a place behind which
the id does not occur. -/
theorem last_link_later (unrepeated : Unrepeated n) {front back : List (NodeId × NodeId)}
    (last : links (walkAll (fun _ => false) n depth n.children) = front ++ (id, q) :: back)
    (none : id ∉ back.map Prod.fst) :
    ∃ a b, n.postOrder.map Node.id = a ++ q :: b ∧ id ∉ q :: b := by
  induction n using induct generalizing depth front back with
  | step n ih =>
    rw [links_walkAll] at last
    obtain ⟨before, c, after, front', back', children, own, rfl⟩ := split_of_flatMap last
    have hc : c ∈ n.children := by simp [children]
    have fresh : ∀ x ∈ c.nodes, x.id ≠ n.id := fun x hx =>
      unrepeated n n.self_mem_nodes x (descendants_eq n ▸ List.mem_flatMap.mpr ⟨c, hc, hx⟩)
    rw [links_walkFrom] at own
    rw [postOrder_eq, children, postOrderAll_append, postOrderAll]
    cases front' with
    | nil =>
      obtain ⟨same, -⟩ := List.cons.inj own
      obtain ⟨rfl, rfl⟩ := Prod.mk.inj same
      exact ⟨_, [], List.map_append, by simpa using fresh c c.self_mem_nodes⟩
    | cons link front' =>
      obtain ⟨-, own⟩ := List.cons.inj own
      have own_none : id ∉ back'.map Prod.fst := fun mem => none (by simp [mem])
      obtain ⟨a, b, listed, other⟩ := ih c hc (unrepeated.child hc) own own_none
      -- The id occurs below `c`, so it is none of those behind `c` and not that of `n`.
      have behind : id ∉ (postOrderAll after).map Node.id := by
        intro mem
        obtain ⟨x, hx, rfl⟩ := List.mem_map.mp mem
        obtain ⟨d, hd, hx⟩ := mem_postOrderAll.mp hx
        apply none
        rw [List.map_append, List.mem_append, List.map_flatMap, List.mem_flatMap]
        exact .inr ⟨d, hd, keys_links n d depth ▸ List.mem_map_of_mem hx⟩
      have top : id ≠ n.id := by
        have key : id ∈ (links (walkFrom (fun _ => false) (some n) depth c)).map Prod.fst := by
          simp [links_walkFrom, own]
        rw [keys_links] at key
        obtain ⟨x, hx, rfl⟩ := List.mem_map.mp key
        exact fresh x hx
      refine ⟨(postOrderAll before).map Node.id ++ a,
        b ++ (postOrderAll after).map Node.id ++ [n.id], ?_, ?_⟩
      · simp [listed]
      · simp only [List.mem_cons, not_or] at other
        simp [other.1, other.2, behind, top]

theorem idxOf_reverse_lt {ids a b : List NodeId} (split : ids = a ++ q :: b) (h : id ∉ q :: b) :
    ids.reverse.idxOf q < ids.reverse.idxOf id := by
  obtain ⟨ne, behind⟩ : id ≠ q ∧ id ∉ b := by simpa using h
  have later : ids.reverse.idxOf id = (q :: a.reverse).idxOf id + b.length := by
    rw [split]
    simp [List.idxOf_append, behind]
  have sooner : ids.reverse.idxOf q ≤ b.length := by
    rw [split]
    simp only [List.reverse_append, List.reverse_cons, List.append_assoc, List.idxOf_append]
    split
    next mem =>
      have lt := List.idxOf_lt_length_of_mem mem
      simpa using Nat.le_of_lt lt
    next => simp
  have pos : 0 < (q :: a.reverse).idxOf id := by
    rw [List.idxOf_cons_ne _ (Ne.symm ne)]
    exact Nat.succ_pos _
  omega

theorem mem_of_get? {p : Node} (h : (NodeIndex.ofRoot root).get? q = some p) :
    p ∈ root.nodes ∧ p.id = q := by
  obtain ⟨front, back, split, -⟩ := List.lookup_eq_some_iff.mp h
  have mem : (q, p) ∈ (NodeIndex.ofRoot root).nodes := by simp [split]
  simp only [NodeIndex.ofRoot, List.mem_reverse, List.mem_map, Prod.mk.injEq] at mem
  obtain ⟨v, hv, rfl, rfl⟩ := mem
  exact ⟨List.mem_map_of_mem hv, rfl⟩

theorem Unrepeated.rises (h : Unrepeated root) {p : Node}
    (found : (NodeIndex.ofRoot root).parentOf? id = some p) :
    (root.postOrder.map Node.id).reverse.idxOf p.id <
      (root.postOrder.map Node.id).reverse.idxOf id := by
  obtain ⟨q, link, parent⟩ := Option.bind_eq_some_iff.mp found
  obtain ⟨-, rfl⟩ := mem_of_get? parent
  obtain ⟨front, back, split, none⟩ := List.lookup_eq_some_iff.mp link
  have last : links (walkAll (fun _ => false) root 1 root.children) =
      back.reverse ++ (id, p.id) :: front.reverse := by
    have all : links root.visits = links (walkAll (fun _ => false) root 1 root.children) := by
      rw [visits, walk, walkFrom_all]
      rfl
    rw [← all, ← List.reverse_reverse (links root.visits), ← parents_ofRoot, split]
    simp
  have behind : id ∉ front.reverse.map Prod.fst := by
    simp only [List.mem_map, List.mem_reverse, not_exists, not_and]
    intro x hx same
    simpa [same] using none x hx
  obtain ⟨a, b, listed, other⟩ := last_link_later h last behind
  exact idxOf_reverse_lt listed other

theorem Unrepeated.exists_climb (h : Unrepeated root) (id : NodeId) :
    ∃ above, Climb (NodeIndex.ofRoot root) id above := by
  generalize rank : (root.postOrder.map Node.id).reverse.idxOf id = n
  induction n using Nat.strongRecOn generalizing id with
  | ind n ih =>
    cases found : (NodeIndex.ofRoot root).parentOf? id with
    | none => exact ⟨[], .stop found⟩
    | some p =>
      obtain ⟨above, climb⟩ := ih _ (rank ▸ h.rises found) p.id rfl
      exact ⟨p :: above, .step found climb⟩

/-! ### Queries by id -/

theorem get?_eq_none_iff : (NodeIndex.ofRoot root).get? id = none ↔ ∀ n ∈ root.nodes, n.id ≠ id := by
  rw [NodeIndex.get?, List.lookup_eq_none_iff]
  simp only [NodeIndex.ofRoot, List.mem_reverse, List.forall_mem_map, bne_iff_ne, nodes]
  exact forall₂_congr fun v _ => ne_comm

/-- Whoever is not in the tree has no parent in it. -/
theorem ancestors?_of_unknown (unknown : ∀ n ∈ root.nodes, n.id ≠ id) :
    root.ancestors? id = some [] := by
  refine NodeIndex.ancestors?_eq_some_iff.mpr (.stop ?_)
  have unrecorded : (NodeIndex.ofRoot root).parents.lookup id = none := by
    rw [List.lookup_eq_none_iff, parents_ofRoot]
    intro link hlink
    obtain ⟨v, hv, made⟩ := List.mem_filterMap.mp (List.mem_reverse.mp hlink)
    obtain ⟨p, -, rfl⟩ := Option.map_eq_some_iff.mp made
    exact bne_iff_ne.mpr (unknown v.node (List.mem_map_of_mem hv)).symm
  rw [NodeIndex.parentOf?, unrecorded, Option.bind_none]

theorem depth?_eq (root : Node) (id : NodeId) : root.depth? id =
    if ∃ n ∈ root.nodes, n.id = id then (root.ancestors? id).map fun above => some above.length
    else some none := by
  unfold depth?
  have known : (NodeIndex.ofRoot root).contains id = true ↔ ∃ n ∈ root.nodes, n.id = id := by
    rw [NodeIndex.contains, Option.isSome_iff_ne_none, ne_eq, get?_eq_none_iff]
    simp
  simp only [known]
  rfl

theorem depth?_eq_none_iff : root.depth? id = none ↔ root.ancestors? id = none := by
  rw [depth?_eq]
  split
  next => exact Option.map_eq_none_iff
  next unknown =>
    rw [ancestors?_of_unknown fun n hn same => unknown ⟨n, hn, same⟩]
    simp

theorem scopeChain?_eq_none_iff : root.scopeChain? id = none ↔ root.ancestors? id = none := by
  unfold scopeChain?
  dsimp only
  split
  next unknown =>
    rw [ancestors?_of_unknown (get?_eq_none_iff.mp unknown)]
  next => exact Option.map_eq_none_iff

/-- Following parents from an id gives the way up if that has an end, and nothing exactly if it comes
to an id that leads up to itself; the depth and the scopes around a node are there whenever the way
up has an end. It always has one where no node bears the id of a node above it. -/
theorem ancestors?_ends (root : Node) :
    (∀ id above, root.ancestors? id = some above ↔ Climb (NodeIndex.ofRoot root) id above) ∧
    (∀ id, root.ancestors? id = none ↔ ∃ x,
      Relation.ReflTransGen (NodeIndex.Up (NodeIndex.ofRoot root)) id x ∧
      Relation.TransGen (NodeIndex.Up (NodeIndex.ofRoot root)) x x) ∧
    (∀ id, (root.depth? id = none ↔ root.ancestors? id = none) ∧
      (root.scopeChain? id = none ↔ root.ancestors? id = none)) ∧
    (Unrepeated root → ∀ id, ∃ above, root.ancestors? id = some above) := by
  refine ⟨fun _ _ => NodeIndex.ancestors?_eq_some_iff,
    fun _ => NodeIndex.ancestors?_eq_none_iff_circle,
    fun _ => ⟨depth?_eq_none_iff, scopeChain?_eq_none_iff⟩, ?_⟩
  intro unrepeated id
  obtain ⟨above, climb⟩ := unrepeated.exists_climb id
  exact ⟨above, NodeIndex.ancestors?_eq_some_iff.mpr climb⟩

/-- The ids 2 and 3 stand above each other, but in different places. -/
theorem ancestors?_ends_crossed : ∃ root : Node, root.nodes.map Node.id = [1, 2, 3, 3, 2] ∧
    Unrepeated root ∧ (∀ id, ∃ above, root.ancestors? id = some above) ∧
    (root.ancestors? 2).map (List.map Node.id) = some [3, 1] := by
  let leaf (id : NodeId) : Node := .bare id .block .zero
  let root : Node := { leaf 1 with children :=
    [{ leaf 2 with children := [leaf 3] }, { leaf 3 with children := [leaf 2] }] }
  have unrepeated : Unrepeated root := by
    unfold Unrepeated
    decide +kernel
  exact ⟨root, by decide +kernel, unrepeated, (ancestors?_ends root).2.2.2 unrepeated,
    by decide +kernel⟩

/-- A node inside one of the same id: the tree can be loaded, and the way up has no end. -/
theorem ancestors?_circular : ∃ root : Node, root.nodes.map Node.id = [1, 1] ∧
    Node.ofValue? root.toValue = some root ∧
    (∀ above, ¬Climb (NodeIndex.ofRoot root) 1 above) ∧ root.ancestors? 1 = none ∧
    root.depth? 1 = none ∧ root.scopeChain? 1 = none := by
  let root : Node := { Node.bare 1 .program .zero with children := [.bare 1 .function .zero] }
  have isNone : (root.ancestors? 1).isNone = true := by decide +kernel
  have endless : root.ancestors? 1 = none := Option.isNone_iff_eq_none.mp isNone
  exact ⟨root, by decide +kernel, by rfl, NodeIndex.ancestors?_eq_none_iff.mp endless, endless,
    depth?_eq_none_iff.mpr endless, scopeChain?_eq_none_iff.mpr endless⟩

end Node

end SourceTree
