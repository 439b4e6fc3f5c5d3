import SourceTree.Proofs.Node.Climb

/-!
Family relations by id. Where all ids differ, what is asked about a node by its id is answered by the
trail that leads to it: the nodes above it are the trail, and its siblings are the other children of
the nearest of them. Parent links do not matter. Main statement: `queries_follow_trails`.
-/

namespace SourceTree.Node

open NodeIndex (Climb)

variable {root n m p c : Node} {above before after : List Node} {t t' : Trail} {id : NodeId}

/-! ### Trails and nodes -/

theorem visits_eq (root : Node) : root.visits = root.trails.map Trail.visit := by
  have all : root.trails.filter (Trail.isOpen fun _ => false) = root.trails :=
    List.filter_eq_self.mpr fun t _ => by simp [Trail.isOpen]
  rw [visits, walk_eq_filter_trails, all]

theorem nodes_eq (root : Node) : root.nodes = root.trails.map Trail.node := by
  rw [nodes, visits_eq, List.map_map]
  rfl

theorem Leads.node_mem (h : Leads root t) : t.node ∈ root.nodes := by
  rw [nodes_eq]
  exact List.mem_map_of_mem (mem_trails_iff.mpr h)

theorem exists_leads (hn : n ∈ root.nodes) : ∃ above, Leads root ⟨n, above⟩ := by
  rw [nodes_eq] at hn
  obtain ⟨⟨n, above⟩, mem, rfl⟩ := List.mem_map.mp hn
  exact ⟨above, mem_trails_iff.mp mem⟩

/-- All ids differ. -/
def Distinct (root : Node) : Prop := (root.nodes.map Node.id).Nodup

theorem Distinct.leads_unique (distinct : Distinct root) (h : Leads root t) (h' : Leads root t')
    (same : t.node.id = t'.node.id) : t = t' := by
  rw [Distinct, nodes_eq, List.map_map] at distinct
  exact List.inj_on_of_nodup_map distinct (mem_trails_iff.mpr h) (mem_trails_iff.mpr h') same

theorem Distinct.node_unique (distinct : Distinct root) (hn : n ∈ root.nodes) (hm : m ∈ root.nodes)
    (same : n.id = m.id) : n = m :=
  List.inj_on_of_nodup_map distinct hn hm same

theorem Leads.parent (h : Leads root ⟨n, p :: above⟩) : Leads root ⟨p, above⟩ ∧ n ∈ p.children := by
  cases h with
  | child up hn => exact ⟨up, hn⟩

/-! ### The way up -/

theorem mem_parents_iff {q : NodeId} : (id, q) ∈ (NodeIndex.ofRoot root).parents ↔
    ∃ n p above, Leads root ⟨n, p :: above⟩ ∧ n.id = id ∧ p.id = q := by
  rw [parents_ofRoot, links, List.mem_reverse, visits_eq, List.filterMap_map, List.mem_filterMap]
  constructor
  · rintro ⟨⟨n, above⟩, mem, made⟩
    cases above with
    | nil => cases made
    | cons p above =>
      obtain ⟨rfl, rfl⟩ := Prod.mk.inj (Option.some.inj made)
      exact ⟨n, p, above, mem_trails_iff.mp mem, rfl, rfl⟩
  · rintro ⟨n, p, above, leads, rfl, rfl⟩
    exact ⟨⟨n, p :: above⟩, mem_trails_iff.mpr leads, rfl⟩

theorem Distinct.get?_eq (distinct : Distinct root) (hn : n ∈ root.nodes) :
    (NodeIndex.ofRoot root).get? n.id = some n := by
  cases found : (NodeIndex.ofRoot root).get? n.id with
  | none => exact absurd rfl (get?_eq_none_iff.mp found n hn)
  | some m =>
    obtain ⟨hm, same⟩ := mem_of_get? found
    rw [distinct.node_unique hm hn same]

theorem Distinct.lookup_eq (distinct : Distinct root) (h : Leads root t) :
    (NodeIndex.ofRoot root).parents.lookup t.node.id = t.above.head?.map Node.id := by
  cases found : (NodeIndex.ofRoot root).parents.lookup t.node.id with
  | some q =>
    obtain ⟨front, back, split, -⟩ := List.lookup_eq_some_iff.mp found
    have mem : (t.node.id, q) ∈ (NodeIndex.ofRoot root).parents := by simp [split]
    obtain ⟨n, p, above, leads, same, rfl⟩ := mem_parents_iff.mp mem
    rw [← distinct.leads_unique leads h same]
    rfl
  | none =>
    obtain ⟨n, above⟩ := t
    cases above with
    | nil => rfl
    | cons p above =>
      have mem := mem_parents_iff.mpr ⟨n, p, above, h, rfl, rfl⟩
      simpa using List.lookup_eq_none_iff.mp found _ mem

theorem Distinct.parentOf?_eq (distinct : Distinct root) (h : Leads root t) :
    (NodeIndex.ofRoot root).parentOf? t.node.id = t.above.head? := by
  obtain ⟨n, above⟩ := t
  rw [NodeIndex.parentOf?, distinct.lookup_eq h]
  cases above with
  | nil => rfl
  | cons p above => exact distinct.get?_eq h.parent.1.node_mem

/-- The way up from a node is its trail. -/
theorem Distinct.climb (distinct : Distinct root) (h : Leads root t) :
    Climb (NodeIndex.ofRoot root) t.node.id t.above := by
  induction h with
  | root => exact .stop (distinct.parentOf?_eq .root)
  | child up hc ih => exact .step (distinct.parentOf?_eq (.child up hc)) ih

/-! ### Siblings -/

theorem nodes_sublist_of_mem (hc : c ∈ n.children) : c.nodes.Sublist n.descendants := by
  obtain ⟨before, after, split⟩ := List.append_of_mem hc
  have within : c.nodes <:+: n.descendants :=
    ⟨before.flatMap nodes, after.flatMap nodes, by simp [descendants_eq, split]⟩
  exact within.sublist

theorem nodes_sublist (hm : m ∈ root.nodes) : m.nodes.Sublist root.nodes := by
  induction root using induct with
  | step root ih =>
    rcases mem_nodes_iff.mp hm with rfl | ⟨c, hc, hm⟩
    · exact .refl _
    · rw [nodes_eq_cons root]
      exact (ih c hc hm).trans ((nodes_sublist_of_mem hc).trans (List.sublist_cons_self _ _))

theorem children_sublist (n : Node) : n.children.Sublist n.nodes := by
  rw [nodes_eq_cons, descendants_eq]
  refine .trans ?_ (List.sublist_cons_self _ _)
  generalize n.children = ns
  induction ns with
  | nil => exact .slnil
  | cons c ns ih =>
    rw [List.flatMap_cons, nodes_eq_cons, List.cons_append]
    exact (ih.trans (List.sublist_append_right _ _)).cons_cons c

theorem Distinct.children (distinct : Distinct root) (hm : m ∈ root.nodes) :
    (m.children.map Node.id).Nodup :=
  distinct.sublist (((children_sublist m).trans (nodes_sublist hm)).map Node.id)

theorem Distinct.holderOf?_eq (distinct : Distinct root) (h : Leads root t) :
    root.holderOf? t.node.id = t.above.head? := by
  -- Whoever holds a child of that id is the nearest node of the trail.
  have nearest {q : Node} (hq : q ∈ root.nodes)
      (holds : q.children.any (fun c => c.id == t.node.id) = true) : t.above.head? = some q := by
    obtain ⟨c, hc, same⟩ := List.any_eq_true.mp holds
    obtain ⟨above, leads⟩ := exists_leads hq
    rw [← distinct.leads_unique (leads.child hc) h (beq_iff_eq.mp same)]
    rfl
  cases found : root.holderOf? t.node.id with
  | some q =>
    have holds := @List.find?_some _ (fun m : Node => m.children.any fun c => c.id == t.node.id)
      q _ found
    exact (nearest (List.mem_of_find?_eq_some found) holds).symm
  | none =>
    obtain ⟨n, above⟩ := t
    cases above with
    | nil => rfl
    | cons p above =>
      obtain ⟨up, hn⟩ := h.parent
      have holds : p.children.any (fun c => c.id == n.id) = true :=
        List.any_eq_true.mpr ⟨n, hn, beq_iff_eq.mpr rfl⟩
      exact absurd holds (List.find?_eq_none.mp found p up.node_mem)

/-- Where the node at the end of a trail stands among its siblings: between the others, or alone if it
is the root. -/
inductive Between : Trail → List Node → List Node → Prop where
  | alone {n : Node} : Between ⟨n, []⟩ [] []
  | row {n p : Node} {above before after : List Node} : p.children = before ++ n :: after →
      Between ⟨n, p :: above⟩ before after

theorem Leads.exists_between (h : Leads root t) : ∃ before after, Between t before after := by
  cases h with
  | root => exact ⟨[], [], .alone⟩
  | child _ hc =>
    obtain ⟨before, after, split⟩ := List.append_of_mem hc
    exact ⟨before, after, .row split⟩

/-- Next to a node in a row of children with different ids stand others. -/
theorem ne_of_row (distinct : (p.children.map Node.id).Nodup)
    (row : p.children = before ++ n :: after) :
    (∀ m ∈ before, m.id ≠ n.id) ∧ ∀ m ∈ after, m.id ≠ n.id := by
  rw [row, List.map_append, List.map_cons] at distinct
  obtain ⟨-, later, apart⟩ := List.nodup_append.mp distinct
  have behind : n.id ∉ after.map Node.id := (List.nodup_cons.mp later).1
  constructor
  · exact fun m hm => apart m.id (List.mem_map_of_mem hm) n.id (by simp)
  · exact fun m hm same => behind (same ▸ List.mem_map_of_mem hm)

theorem findIdx?_row (other : ∀ m ∈ before, m.id ≠ n.id) :
    (before ++ n :: after).findIdx? (fun c => c.id == n.id) = some before.length := by
  have none : before.findIdx? (fun c => c.id == n.id) = none :=
    List.findIdx?_eq_none_iff.mpr fun m hm => by simpa using other m hm
  simp [List.findIdx?_append, none, List.findIdx?_cons]

/-- What is asked about the siblings of a node is answered by its row. -/
theorem Distinct.siblings_eq (distinct : Distinct root) (h : Leads root t)
    (between : Between t before after) :
    root.siblings t.node.id = before ++ after ∧ root.nextSibling? t.node.id = after.head? ∧
      root.previousSibling? t.node.id = before.getLast? := by
  have holder := distinct.holderOf?_eq h
  rw [siblings, nextSibling?, previousSibling?, holder]
  cases between with
  | alone => exact ⟨rfl, rfl, rfl⟩
  | @row n p above before after row =>
    obtain ⟨front, back⟩ := ne_of_row (distinct.children h.parent.1.node_mem) row
    have place : p.children.findIdx? (fun c => c.id == n.id) = some before.length := by
      rw [row]
      exact findIdx?_row front
    refine ⟨?_, ?_, ?_⟩
    · have kept {ms : List Node} (other : ∀ m ∈ ms, m.id ≠ n.id) :
          ms.filter (fun c => c.id != n.id) = ms :=
        List.filter_eq_self.mpr fun m hm => bne_iff_ne.mpr (other m hm)
      simp [row, kept front, kept back]
    · simp only [List.head?_cons, Option.bind_eq_bind, Option.bind_some, place]
      rw [row]
      simp [List.getElem?_append_right, List.head?_eq_getElem?]
    · simp only [List.head?_cons, Option.bind_eq_bind, Option.bind_some, place]
      rcases List.eq_nil_or_concat before with rfl | ⟨init, last, rfl⟩
      · rfl
      · simp [row]

/-- One node follows another exactly if the other precedes it. -/
theorem Distinct.nextSibling?_eq_some_iff (distinct : Distinct root) (hn : n ∈ root.nodes)
    (hm : m ∈ root.nodes) :
    root.nextSibling? n.id = some m ↔ root.previousSibling? m.id = some n := by
  obtain ⟨above, leads⟩ := exists_leads hn
  obtain ⟨above', leads'⟩ := exists_leads hm
  obtain ⟨before, after, between⟩ := leads.exists_between
  obtain ⟨before', after', between'⟩ := leads'.exists_between
  have next := (distinct.siblings_eq leads between).2.1
  have previous := (distinct.siblings_eq leads' between').2.2
  rw [next, previous]
  constructor
  · intro first
    obtain ⟨after, rfl⟩ := List.head?_eq_some_iff.mp first
    cases between with
    | @row _ p _ _ _ row =>
      have row' : p.children = (before ++ [n]) ++ m :: after := by simp [row]
      have back := (distinct.siblings_eq (leads.parent.1.child (c := m) (by simp [row])) (.row row')).2.2
      rw [← previous]
      simpa using back
  · intro last
    obtain ⟨init, split⟩ := List.getLast?_eq_some_iff.mp last
    cases between' with
    | alone => simp at split
    | @row _ p _ _ _ row =>
      have row' : p.children = init ++ n :: m :: after' := by simp [row, split]
      have forth := (distinct.siblings_eq (leads'.parent.1.child (c := n) (by simp [row'])) (.row row')).2.1
      rw [← next]
      simpa using forth

/-! ### Queries -/

/-- What is asked about the node at the end of a trail by its id is answered by the trail. -/
structure Traced (root : Node) (t : Trail) : Prop where
  ancestors : root.ancestors? t.node.id = some t.above
  depth : root.depth? t.node.id = some (some t.above.length)
  scopeChain : root.scopeChain? t.node.id =
    some ((t.node :: t.above).filter fun n => n.kind.isScope)
  parent : (NodeIndex.ofRoot root).parentOf? t.node.id = t.above.head?
  holder : root.holderOf? t.node.id = t.above.head?

theorem Distinct.traced (distinct : Distinct root) (h : Leads root t) : Traced root t := by
  have up : root.ancestors? t.node.id = some t.above :=
    NodeIndex.ancestors?_eq_some_iff.mpr (distinct.climb h)
  have known : ∃ n ∈ root.nodes, n.id = t.node.id := ⟨t.node, h.node_mem, rfl⟩
  constructor
  · exact up
  · rw [depth?_eq, if_pos known, up, Option.map_some]
  · rw [ancestors?] at up
    simp only [scopeChain?, distinct.get?_eq h.node_mem, up, Option.map_some]
  · exact distinct.parentOf?_eq h
  · exact distinct.holderOf?_eq h

/-- Nothing is known about an id that no node bears. -/
structure Unknown (root : Node) (id : NodeId) : Prop where
  ancestors : root.ancestors? id = some []
  depth : root.depth? id = some none
  scopeChain : root.scopeChain? id = some []
  parent : (NodeIndex.ofRoot root).parentOf? id = none
  siblings : root.siblings id = []
  next : root.nextSibling? id = none
  previous : root.previousSibling? id = none

theorem unknown_of_absent (absent : ∀ n ∈ root.nodes, n.id ≠ id) : Unknown root id := by
  have up := ancestors?_of_unknown absent
  have holder : root.holderOf? id = none := by
    refine List.find?_eq_none.mpr fun p hp holds => ?_
    obtain ⟨c, hc, same⟩ := List.any_eq_true.mp holds
    obtain ⟨above, leads⟩ := exists_leads hp
    exact absent c (leads.child hc).node_mem (beq_iff_eq.mp same)
  have stop : Climb (NodeIndex.ofRoot root) id [] := NodeIndex.ancestors?_eq_some_iff.mp up
  constructor
  · exact up
  · rw [depth?_eq, if_neg]
    rintro ⟨n, hn, same⟩
    exact absent n hn same
  · simp only [scopeChain?, get?_eq_none_iff.mpr absent]
  · cases stop with
    | stop none => exact none
  · rw [siblings, holder]
  · rw [nextSibling?, holder]
    rfl
  · rw [previousSibling?, holder]
    rfl

/-- Where all ids differ, the queries by id follow the shape of the tree, whatever its parent links
say. Every node is at the end of a trail, and the trail answers for the nodes above it, for its depth
and scopes and for its parent; its place between the other children of its parent answers for its
siblings, and following and preceding one another are inverse. Nothing is known about other ids. -/
theorem queries_follow_trails (distinct : (root.nodes.map Node.id).Nodup) :
    (∀ n ∈ root.nodes, ∃ above, Leads root ⟨n, above⟩) ∧
    (∀ t, Leads root t → Traced root t) ∧
    (∀ t, Leads root t → ∃ before after, Between t before after) ∧
    (∀ t before after, Leads root t → Between t before after →
      root.siblings t.node.id = before ++ after ∧ root.nextSibling? t.node.id = after.head? ∧
        root.previousSibling? t.node.id = before.getLast?) ∧
    (∀ n ∈ root.nodes, ∀ m ∈ root.nodes,
      root.nextSibling? n.id = some m ↔ root.previousSibling? m.id = some n) ∧
    ∀ id, (∀ n ∈ root.nodes, n.id ≠ id) → Unknown root id := by
  have distinct : Distinct root := distinct
  exact ⟨fun _ => exists_leads, fun _ => distinct.traced, fun _ => Leads.exists_between,
    fun _ _ _ => distinct.siblings_eq, fun _ hn _ hm => distinct.nextSibling?_eq_some_iff hn hm,
    fun _ => unknown_of_absent⟩

/-- The parent links name nodes that are not in the tree. -/
theorem queries_follow_trails_stale : ∃ root run x main : Node,
    root.children = [run, main] ∧ run.children = [x] ∧
    root.nodes.map Node.parent = [some 7, some 9, none, some 9] ∧
    (root.nodes.map Node.id).Nodup ∧ Traced root ⟨x, [run, root]⟩ ∧
    root.siblings run.id = [main] ∧ root.nextSibling? run.id = some main ∧
    root.previousSibling? main.id = some run ∧ Unknown root 9 := by
  let x : Node := .bare 3 .variableDecl .zero
  let run : Node := { Node.bare 2 .method .zero with children := [x], parent := some 9 }
  let main : Node := { Node.bare 4 .function .zero with parent := some 9 }
  let root : Node := { Node.bare 1 .program .zero with children := [run, main], parent := some 7 }
  have distinct : (root.nodes.map Node.id).Nodup := by decide +kernel
  have absent : ∀ n ∈ root.nodes, n.id ≠ 9 := by decide +kernel
  obtain ⟨-, traced, -, siblings, inverse, unknown⟩ := queries_follow_trails distinct
  have first : Leads root ⟨run, [root]⟩ := .child .root (List.mem_cons_self ..)
  have below : Leads root ⟨x, [run, root]⟩ := .child first (List.mem_cons_self ..)
  have second : Leads root ⟨main, [root]⟩ := .child .root (List.mem_cons_of_mem _ (List.mem_cons_self ..))
  obtain ⟨others, next, -⟩ := siblings ⟨run, [root]⟩ [] [main] first (.row rfl)
  exact ⟨root, run, x, main, rfl, rfl, by decide +kernel, distinct, traced _ below, others, next,
    (inverse run first.node_mem main second.node_mem).mp next, unknown 9 absent⟩

end SourceTree.Node
