import SourceTree.Proofs.LineIndex
import SourceTree.Proofs.Node.Nested
import SourceTree.Proofs.Text.Boundary

/-!
The last of several nodes. A walk meets nodes before what lies below them, so of the nodes at a point
the last one is the deepest, unless something below a node reaches as far as a later sibling of that
node. Where nothing does, `findAt?` finds the deepest node.
-/

namespace SourceTree

namespace Node

variable {root n m a b : Node} {ns : List Node} {hit : Node → Bool} {xs ys : List Visit}

/-! ### Walks -/

theorem node_mem_of_mem_walkAll {parent : Node} {depth : Nat} {v : Visit}
    (h : v ∈ walkAll (fun _ => false) parent depth ns) : ∃ n ∈ ns, v.node ∈ n.nodes := by
  have same := postOrderAll_perm_walkAll parent depth ns
  exact mem_postOrderAll.mp (same.mem_iff.mpr (List.mem_map_of_mem h))

theorem le_depth_walkAll {parent : Node} {depth : Nat} {v : Visit}
    (each : ∀ n ∈ ns, ∀ v ∈ walkFrom (fun _ => false) (some parent) depth n, depth ≤ v.depth)
    (h : v ∈ walkAll (fun _ => false) parent depth ns) : depth ≤ v.depth := by
  induction ns with
  | nil => simp [walkAll] at h
  | cons n ns ih =>
    rw [walkAll, List.mem_append] at h
    cases h with
    | inl here => exact each n (by simp) v here
    | inr later => exact ih (fun n hn => each n (by simp [hn])) later

theorem le_depth_walkFrom {parent : Option Node} {depth : Nat} {v : Visit}
    (h : v ∈ walkFrom (fun _ => false) parent depth n) : depth ≤ v.depth := by
  induction n using induct generalizing parent depth v with
  | step n ih =>
    rw [walkFrom_all, List.mem_cons] at h
    cases h with
    | inl root => rw [root]
    | inr below =>
      have deeper := le_depth_walkAll (fun c hc v hv => ih c hc hv) below
      omega

/-- Below the root of a walk are its children and what lies below them. -/
theorem below_of_mem_walkFrom {parent : Option Node} {depth : Nat} {v : Visit}
    (h : v ∈ walkFrom (fun _ => false) parent depth n) :
    v.depth = depth ∨ ∃ c ∈ n.children, v.node ∈ c.nodes := by
  rw [walkFrom_all, List.mem_cons] at h
  cases h with
  | inl root => exact .inl (by rw [root])
  | inr below => exact .inr (node_mem_of_mem_walkAll below)

/-! ### The last hit -/

/-- Of the visits whose nodes are hit, the last is as deep as any. -/
def LastDeepest (hit : Node → Bool) (vs : List Visit) : Prop :=
  ∀ last, (vs.filter fun v => hit v.node).getLast? = some last →
    ∀ v ∈ vs, hit v.node = true → v.depth ≤ last.depth

theorem LastDeepest.append (first : LastDeepest hit xs) (second : LastDeepest hit ys)
    (rises : ∀ x ∈ xs, hit x.node = true → ∀ y ∈ ys, hit y.node = true → x.depth ≤ y.depth) :
    LastDeepest hit (xs ++ ys) := by
  intro last found v hv hits
  rw [List.filter_append, List.getLast?_append] at found
  cases late : (ys.filter fun v => hit v.node).getLast? with
  | some y =>
    obtain rfl : y = last := by simpa [late] using found
    obtain ⟨mem, here⟩ := List.mem_filter.mp (List.mem_of_getLast? late)
    cases List.mem_append.mp hv with
    | inl before => exact rises v before hits y mem here
    | inr behind => exact second y late v behind hits
  | none =>
    have found : (xs.filter fun v => hit v.node).getLast? = some last := by simpa [late] using found
    have none := List.getLast?_eq_none_iff.mp late
    cases List.mem_append.mp hv with
    | inl before => exact first last found v before hits
    | inr behind =>
      have kept : v ∈ ys.filter fun v => hit v.node := List.mem_filter.mpr ⟨behind, hits⟩
      rw [none] at kept
      cases kept

/-- Nothing below a child of the first is hit together with the second or something below it. -/
def Parted (hit : Node → Bool) (a b : Node) : Prop :=
  ∀ c ∈ a.children, ∀ x ∈ c.nodes, ∀ y ∈ b.nodes, ¬(hit x = true ∧ hit y = true)

theorem lastDeepest_walkAll {parent : Node} {depth : Nat}
    (each : ∀ n ∈ ns, LastDeepest hit (walkFrom (fun _ => false) (some parent) depth n))
    (parted : ns.Pairwise (Parted hit)) :
    LastDeepest hit (walkAll (fun _ => false) parent depth ns) := by
  induction ns with
  | nil => simp [LastDeepest, walkAll]
  | cons n ns ih =>
    obtain ⟨behind, parted⟩ := List.pairwise_cons.mp parted
    rw [walkAll]
    refine (each n (by simp)).append (ih (fun n hn => each n (by simp [hn])) parted) ?_
    intro x hx hitx y hy hity
    have deep : depth ≤ y.depth := le_depth_walkAll (fun _ _ _ => le_depth_walkFrom) hy
    cases below_of_mem_walkFrom hx with
    | inl top => omega
    | inr below =>
      obtain ⟨c, hc, hxc⟩ := below
      obtain ⟨m, hm, hym⟩ := node_mem_of_mem_walkAll hy
      exact absurd ⟨hitx, hity⟩ (behind m hm c hc _ hxc _ hym)

theorem lastDeepest_walkFrom (parted : ∀ m ∈ n.nodes, m.children.Pairwise (Parted hit))
    (parent : Option Node) (depth : Nat) :
    LastDeepest hit (walkFrom (fun _ => false) parent depth n) := by
  induction n using induct generalizing parent depth with
  | step n ih =>
    have each : ∀ c ∈ n.children,
        LastDeepest hit (walkFrom (fun _ => false) (some n) (depth + 1) c) := fun c hc =>
      ih c hc (fun m hm => parted m (mem_nodes_iff.mpr (.inr ⟨c, hc, hm⟩))) _ _
    have below := lastDeepest_walkAll each (parted n n.self_mem_nodes)
    have alone : LastDeepest hit [⟨n, parent, depth⟩] := by
      intro last found v hv hits
      have mem := (List.mem_filter.mp (List.mem_of_getLast? found)).1
      rw [List.mem_singleton.mp mem, List.mem_singleton.mp hv]
    rw [walkFrom_all]
    refine alone.append below fun x hx _ y hy _ => ?_
    have deep := le_depth_walkAll (fun _ _ _ => le_depth_walkFrom) hy
    rw [List.mem_singleton.mp hx]
    exact Nat.le_of_succ_le deep

/-! ### Nodes at a point -/

theorem Quotes.le_size (h : n.Quotes source) : n.location.startIndex ≤ Text.size source := by
  obtain ⟨t, piece, -⟩ := h.text
  obtain ⟨front, back, rfl, size, -⟩ := Text.slice?_eq_some_iff.mp piece
  rw [Text.size_append, Text.size_append]
  omega

/-- No point lies in a node and in one that begins behind it. -/
theorem Quotes.not_both (fits : (LineIndex.ofText source).Fits) (ha : a.Quotes source)
    (hb : b.Quotes source) (lt : a.location.endIndex < b.location.startIndex)
    (line column : UInt32) :
    ¬(a.location.containsPoint line column = true ∧
      b.location.containsPoint line column = true) := by
  rintro ⟨inA, inB⟩
  have before := LineIndex.position_before (LineIndex.ofText_starts source) fits lt hb.le_size
  rw [ha.stop, hb.start] at before
  have left := (Location.containsPoint_iff.mp inA).2
  have right := (Location.containsPoint_iff.mp inB).1
  exact (before.split (line, column)).elim left right

theorem parted_of_sealed (fits : (LineIndex.ofText source).Fits)
    (quotes : ∀ m ∈ root.nodes, m.Quotes source) (tight : ∀ m ∈ root.nodes, m.Sealed)
    (line column : UInt32) :
    ∀ m ∈ root.nodes,
      m.children.Pairwise (Parted fun n => n.location.containsPoint line column) := by
  intro m hm
  have inner {c : Node} (hc : c ∈ m.children) : ∀ x ∈ c.nodes, x ∈ root.nodes := by
    intro x hx
    exact mem_nodes_trans hm (mem_nodes_iff.mpr (.inr ⟨c, hc, hx⟩))
  refine (tight m hm).seals.imp_of_mem fun {a b} ha hb seals c hc x hx y hy => ?_
  have hxa : x ∈ a.nodes := mem_nodes_iff.mpr (.inr ⟨c, hc, hx⟩)
  have hca : c ∈ a.nodes := mem_nodes_iff.mpr (.inr ⟨c, hc, c.self_mem_nodes⟩)
  have below := within_of_inside (fun z hz => (tight z (inner ha z (mem_nodes_trans hca hz))).inside) hx
  have behind := within_of_inside (fun z hz => (tight z (inner hb z hz)).inside) hy
  have gap := seals c hc
  have apart : x.location.endIndex < y.location.startIndex := by omega
  exact (quotes x (inner ha x hxa)).not_both fits (quotes y (inner hb y hy)) apart line column

theorem findAt?_eq_none_iff {line column : UInt32} :
    root.findAt? line column = none ↔
      ∀ m ∈ root.nodes, m.location.containsPoint line column = false := by
  simp [findAt?, findAll]

theorem findAt?_deepest (fits : (LineIndex.ofText source).Fits)
    (quotes : ∀ m ∈ root.nodes, m.Quotes source) (tight : ∀ m ∈ root.nodes, m.Sealed)
    {line column : UInt32}
    (found : root.findAt? line column = some n) :
    ∃ v ∈ root.visits, v.node = n ∧ n.location.containsPoint line column = true ∧
      ∀ w ∈ root.visits, w.node.location.containsPoint line column = true → w.depth ≤ v.depth := by
  have deepest := lastDeepest_walkFrom (parted_of_sealed fits quotes tight line column) none 0
  rw [findAt?, findAll, nodes, List.filter_map, List.getLast?_map] at found
  obtain ⟨v, last, rfl⟩ := Option.map_eq_some_iff.mp found
  obtain ⟨mem, here⟩ := List.mem_filter.mp (List.mem_of_getLast? last)
  exact ⟨v, mem, rfl, here, deepest v last⟩

end Node

end SourceTree
