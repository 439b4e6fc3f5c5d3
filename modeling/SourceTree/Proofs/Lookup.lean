import SourceTree.Proofs.Go.Tree
import SourceTree.Proofs.Node.Deepest
import SourceTree.Proofs.Rewrite

/-!
Looking up the node at a point. In the trees of the languages that are scanned, nothing below a node
reaches as far as a later sibling of that node, although siblings may touch and Go siblings may even
share their piece; so the last node at a point is the deepest. Main statement:
`findAt?_eq_deepest`.
-/

namespace SourceTree

variable {source : Text} {path : String} {file : ParsedFile}

namespace Python

theorem Orderly.sealed {n : Node} (h : Orderly n) (below : ∀ c ∈ n.children, Orderly c) :
    n.Sealed := by
  refine ⟨h.inside, h.apart.imp_of_mem ?_⟩
  intro a b ha _ apart c hc
  exact Nat.lt_of_le_of_lt ((below a ha).inside c hc).2 apart

theorem tree_sealed (source : Text) :
    Build.Grows source 0 (tree source) fun _ root => ∀ m ∈ root.nodes, m.Sealed := by
  refine (tree_orderly source).mono fun _ root _ orderly m hm => ?_
  have below : ∀ c ∈ m.children, Orderly c := fun c hc =>
    orderly c (Node.mem_nodes_trans hm (Node.mem_nodes_iff.mpr (.inr ⟨c, hc, c.self_mem_nodes⟩)))
  exact (orderly m hm).sealed below

end Python

namespace Java

open Scan (Range)

variable {masked : Text} {region : Range} {a b n : Node}

/-- What a node holds ends before the node does, or the node reaches to the end of its region and
has nothing behind it. -/
theorem Placed.seals (ha : Placed masked region a) (hb : Placed masked region b)
    (behind : a.location.endIndex ≤ b.location.startIndex) : a.Seals b := by
  intro c hc
  cases ha with
  | leaf _ leaf =>
    rw [leaf] at hc
    cases hc
  | type body lies isBody _ placed =>
    have inner := (placed c hc).lies.stop_le
    have later := hb.lies.nonempty
    have last := hb.lies.stop_le
    obtain ⟨brace, -, -, -, ⟨-, stop⟩ | ⟨-, limit, stop⟩⟩ := isBody
    · omega
    · omega

theorem seals_of_ordered {ns : List Node} (ordered : Ordered ns)
    (placed : ∀ n ∈ ns, Placed masked region n) : ns.Pairwise Node.Seals :=
  ordered.imp_of_mem fun ha hb behind => (placed _ ha).seals (placed _ hb) behind

theorem Placed.sealed (h : Placed masked region n) : ∀ m ∈ n.nodes, m.Sealed := by
  have nested := h.nested
  induction h with
  | leaf _ leaf =>
    intro m hm
    rw [Node.mem_nodes_iff, leaf] at hm
    obtain rfl : m = _ := by simpa using hm
    exact .of_leaf leaf
  | type body _ _ ordered placed ih =>
    intro m hm
    have inside := (nested m hm).inside
    rcases Node.mem_nodes_iff.mp hm with rfl | ⟨c, hc, below⟩
    · exact ⟨inside, seals_of_ordered ordered placed⟩
    · exact ih c hc (fun x hx => nested x (Node.mem_nodes_iff.mpr (.inr ⟨c, hc, hx⟩))) m below

theorem tree_sealed (source : Text) :
    Build.Safe source (tree source) fun root => ∀ m ∈ root.nodes, m.Sealed := by
  refine (tree_safe source).mono fun root ⟨start, stop, ordered, placed⟩ m hm => ?_
  rcases Node.mem_nodes_iff.mp hm with rfl | ⟨c, hc, hm⟩
  · refine ⟨fun c hc => ?_, seals_of_ordered ordered placed⟩
    have last : c.location.endIndex ≤ Text.size source := (placed c hc).lies.stop_le
    omega
  · exact (placed c hc).sealed m hm

end Java

namespace Go

variable {masked : Text} {n : Node}

/-- Members hold nothing, so they may share a piece. -/
theorem Shaped.sealed (h : Shaped masked n) : ∀ m ∈ n.nodes, m.Sealed := by
  have leaf {m : Node} (empty : m.children = []) : ∀ x ∈ m.nodes, x.Sealed := by
    intro x hx
    rw [Node.mem_nodes_iff, empty] at hx
    obtain rfl : x = m := by simpa using hx
    exact .of_leaf empty
  cases h with
  | inl empty => exact leaf empty
  | inr body =>
    obtain ⟨body, isBody, members, leaves⟩ := body
    intro m hm
    rcases Node.mem_nodes_iff.mp hm with rfl | ⟨c, hc, below⟩
    · constructor
      · intro c hc
        have inner := members.within c hc
        obtain ⟨brace, -, lt, start, ⟨-, stop⟩ | ⟨-, stop⟩⟩ := isBody
        · omega
        · omega
      · exact members.aligned.imp_of_mem fun ha _ _ => .of_leaf (leaves _ ha) _
    · exact leaf (leaves c hc) m below

theorem tree_sealed (source : Text) :
    Build.Safe source (tree source) fun root => ∀ m ∈ root.nodes, m.Sealed := by
  refine (tree_sequence source).mono fun root ⟨start, stop, placed, seals⟩ m hm => ?_
  rcases Node.mem_nodes_iff.mp hm with rfl | ⟨c, hc, hm⟩
  · refine ⟨fun c hc => ?_, seals⟩
    have inner := placed.1.within c hc
    omega
  · exact (placed.2 c hc).sealed m hm

end Go

namespace Language

theorem sealed_of_parse? {l : Language} {tree : Text → Build Node} (scanned : l.scan? = some tree)
    (parsed : l.parse? source path = some file) : ∀ m ∈ file.root.nodes, m.Sealed := by
  have total {post : Node → Prop} (safe : Build.Safe source (tree source) post) : post file.root := by
    rw [parse?_eq_file? scanned] at parsed
    obtain ⟨file', parsed', holds⟩ := Build.exists_file? safe
    obtain rfl : file' = file := Option.some.inj (parsed'.symm.trans parsed)
    exact holds
  cases l with
  | python => exact ((Python.tree_sealed source).of_file? parsed).choose_spec.2
  | java =>
    obtain rfl := Option.some.inj scanned
    exact total (Java.tree_sealed source)
  | go =>
    obtain rfl := Option.some.inj scanned
    exact total (Go.tree_sealed source)
  | typescript | javascript => cases scanned

/-- In a tree that was read from a Python, Java or Go source whose lines and columns fit into 32 bits,
there is a node at a point exactly if the location of some node contains it, and then the node that is
found is as deep as any at the point. -/
theorem findAt?_eq_deepest {l : Language} (hl : l = .python ∨ l = .java ∨ l = .go)
    (fits : (LineIndex.ofText source).Fits) (parsed : l.parse? source path = some file)
    (line column : UInt32) :
    (file.root.findAt? line column = none ↔
      ∀ m ∈ file.root.nodes, m.location.containsPoint line column = false) ∧
    ∀ n, file.root.findAt? line column = some n →
      ∃ v ∈ file.root.visits, v.node = n ∧ n.location.containsPoint line column = true ∧
        ∀ w ∈ file.root.visits, w.node.location.containsPoint line column = true →
          w.depth ≤ v.depth := by
  have scanned : ∃ tree, l.scan? = some tree := by
    rcases hl with rfl | rfl | rfl
    · exact ⟨Python.tree, rfl⟩
    · exact ⟨Java.tree, rfl⟩
    · exact ⟨Go.tree, rfl⟩
  obtain ⟨tree, scanned⟩ := scanned
  constructor
  · exact Node.findAt?_eq_none_iff
  · intro n found
    exact Node.findAt?_deepest fits (quotes_of_parse? scanned parsed)
      (sealed_of_parse? scanned parsed) found

/-- Two classes touch; their point is behind the field of the first, and the second has it. -/
theorem findAt?_touching : ∃ source file n, source = "class A{int x;}class B{}".toList ∧
    (LineIndex.ofText source).Fits ∧ java.parse? source "A.java" = some file ∧
    file.root.visits.map (fun v => (v.depth, v.node.location.startColumn, v.node.location.endColumn)) =
      [(0, 0, 24), (1, 0, 15), (2, 8, 14), (1, 15, 24)] ∧
    file.root.findAt? 1 15 = some n ∧ n.name = some "B" ∧
    ∃ v ∈ file.root.visits, v.node = n ∧ n.location.containsPoint 1 15 = true ∧
      ∀ w ∈ file.root.visits, w.node.location.containsPoint 1 15 = true → w.depth ≤ v.depth := by
  have read : (java.parse? "class A{int x;}class B{}".toList "A.java").map (fun file =>
      (file.root.visits.map fun v =>
        (v.depth, v.node.location.startColumn, v.node.location.endColumn),
        (file.root.findAt? 1 15).map Node.name)) =
      some ([(0, 0, 24), (1, 0, 15), (2, 8, 14), (1, 15, 24)], some (some "B")) := by cbv
  obtain ⟨file, parsed, same⟩ := Option.map_eq_some_iff.mp read
  obtain ⟨visits, named⟩ := Prod.mk.inj same
  obtain ⟨n, found, name⟩ := Option.map_eq_some_iff.mp named
  have fits : (LineIndex.ofText "class A{int x;}class B{}".toList).Fits :=
    LineIndex.fits_of_size (by decide)
  have deepest := (findAt?_eq_deepest (.inr (.inl rfl)) fits parsed 1 15).2 n found
  exact ⟨_, file, n, rfl, fits, parsed, visits, found, name, deepest⟩

end Language

end SourceTree
