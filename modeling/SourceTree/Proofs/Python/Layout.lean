import SourceTree.Proofs.Python.Growth

/-!
Where the nodes of a Python tree stand on the lines of the source. A node without a block has one
line; a definition has the lines from its first decorator to the end of the block that its header
heads, and its members have lines of that block. As lines lie apart, so do the nodes on them.
-/

namespace SourceTree.Python

open Node (postOrderAll)
open Scan (LogicalLine blockLast maskIndent)

variable {lines : List LogicalLine} {first last : Nat} {line : LogicalLine} {n : Node}
  {ns ms : List Node}

/-- A node without a block and without children, on a single line. -/
structure Stands (line : LogicalLine) (n : Node) : Prop where
  kind : n.kind ∉ definitionKinds
  leaf : n.children = []
  start : n.location.startIndex = line.contentStart
  stop : n.location.endIndex ≤ line.stop

/-- A class or function whose header is the line `header`. It begins with the line `top` and ends
with the block of its header; its decorators come before its members. -/
structure Defines (lines : List LogicalLine) (top header : Nat) (decorators members : List Node)
    (n : Node) : Prop where
  kind : n.kind ∈ definitionKinds
  le : top ≤ header
  head : ∃ line, lines[header]? = some line ∧ heads (maskIndent line.content) ≠ none
  start : ∃ line, lines[top]? = some line ∧ n.location.startIndex = line.contentStart
  stop : ∃ line, lines[blockLast lines header]? = some line ∧ n.location.endIndex = line.stop
  children : n.children = decorators ++ members
  decorators : ∀ d ∈ decorators, d.kind = .decorator
  members : ∀ m ∈ members, m.kind ≠ .decorator

/-- The nodes stand one behind the other on the lines from `first` on and before `last`, with all
that is in them: the block of a definition ends before `last`, and its members stand in the block. -/
inductive Laid (lines : List LogicalLine) : Nat → Nat → List Node → Prop where
  | nil {first last : Nat} : first ≤ last → Laid lines first last []
  | statement {first last k : Nat} {line : LogicalLine} {n : Node} {ns : List Node} :
      first ≤ k → lines[k]? = some line → Stands line n → Laid lines (k + 1) last ns →
      Laid lines first last (n :: ns)
  | definition {first last top header : Nat} {decorators members : List Node} {n : Node}
      {ns : List Node} : first ≤ top → blockLast lines header < last →
      Defines lines top header decorators members n → Laid lines top header decorators →
      Laid lines (header + 1) (blockLast lines header + 1) members →
      Laid lines (blockLast lines header + 1) last ns → Laid lines first last (n :: ns)

theorem le_blockLast (lines : List LogicalLine) (header : Nat) : header ≤ blockLast lines header := by
  unfold blockLast
  split
  next => exact Nat.le_refl _
  next => exact Nat.le_add_right _ _

namespace Laid

theorem le (h : Laid lines first last ns) : first ≤ last := by
  induction h with
  | nil le => exact le
  | statement le _ _ _ ih => omega
  | @definition _ _ _ header _ _ _ _ le lt defines _ _ _ _ _ _ =>
    have block := le_blockLast lines header
    have order := defines.le
    omega

theorem since {first' : Nat} (h : Laid lines first last ns) (le : first' ≤ first) :
    Laid lines first' last ns := by
  cases h with
  | nil le' => exact .nil (by omega)
  | statement le' found stands later => exact .statement (by omega) found stands later
  | definition le' lt defines above below later =>
    exact .definition (by omega) lt defines above below later

theorem adopted (h : Laid lines first last ns) (id : NodeId) :
    Laid lines first last (ns.map (·.adoptedBy id)) := by
  induction h with
  | nil le => exact .nil le
  | statement le found stands _ ih =>
    exact .statement le found ⟨stands.kind, stands.leaf, stands.start, stands.stop⟩ ih
  | definition le lt defines above below _ _ _ ih =>
    exact .definition le lt ⟨defines.kind, defines.le, defines.head, defines.start, defines.stop,
      defines.children, defines.decorators, defines.members⟩ above below ih

end Laid

/-! ### Bytes -/

theorem contentStart_bounds (line : LogicalLine) :
    line.start ≤ line.contentStart ∧ line.contentStart ≤ line.stop := by
  obtain ⟨lead, split, size, -⟩ := Text.trimStart_split line.text
  have whole := congrArg Text.size split
  rw [Text.size_append] at whole
  simp only [LogicalLine.contentStart, LogicalLine.stop]
  omega

/-- No two lines touch. -/
def Apart (lines : List LogicalLine) : Prop := lines.Pairwise fun a b => a.stop < b.start

theorem Apart.lt {i j : Nat} {a b : LogicalLine} (apart : Apart lines) (ha : lines[i]? = some a)
    (hb : lines[j]? = some b) (lt : i < j) : a.stop < b.start := by
  obtain ⟨hi, rfl⟩ := List.getElem?_eq_some_iff.mp ha
  obtain ⟨hj, rfl⟩ := List.getElem?_eq_some_iff.mp hb
  exact List.pairwise_iff_getElem.mp apart i j hi hj lt

theorem Apart.le {i j : Nat} {a b : LogicalLine} (apart : Apart lines) (ha : lines[i]? = some a)
    (hb : lines[j]? = some b) (le : i ≤ j) : a.contentStart ≤ b.contentStart ∧ a.stop ≤ b.stop := by
  rcases Nat.lt_or_eq_of_le le with lt | rfl
  · have behind := apart.lt ha hb lt
    have inner := contentStart_bounds a
    have outer := contentStart_bounds b
    omega
  · obtain rfl := Option.some.inj (ha.symm.trans hb)
    exact ⟨Nat.le_refl _, Nat.le_refl _⟩

/-- The node begins with one of the lines and ends no later than another. -/
def Occupies (lines : List LogicalLine) (first last : Nat) (n : Node) : Prop :=
  ∃ i j a b, first ≤ i ∧ i ≤ j ∧ j < last ∧ lines[i]? = some a ∧ lines[j]? = some b ∧
    n.location.startIndex = a.contentStart ∧ n.location.endIndex ≤ b.stop

theorem Occupies.mono {first' last' : Nat} (h : Occupies lines first last n) (le : first' ≤ first)
    (le' : last ≤ last') : Occupies lines first' last' n := by
  obtain ⟨i, j, a, b, hi, hij, hj, rest⟩ := h
  exact ⟨i, j, a, b, by omega, hij, by omega, rest⟩

theorem Occupies.before {m : Node} {mid mid' : Nat} (h : Occupies lines first mid n)
    (h' : Occupies lines mid' last m) (le : mid ≤ mid') (apart : Apart lines) :
    n.location.endIndex < m.location.startIndex := by
  obtain ⟨-, j, -, b, -, -, hj, -, hb, -, stop⟩ := h
  obtain ⟨i, -, a, -, hi, -, -, ha, -, start, -⟩ := h'
  have behind := apart.lt hb ha (by omega)
  have inner := (contentStart_bounds a).1
  omega

theorem Stands.occupies {k : Nat} (h : Stands line n) (found : lines[k]? = some line) :
    Occupies lines k (k + 1) n :=
  ⟨k, k, line, line, Nat.le_refl k, Nat.le_refl k, Nat.lt_succ_self k, found, found, h.start, h.stop⟩

theorem Defines.occupies {top header : Nat} (h : Defines lines top header ns ms n) :
    Occupies lines top (blockLast lines header + 1) n := by
  have block := le_blockLast lines header
  have order := h.le
  obtain ⟨a, ha, start⟩ := h.start
  obtain ⟨b, hb, stop⟩ := h.stop
  exact ⟨top, blockLast lines header, a, b, Nat.le_refl top, by omega, Nat.lt_succ_self _, ha, hb,
    start, Nat.le_of_eq stop⟩

/-- What occupies lines of a definition lies inside it. -/
theorem Defines.inside {top header : Nat} {c : Node} (h : Defines lines top header ns ms n)
    (hc : Occupies lines top (blockLast lines header + 1) c) (apart : Apart lines) :
    n.location.startIndex ≤ c.location.startIndex ∧ c.location.endIndex ≤ n.location.endIndex := by
  obtain ⟨i, j, a, b, hi, -, hj, ha, hb, start, stop⟩ := hc
  obtain ⟨a', ha', start'⟩ := h.start
  obtain ⟨b', hb', stop'⟩ := h.stop
  have left := (apart.le ha' ha hi).1
  have right := (apart.le hb hb' (by omega)).2
  omega

namespace Laid

theorem occupies (h : Laid lines first last ns) : ∀ n ∈ ns, Occupies lines first last n := by
  induction h with
  | nil => simp
  | statement le found stands later ih =>
    intro m hm
    have behind := later.le
    rcases List.mem_cons.mp hm with rfl | hm
    · exact (stands.occupies found).mono le behind
    · exact (ih m hm).mono (by omega) (Nat.le_refl _)
  | definition le lt defines above below later _ _ ih =>
    intro m hm
    have top := above.le
    have bottom := below.le
    rcases List.mem_cons.mp hm with rfl | hm
    · exact defines.occupies.mono le lt
    · exact (ih m hm).mono (by omega) (Nat.le_refl _)

/-- Nodes that stand one behind the other do not touch. -/
theorem pairwise (h : Laid lines first last ns) (apart : Apart lines) :
    ns.Pairwise fun a b => a.location.endIndex < b.location.startIndex := by
  induction h with
  | nil => exact .nil
  | statement _ found stands later ih =>
    refine List.pairwise_cons.mpr ⟨fun m hm => ?_, ih⟩
    exact (stands.occupies found).before (later.occupies m hm) (Nat.le_refl _) apart
  | definition _ _ defines _ _ later _ _ ih =>
    refine List.pairwise_cons.mpr ⟨fun m hm => ?_, ih⟩
    exact defines.occupies.before (later.occupies m hm) (Nat.le_refl _) apart

end Laid

/-- The children of the node lie inside it and do not touch, and those that are decorators come
first. -/
structure Orderly (n : Node) : Prop where
  inside : ∀ c ∈ n.children, n.location.startIndex ≤ c.location.startIndex ∧
    c.location.endIndex ≤ n.location.endIndex
  apart : n.children.Pairwise fun a b => a.location.endIndex < b.location.startIndex
  decorated : ∃ decorators members, n.children = decorators ++ members ∧
    (∀ d ∈ decorators, d.kind = .decorator) ∧ ∀ m ∈ members, m.kind ≠ .decorator

theorem Stands.orderly (h : Stands line n) : Orderly n := by
  refine ⟨?_, ?_, [], [], h.leaf, by simp, by simp⟩
  · simp [h.leaf]
  · simp [h.leaf]

theorem Defines.orderly {top header : Nat} (h : Defines lines top header ns ms n)
    (above : Laid lines top header ns)
    (below : Laid lines (header + 1) (blockLast lines header + 1) ms) (apart : Apart lines) :
    Orderly n := by
  have block := le_blockLast lines header
  have order := h.le
  refine ⟨fun c hc => ?_, ?_, ns, ms, h.children, h.decorators, h.members⟩
  · rw [h.children, List.mem_append] at hc
    rcases hc with hc | hc
    · exact h.inside ((above.occupies c hc).mono (Nat.le_refl _) (by omega)) apart
    · exact h.inside ((below.occupies c hc).mono (by omega) (Nat.le_refl _)) apart
  · rw [h.children]
    refine List.pairwise_append.mpr ⟨above.pairwise apart, below.pairwise apart, ?_⟩
    intro a ha b hb
    exact (above.occupies a ha).before (below.occupies b hb) (by omega) apart

/-- Order holds at every depth. -/
theorem Laid.orderly (h : Laid lines first last ns) (apart : Apart lines) :
    ∀ n ∈ postOrderAll ns, Orderly n := by
  induction h with
  | nil => simp [postOrderAll]
  | statement _ _ stands _ ih =>
    intro m hm
    rw [postOrderAll, Node.postOrder_eq, stands.leaf, List.mem_append] at hm
    rcases hm with hm | hm
    · obtain rfl : m = _ := by simpa [postOrderAll] using hm
      exact stands.orderly
    · exact ih m hm
  | definition _ _ defines above below _ ihAbove ihBelow ih =>
    intro m hm
    rw [postOrderAll, Node.postOrder_eq, defines.children, Node.postOrderAll_append] at hm
    simp only [List.mem_append, List.mem_singleton] at hm
    rcases hm with ((hm | hm) | rfl) | hm
    · exact ihAbove m hm
    · exact ihBelow m hm
    · exact defines.orderly above below apart
    · exact ih m hm

end SourceTree.Python
