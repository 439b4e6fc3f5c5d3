import SourceTree.Proofs.Builder
import SourceTree.Proofs.Go.Header

/-!
The members of Go structs and interfaces, line by line. Each line gives nodes that cover it, and the
next line begins behind it, so the members of a body lie in it one behind the other, or on one and
the same line where several names share a type.
-/

namespace SourceTree.Go

open Scan (MaskedSource Masks edge_at)
open Text (Boundary Edge Opens Closes)

variable {text : MaskedSource} {start stop limit pos : Nat}

/-- The second node covers the same piece as the first or lies behind it. -/
def Follows (a b : Node) : Prop :=
  a.location.startIndex = b.location.startIndex ∧ a.location.endIndex = b.location.endIndex ∨
    a.location.endIndex ≤ b.location.startIndex

/-- Nodes between two offsets, none of them empty, in order. -/
structure Row (first last : Nat) (ns : List Node) : Prop where
  within : ∀ n ∈ ns, first ≤ n.location.startIndex ∧
    n.location.startIndex < n.location.endIndex ∧ n.location.endIndex ≤ last
  aligned : ns.Pairwise Follows

theorem Row.nil (first last : Nat) : Row first last [] := ⟨by simp, .nil⟩

theorem Row.mono {ns : List Node} {first last first' last' : Nat} (h : Row first last ns)
    (le : first' ≤ first) (le' : last ≤ last') : Row first' last' ns := by
  refine ⟨fun n hn => ?_, h.aligned⟩
  have := h.within n hn
  omega

theorem Row.append {ns ms : List Node} {first mid mid' last : Nat} (h : Row first mid ns)
    (h' : Row mid' last ms) (le : mid ≤ mid') (first_le : first ≤ mid') (le_last : mid ≤ last) :
    Row first last (ns ++ ms) := by
  constructor
  · intro n hn
    rcases List.mem_append.mp hn with hn | hn
    · have := h.within n hn
      omega
    · have := h'.within n hn
      omega
  · refine List.pairwise_append.mpr ⟨h.aligned, h'.aligned, fun a ha b hb => .inr ?_⟩
    have before := h.within a ha
    have behind := h'.within b hb
    omega

theorem Row.adopted {ns : List Node} {first last : Nat} (h : Row first last ns) (id : NodeId) :
    Row first last (ns.map (·.adoptedBy id)) :=
  ⟨List.forall_mem_map.mpr h.within, List.pairwise_map.mpr h.aligned⟩

/-- A node without children that covers exactly this piece. -/
def Covers (start stop : Nat) (n : Node) : Prop :=
  n.location.startIndex = start ∧ n.location.endIndex = stop ∧ n.children = []

theorem row_of_covers {ns : List Node} (lt : start < stop) (h : ∀ n ∈ ns, Covers start stop n) :
    Row start stop ns := by
  constructor
  · intro n hn
    obtain ⟨hs, ht, -⟩ := h n hn
    omega
  · refine List.Pairwise.imp_of_mem ?_ (List.pairwise_of_forall fun _ _ => trivial)
    intro a b ha hb _
    obtain ⟨as, at', -⟩ := h a ha
    obtain ⟨bs, bt, -⟩ := h b hb
    exact .inl ⟨as.trans bs.symm, at'.trans bt.symm⟩

theorem span_covers {kind : NodeKind} {d : Draft} (first : Boundary text.source start)
    (last : Boundary text.source stop) (le : start ≤ stop) (empty : d.children = []) :
    Build.Safe text.source (Build.span kind start stop d) (Covers start stop) := by
  refine (Build.Safe.span (Text.exists_slice?_iff.mpr ⟨le, first, last⟩)).mono ?_
  rintro n ⟨hs, ht, id, hchildren⟩
  rw [empty] at hchildren
  exact ⟨hs, ht, hchildren⟩

@[simp] theorem children_access (name : Text) (d : Draft) : (access name d).children = d.children :=
  rfl

/-- Members of a body: in a row, and without members of their own. -/
def Members (first last : Nat) (ns : List Node) : Prop :=
  Row first last ns ∧ ∀ n ∈ ns, n.children = []

theorem members_of_covers {ns : List Node} (lt : start < stop) (h : ∀ n ∈ ns, Covers start stop n) :
    Members start stop ns := ⟨row_of_covers lt h, fun n hn => (h n hn).2.2⟩

/-- A line that begins with code, from its start to its end. -/
structure CodeLine (text : MaskedSource) (start stop : Nat) : Prop where
  masks : Masks text.source text.masked
  first : Boundary text.source start
  last : Boundary text.source stop
  lt : start < stop

theorem CodeLine.exists_texts (line : CodeLine text start stop) :
    ∃ raw masked, text.text? start stop = some raw ∧ text.code? start stop = some masked ∧
      Masks raw masked := by
  obtain ⟨raw, hr⟩ := Text.exists_slice?_iff.mpr ⟨Nat.le_of_lt line.lt, line.first, line.last⟩
  obtain ⟨masked, hc, masks⟩ := line.masks.slice hr
  exact ⟨raw, masked, hr, hc, masks⟩

/-- A loop over lines, which gathers things that may be nodes. -/
theorem eachLine_safe {α : Type} {read : Nat → Nat → Build (List α)} {nodeOf : α → Option Node}
    (hm : Masks text.source text.masked) (hl : Boundary text.source limit)
    (hread : ∀ start stop, CodeLine text start stop →
      Build.Safe text.source (read start stop) fun as => Members start stop (as.filterMap nodeOf))
    (ready : Ready text pos) :
    Build.Safe text.source (eachLine text limit read pos) fun as =>
      Members pos limit (as.filterMap nodeOf) := by
  induction hd : limit - pos using Nat.strongRecOn generalizing pos with
  | ind d ih =>
    rw [eachLine]
    split
    next lt =>
      have inside := hl.le_size
      have code : IsCode text pos := by
        rcases ready with rfl | code
        · exact absurd lt (Nat.not_lt_of_le inside)
        · exact code
      have first := code.boundary hm
      obtain ⟨stop, found, line⟩ :=
        exists_lineEnd (hm.boundary first) (hm.boundary hl) (Nat.le_of_lt lt)
      have progress := line.lt lt code
      have last := line.boundary hm first
      obtain ⟨next, hnext, le, ready'⟩ := exists_goOn hm progress last
      have stop_le := line.stop_le
      have later := ih (limit - next.1) (by omega) ready' rfl
      refine Build.Settles.need_bind found ?_
      refine Build.Safe.bind (hread pos stop ⟨hm, first, last, progress⟩) fun as here => ?_
      refine Build.Settles.need_bind hnext ?_
      refine Build.Safe.bind later fun bs rest => Build.Safe.pure ?_
      rw [List.filterMap_append]
      refine ⟨here.1.append rest.1 le (by omega) stop_le, fun n hn => ?_⟩
      rcases List.mem_append.mp hn with hn | hn
      · exact here.2 n hn
      · exact rest.2 n hn
    next => exact Build.Safe.pure ⟨Row.nil pos limit, by simp⟩

/-! ### Fields -/

theorem exists_namedField? {raw masked : Text} (hm : Masks raw masked) :
    ∃ r, namedField? raw masked = some r := by
  unfold namedField?
  split
  next => exact ⟨none, rfl⟩
  next m found =>
    obtain ⟨pre, type, hgroup, rfl, opens⟩ := field_match found
    have first : Boundary raw (Text.size pre) :=
      hm.boundary_of_edge (opens.mono fun c hc => inked_ne_space c hc.1).edge
    rw [hgroup]
    obtain ⟨t, ht⟩ : ∃ t, Text.slice? raw (Text.size pre)
        (((Text.find? (· == '\x60') type).map (Text.size pre + ·)).getD
          (Text.size pre + Text.size type)) = some t := by
      cases tick : Text.find? (· == '\x60') type with
      | none =>
        refine Text.exists_slice?_iff.mpr ⟨Nat.le_add_right .., first, ?_⟩
        rw [Option.map_none, Option.getD_none, ← Text.size_append, hm.size_eq]
        exact Text.boundary_size raw
      | some offset =>
        obtain ⟨left, x, right, rfl, rfl, hx, -⟩ := Text.find?_eq_some tick
        obtain rfl : x = '\x60' := by simpa using hx
        refine Text.exists_slice?_iff.mpr ⟨Nat.le_add_right .., first, hm.boundary_of_edge ?_⟩
        rw [Option.map_some, Option.getD_some, ← Text.size_append, ← List.append_assoc]
        exact Opens.edge ⟨'\x60', right, rfl, by decide⟩
    have stop : (⟨Text.size pre, type⟩ : Span).stop = Text.size pre + Text.size type := rfl
    simp only [Option.bind_eq_bind, Option.bind_some, stop, ht]
    exact ⟨_, rfl⟩

theorem lineFields_safe (line : CodeLine text start stop) :
    Build.Safe text.source (lineFields text start stop) (Members start stop) := by
  obtain ⟨raw, masked, hr, hc, masks⟩ := line.exists_texts
  obtain ⟨named, hnamed⟩ := exists_namedField? masks
  have le := Nat.le_of_lt line.lt
  refine Build.Settles.need_bind hc (Build.Settles.need_bind hr ?_)
  refine Build.Settles.need_bind hnamed ?_
  cases named with
  | some field =>
    refine (Build.Safe.mapM fun name _ => ?_).mono fun ns => members_of_covers line.lt
    exact span_covers line.first line.last le (by simp [Draft.named])
  | none =>
    dsimp only
    split
    · exact Build.Safe.pure ⟨Row.nil start stop, by simp⟩
    · refine Build.Safe.bind (span_covers line.first line.last le (by simp [Draft.named])) ?_
      intro n covers
      exact Build.Safe.pure (members_of_covers line.lt (by simpa using covers))

theorem structFields_safe (hm : Masks text.source text.masked) (hs : Boundary text.masked start)
    (hl : Boundary text.source limit) :
    Build.Safe text.source (structFields text start limit) (Members start limit) := by
  obtain ⟨pos, found, le, ready⟩ := exists_ready hm hs
  refine Build.Settles.need_bind found ?_
  have each : Build.Safe text.source (eachLine text limit (lineFields text) pos) fun ns =>
      Members pos limit (ns.filterMap some) := by
    refine eachLine_safe hm hl (fun start stop line => ?_) ready
    simpa using lineFields_safe line
  refine each.mono fun ns members => ?_
  rw [List.filterMap_some] at members
  exact ⟨members.1.mono le (Nat.le_refl _), members.2⟩

/-! ### Methods of interfaces -/

/-- What stands between parentheses and what follows them on the line. -/
theorem exists_parameterList {close : Nat} (line : CodeLine text start stop)
    (found : Scan.findMatchingBefore? text.masked pos stop '(' ')' = some close) :
    (∃ list, text.text? (pos + 1) close = some list) ∧
      ∃ results, text.text? (min (close + 1) stop) stop = some results := by
  obtain ⟨matching, lt⟩ := Scan.findMatchingBefore?_eq_some.mp found
  obtain ⟨-, list, -, hlist, -⟩ :=
    line.masks.slice_inner matching (by decide) (by decide) (by decide)
  refine ⟨⟨list, hlist⟩, ?_⟩
  obtain ⟨-, -, here⟩ := Scan.closes_before (by decide) found
  have behind : Boundary text.source (close + 1) :=
    line.masks.boundary_of_edge (edge_at here (by decide)).2
  rw [Nat.min_eq_left lt]
  exact Text.exists_slice?_iff.mpr ⟨lt, behind, line.last⟩

theorem interfaceItem_safe (line : CodeLine text start stop) :
    Build.Safe text.source (interfaceItem text start stop) fun items =>
      Members start stop (items.filterMap InterfaceItem.node?) := by
  obtain ⟨raw, masked, hr, hc, -⟩ := line.exists_texts
  have le := Nat.le_of_lt line.lt
  refine Build.Settles.need_bind hc ?_
  dsimp only
  split
  next name openParen closeParen found =>
    obtain ⟨m, -, closed⟩ := Option.bind_eq_some_iff.mp found
    obtain ⟨close, matching, same⟩ := Option.map_eq_some_iff.mp closed
    obtain ⟨rfl, rfl, rfl⟩ : m.groupText 1 = name ∧ start + m.stop - 1 = openParen ∧
        close = closeParen := by simpa using same
    obtain ⟨⟨list, hlist⟩, results, hresults⟩ := exists_parameterList line matching
    refine Build.Settles.need_bind hlist (Build.Settles.need_bind hresults ?_)
    refine Build.Safe.bind (span_covers line.first line.last le ?_) fun n covers => ?_
    · split <;> simp [Draft.named]
    · exact Build.Safe.pure (members_of_covers line.lt (by simpa [InterfaceItem.node?] using covers))
  next =>
    split
    · exact Build.Safe.pure ⟨Row.nil start stop, by simp⟩
    · refine Build.Settles.need_bind hr (Build.Safe.pure ?_)
      exact ⟨Row.nil start stop, by simp [InterfaceItem.node?]⟩

theorem interfaceMembers_safe (hm : Masks text.source text.masked)
    (hs : Boundary text.masked start) (hl : Boundary text.source limit) :
    Build.Safe text.source (interfaceMembers text start limit) fun r => Members start limit r.1 := by
  obtain ⟨pos, found, le, ready⟩ := exists_ready hm hs
  refine Build.Settles.need_bind found ?_
  have each := eachLine_safe hm hl (fun _ _ line => interfaceItem_safe line) ready
  refine Build.Safe.bind each fun items members => Build.Safe.pure ?_
  exact ⟨members.1.mono le (Nat.le_refl _), members.2⟩

end SourceTree.Go
