import SourceTree.Body
import SourceTree.Proofs.Builder
import SourceTree.Proofs.Pattern.Word
import SourceTree.Proofs.Scan.Block
import SourceTree.Proofs.Scan.Split

/-!
Pieces that are found in a mask and cut out of the source. A piece can be cut out if both its ends
touch code, be it from inside or from outside.
-/

namespace SourceTree.Scan

open Pattern
open Text (Boundary Edge Opens Closes)

variable {cs source masked : Text} {start limit pos : Nat}

theorem edge_at {c : Char} (h : Text.at? cs pos = some c) (hc : c ≠ ' ') :
    Edge cs pos ∧ Edge cs (pos + c.utf8Size) := by
  obtain ⟨front, back, rfl, rfl⟩ := Text.at?_eq_some h
  exact ⟨⟨front, c, back, rfl, hc, .inl rfl⟩, front, c, back, rfl, hc, .inr rfl⟩

theorem at?_slice {left right : Text} {c : Char}
    (h : Text.slice? cs start limit = some (left ++ c :: right)) :
    Text.at? cs (start + Text.size left) = some c ∧ start + Text.size left < limit := by
  obtain ⟨front, back, rfl, rfl, rfl⟩ := Text.slice?_eq_some_iff.mp h
  constructor
  · have split : front ++ (left ++ c :: right) ++ back = (front ++ left) ++ c :: (right ++ back) := by
      simp
    rw [split, ← Text.size_append]
    exact at?_append _ _ c
  · have pos := c.utf8Size_pos
    rw [Text.size_append, Text.size_cons]
    omega

theorem closes_at {close : Nat} {opener closer : Char} (ne : opener ≠ closer)
    (h : findMatching? masked pos opener closer = some close) :
    pos < close ∧ Text.at? masked close = some closer := by
  obtain ⟨front, mid, back, hm, rfl, rfl⟩ := findMatching?_split ne h
  have width := opener.utf8Size_pos
  refine ⟨by omega, ?_⟩
  have size : Text.size front + opener.utf8Size + Text.size mid = Text.size (front ++ opener :: mid) := by
    rw [Text.size_append, Text.size_cons, Nat.add_assoc]
  rw [hm, size]
  exact at?_append _ _ closer

theorem closes_before {close : Nat} {opener closer : Char} (ne : opener ≠ closer)
    (h : findMatchingBefore? masked pos limit opener closer = some close) :
    pos < close ∧ close < limit ∧ Text.at? masked close = some closer := by
  obtain ⟨found, lt⟩ := findMatchingBefore?_eq_some.mp h
  obtain ⟨behind, here⟩ := closes_at ne found
  exact ⟨behind, lt, here⟩

/-- What lies between characters of the source lies between characters of its mask. -/
theorem Masks.boundary (h : Masks source masked) (hs : Boundary source pos) :
    Boundary masked pos := by
  obtain ⟨front, back, rfl, rfl⟩ := hs
  obtain ⟨front', back', rfl, hf, -⟩ := h.split
  exact ⟨front', back', rfl, hf.size_eq⟩

/-- A body opens at `brace`; it reaches to `bodyEnd` and the construct to `stop`. -/
def Bodied (masked : Text) (limit brace bodyEnd stop : Nat) : Prop :=
  findMatchingBefore? masked brace limit '\x7b' '\x7d' = some bodyEnd ∧ stop = bodyEnd + 1 ∨
    findMatchingBefore? masked brace limit '\x7b' '\x7d' = none ∧ bodyEnd = limit ∧ stop = limit

theorem Bodied.bounds {brace bodyEnd stop : Nat} (h : Bodied masked limit brace bodyEnd stop)
    (lt : brace < limit) : brace < bodyEnd ∧ bodyEnd ≤ stop ∧ stop ≤ limit := by
  rcases h with ⟨found, rfl⟩ | ⟨-, rfl, rfl⟩
  · obtain ⟨behind, before, -⟩ := closes_before (by decide) found
    omega
  · omega

theorem Bodied.boundaries {brace bodyEnd stop : Nat} (h : Bodied masked limit brace bodyEnd stop)
    (hm : Masks source masked) (last : Boundary source limit) :
    Boundary source bodyEnd ∧ Boundary source stop := by
  rcases h with ⟨found, rfl⟩ | ⟨-, rfl, rfl⟩
  · obtain ⟨-, -, here⟩ := closes_before (by decide) found
    obtain ⟨edge, edge'⟩ := edge_at here (by decide)
    exact ⟨hm.boundary_of_edge edge, hm.boundary_of_edge edge'⟩
  · exact ⟨last, last⟩

theorem bodyEnds_safe {text : MaskedSource} (name : Text) (brace : Nat) :
    Attempt.Safe text.source (Attempt.bodyEnds text name brace limit) fun e =>
      Bodied text.masked limit brace e.1 e.2 := by
  unfold Attempt.bodyEnds
  split
  next close found => exact Attempt.Safe.pure (.inl ⟨found, rfl⟩)
  next none =>
    refine Attempt.Safe.lift_bind (Build.Safe.warn _ brace limit) fun _ _ => ?_
    exact Attempt.Safe.pure (.inr ⟨none, rfl, rfl⟩)

/-- A piece of a matched word whose two ends touch code. -/
def Firm (whole : Text) (s : Span) : Prop :=
  ∃ pre post, whole = pre ++ s.text ++ post ∧ s.start = Text.size pre ∧
    (Closes (· ≠ ' ') pre ∨ Opens (· ≠ ' ') (s.text ++ post)) ∧
    (Closes (· ≠ ' ') s.text ∨ Opens (· ≠ ' ') post)

theorem Firm.slice {whole rest : Text} {s : Span} (h : Firm whole s) (hm : Masks source masked)
    (hc : Text.slice? masked start limit = some (whole ++ rest)) :
    ∃ t, Text.slice? source (start + s.start) (start + s.stop) = some t := by
  obtain ⟨pre, post, rfl, hs, opens, ends⟩ := h
  obtain ⟨front, back, rfl, rfl, -⟩ := Text.slice?_eq_some_iff.mp hc
  refine Text.exists_slice?_iff.mpr ⟨?_, hm.boundary_of_edge ?_, hm.boundary_of_edge ?_⟩
  · rw [Span.stop]
    omega
  · have split : front ++ (pre ++ s.text ++ post ++ rest) ++ back =
        (front ++ pre) ++ ((s.text ++ post) ++ (rest ++ back)) := by simp
    rw [split, hs, ← Text.size_append]
    rcases opens with closes | opens
    · exact (closes.append _).edge
    · exact (opens.append _).edge
  · have split : front ++ (pre ++ s.text ++ post ++ rest) ++ back =
        (front ++ pre ++ s.text) ++ (post ++ (rest ++ back)) := by simp
    rw [split, Span.stop, hs, ← Nat.add_assoc, ← Text.size_append, ← Text.size_append]
    rcases ends with closes | opens
    · exact (closes.append _).edge
    · exact (opens.append _).edge

section

variable {a body c : Pattern} {w : Text} {gs : Groups} {slot offset : Nat}

/-- What a group between two patterns remembers. -/
theorem takes_group (h : Takes (a ++ (group slot body ++ c)) offset w gs) (hc : slot ∉ slots c) :
    ∃ u t v g g' g'', w = u ++ t ++ v ∧ gs.lookup slot = some ⟨offset + Text.size u, t⟩ ∧
      Takes a offset u g ∧ Takes body (offset + Text.size u) t g' ∧
      Takes c (offset + Text.size u + Text.size t) v g'' := by
  obtain ⟨u, _, g, _, rfl, rfl, hu, t, v, _, g', rfl, rfl, ⟨g'', rfl, hb⟩, hv⟩ := h
  refine ⟨u, t, v, g, g'', g', by simp, ?_, hu, hb, hv⟩
  rw [List.append_assoc, List.lookup_append, hv.lookup_eq_none hc]
  simp

/-- What an optional group between two patterns remembers, if anything. -/
theorem takes_opt_group (h : Takes (a ++ (opt (group slot body) ++ c)) offset w gs)
    (ha : slot ∉ slots a) (hc : slot ∉ slots c) {s : Span} (hs : gs.lookup slot = some s) :
    ∃ u t v g g' g'', w = u ++ t ++ v ∧ s = ⟨offset + Text.size u, t⟩ ∧
      Takes a offset u g ∧ Takes body (offset + Text.size u) t g' ∧
      Takes c (offset + Text.size u + Text.size t) v g'' := by
  obtain ⟨u, _, g, _, rfl, rfl, hu, t, v, _, g', rfl, rfl, there | ⟨rfl, rfl⟩, hv⟩ := h
  · obtain ⟨u', t', v', g, g', g'', hw, found, parts⟩ := takes_group (a := a)
      ⟨u, _, g, _, rfl, rfl, hu, t, v, _, g', rfl, rfl, there, hv⟩ hc
    exact ⟨u', t', v', g, g', g'', hw, Option.some.inj (hs.symm.trans found), parts⟩
  · simp [List.lookup_append, hv.lookup_eq_none hc, hu.lookup_eq_none ha] at hs

/-- A group between two patterns is firm if code stands inside or outside of each of its ends. -/
theorem takes_group_firm (h : Takes (a ++ (group slot body ++ c)) 0 w gs) (hc : slot ∉ slots c)
    (starts : Stops (· ≠ ' ') a ∨ Starts (· ≠ ' ') body)
    (stops : Stops (· ≠ ' ') body ∨ Starts (· ≠ ' ') c) :
    ∃ s, gs.lookup slot = some s ∧ Firm w s := by
  obtain ⟨u, t, v, _, _, _, rfl, found, hu, hb, hv⟩ := takes_group h hc
  exact ⟨_, found, u, v, rfl, by simp, starts.imp hu.closes fun h => (hb.opens h).append v,
    stops.imp hb.closes hv.opens⟩

theorem takes_opt_firm (h : Takes (a ++ (opt (group slot body) ++ c)) 0 w gs)
    (ha : slot ∉ slots a) (hc : slot ∉ slots c)
    (starts : Stops (· ≠ ' ') a ∨ Starts (· ≠ ' ') body)
    (stops : Stops (· ≠ ' ') body ∨ Starts (· ≠ ' ') c) :
    ∀ s, gs.lookup slot = some s → Firm w s := by
  intro s hs
  obtain ⟨u, t, v, _, _, _, rfl, rfl, hu, hb, hv⟩ := takes_opt_group h ha hc hs
  exact ⟨u, v, rfl, by simp, starts.imp hu.closes fun h => (hb.opens h).append v,
    stops.imp hb.closes hv.opens⟩

end

/-- A match at the start of what is looked at. -/
structure Matched (text : MaskedSource) (start limit : Nat) (p : Pattern) (m : Match)
    (rest : Text) : Prop where
  found : p.matchFront? (m.whole.text ++ rest) = some m
  code : text.code? start limit = some (m.whole.text ++ rest)
  stop : m.stop = Text.size m.whole.text
  le : start + m.stop ≤ limit
  boundary : Boundary text.masked (start + m.stop)

theorem matched {text : MaskedSource} {p : Pattern} {code : Text} {m : Match}
    (hc : text.code? start limit = some code) (h : p.matchFront? code = some m) :
    ∃ rest, Matched text start limit p m rest := by
  obtain ⟨rest, rfl, zero, -⟩ := matchFront?_takes h
  have stop : m.stop = Text.size m.whole.text := by rw [Match.stop, Span.stop, zero, Nat.zero_add]
  obtain ⟨front, back, hm, rfl, rfl⟩ := Text.slice?_eq_some_iff.mp hc
  refine ⟨rest, h, hc, stop, by rw [stop, Text.size_append]; omega, ?_⟩
  refine ⟨front ++ m.whole.text, rest ++ back, ?_, by rw [stop, Text.size_append]⟩
  rw [hm]
  simp

/-- The last character of a match, if it is a single byte. -/
theorem Matched.at?_last {text : MaskedSource} {p : Pattern} {m : Match} {rest : Text} {c : Char}
    (h : Matched text start limit p m rest) (closes : Closes (· = c) m.whole.text)
    (single : c.utf8Size = 1) :
    0 < m.stop ∧ Text.at? text.masked (start + m.stop - 1) = some c := by
  obtain ⟨r, x, hw, rfl⟩ := closes
  have size : m.stop = Text.size r + 1 := by
    rw [h.stop, hw, Text.size_append, Text.size_cons, Text.size_nil, single]
  have code : Text.slice? text.masked start limit = some (r ++ x :: rest) := by
    have whole := h.code
    rw [hw, List.append_assoc] at whole
    exact whole
  have place : start + m.stop - 1 = start + Text.size r := by omega
  rw [place]
  exact ⟨by omega, (at?_slice code).1⟩

end SourceTree.Scan
