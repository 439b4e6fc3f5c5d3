import SourceTree.Go.Tree
import SourceTree.Proofs.Go.Line
import SourceTree.Proofs.Pattern.Choice

/-!
The shapes of Go declarations: with which characters what they match begins and ends, and which of
its pieces can be cut out of the source.
-/

namespace SourceTree.Go

open Pattern
open Scan (Firm Masks takes_group takes_opt_group takes_group_firm takes_opt_firm)
open Text (Boundary Opens Closes)

theorem inked_of_isWord {c : Char} (h : Text.isWord c = true) : Inked c := by
  rw [Inked, Bool.eq_false_iff]
  intro blank
  rw [Text.not_isWord_of_isBlank blank] at h
  exact Bool.false_ne_true h

theorem inked_ne_space (c : Char) (h : Inked c) : c ≠ ' ' := Text.ne_space_of_not_blank h

theorem starts_name : Starts Inked name :=
  (starts_one fun _ hc => inked_of_isWord (Text.isWord_of_isNameStart hc)).append

theorem stops_name : Stops Inked name := by
  have first : Stops Inked (one Text.isNameStart) :=
    stops_one fun _ hc => inked_of_isWord (Text.isWord_of_isNameStart hc)
  exact first.append_star (stops_one fun _ hc => inked_of_isWord hc)

theorem starts_bracketed : Starts (· ≠ ' ') bracketed := (starts_lit (by decide)).append.append

theorem stops_bracketed : Stops (· ≠ ' ') bracketed := (stops_lit (by decide)).append

/-- A pattern that ends with blanks leaves none behind. -/
theorem matchFront?_blanks {p : Pattern} {cs : Text} {m : Match}
    (h : (p ++ blanks).matchFront? cs = some m) :
    ∃ rest, cs = m.whole.text ++ rest ∧ (rest = [] ∨ Opens Inked rest) := by
  obtain ⟨⟨d, gs⟩, hrun, rfl⟩ := Option.map_eq_some_iff.mp h
  obtain ⟨u, g, c, hu, -, -, hk⟩ := run_takes (p := p) hrun
  obtain ⟨w, rest, hw, -, hd, longest⟩ := run_star_one_some hk
  have same : c.past w = d := (Prod.mk.inj (Option.some.inj hd)).1
  have hrest : d.rest = rest := same ▸ Cursor.rest_past hw
  have whole : (Cursor.ofText cs).rest = (u ++ w) ++ d.rest := by
    rw [hu, hw, hrest, List.append_assoc]
  refine ⟨rest, ?_, ?_⟩
  · simp only [spanTo_eq whole]
    rw [← hrest]
    exact whole
  · cases rest with
    | nil => exact .inl rfl
    | cons x rest =>
      refine .inr ⟨x, rest, rfl, ?_⟩
      rw [Inked, Bool.eq_false_iff]
      intro blank
      -- One more blank could have been taken, and nothing had to follow it.
      have none := longest [x] rest rfl (by simp) (by simpa using blank)
      simp at none

/-- A pattern that ends at the end takes everything. -/
theorem matchFront?_atEnd {p : Pattern} {cs : Text} {m : Match}
    (h : (p ++ atEnd).matchFront? cs = some m) : m.whole.text = cs := by
  obtain ⟨⟨d, gs⟩, hrun, rfl⟩ := Option.map_eq_some_iff.mp h
  obtain ⟨u, g, c, hu, -, -, hk⟩ := run_takes (p := p) hrun
  obtain ⟨empty, hd⟩ := run_atEnd_some hk
  obtain rfl : c = d := (Prod.mk.inj (Option.some.inj hd)).1
  simp only [spanTo_eq hu]
  rw [empty, List.append_nil] at hu
  exact hu.symm

theorem packageClause_match {cs : Text} {m : Match} (h : packageClause.matchFront? cs = some m) :
    Closes Inked m.whole.text := by
  obtain ⟨-, -, -, ht⟩ := matchFront?_takes h
  exact ht.closes (Stops.append (b := group 1 name) stops_name)

theorem importSpec_match {cs : Text} {m : Match} (h : importSpec.matchFront? cs = some m) :
    m.whole.text ≠ [] := by
  obtain ⟨-, -, -, ht⟩ := matchFront?_takes h
  exact ht.ne_nil (stops_lit (P := (· ≠ ' ')) (by decide)).append.1

theorem funcHeader_match {cs : Text} {m : Match} (h : funcHeader.matchFront? cs = some m) :
    Closes (· = '(') m.whole.text ∧ (∀ s, m.group? 1 = some s → Firm m.whole.text s) ∧
      ∀ s, m.group? 3 = some s → Firm m.whole.text s := by
  obtain ⟨-, -, -, ht⟩ := matchFront?_takes h
  refine ⟨ht.closes (stops_lit (by decide)).append, ?_, ?_⟩
  · intro s hs
    rw [funcHeader, takes_assoc, takes_assoc, takes_assoc, takes_assoc, takes_assoc] at ht
    obtain ⟨u, _, g, _, hw, hg, hu, t, v, _, g', rfl, rfl, there | ⟨rfl, rfl⟩, hv⟩ := ht
    · rw [takes_assoc, takes_assoc] at there
      obtain ⟨left, inner, right, _, _, _, rfl, found, hl, hi, hr⟩ :=
        takes_group there (by decide)
      have none : g'.lookup 1 = none := hv.lookup_eq_none (by decide)
      have same : s = ⟨0 + Text.size u + Text.size left, inner⟩ := by
        rw [Match.group?, hg, List.append_assoc, List.lookup_append, none, Option.none_or,
          List.lookup_append, found, Option.some_or] at hs
        exact (Option.some.inj hs).symm
      have before := hl.closes (P := (· ≠ ' ')) (stops_lit (by decide))
      have behind := hr.opens (P := (· ≠ ' ')) (starts_lit (by decide)).append
      refine ⟨u ++ left, right ++ v, by rw [hw, same]; simp, by rw [same, Text.size_append]; simp,
        .inl (before.append u), .inr (behind.append v)⟩
    · rw [Match.group?, hg, List.append_nil, List.lookup_append,
        hv.lookup_eq_none (by decide), hu.lookup_eq_none (by decide)] at hs
      simp at hs
  · rw [funcHeader, takes_assoc, takes_assoc] at ht
    exact takes_opt_firm ht (by decide) (by decide) (.inr starts_bracketed) (.inl stops_bracketed)

/-- A name in front, and perhaps brackets behind it. -/
theorem typeSpec_match {cs : Text} {m : Match} (h : typeSpec.matchFront? cs = some m) :
    Opens Inked m.whole.text ∧ (∃ rest, cs = m.whole.text ++ rest ∧ (rest = [] ∨ Opens Inked rest)) ∧
      ∀ s, m.group? 2 = some s → Firm m.whole.text s ∧ 0 < s.start ∧
        s.stop ≤ Text.size m.whole.text := by
  obtain ⟨-, -, -, ht⟩ := matchFront?_takes h
  have named : Starts Inked (group 1 name) := starts_name
  refine ⟨ht.opens named.append.append.append.append.append, matchFront?_blanks h, ?_⟩
  intro s hs
  rw [typeSpec, takes_assoc, takes_assoc, takes_assoc] at ht
  have firm := takes_opt_firm ht (by decide) (by decide) (.inr starts_bracketed)
    (.inl stops_bracketed) s hs
  obtain ⟨u, t, v, _, _, _, hw, rfl, hu, -, -⟩ := takes_opt_group ht (by decide) (by decide) hs
  obtain ⟨c, r, rfl, -⟩ := hu.opens (Starts.append named)
  have width := c.utf8Size_pos
  refine ⟨firm, ?_, ?_⟩
  · simp only [Text.size_cons]
    omega
  · rw [hw, Text.size_append, Text.size_append, Span.stop]
    simp only
    omega

theorem nameList_match {cs : Text} {m : Match} (h : nameList.matchFront? cs = some m) :
    m.whole.text ≠ [] := by
  obtain ⟨-, -, -, ht⟩ := matchFront?_takes h
  exact ht.ne_nil starts_name.append.1

/-- The type of a field reaches to the end of the line and begins with code. -/
theorem field_match {cs : Text} {m : Match} (h : field.matchFront? cs = some m) :
    ∃ pre t, m.group? 2 = some ⟨Text.size pre, t⟩ ∧ cs = pre ++ t ∧
      Opens (fun c => Inked c ∧ c ≠ '\x60') t := by
  have all := matchFront?_atEnd h
  obtain ⟨-, -, -, ht⟩ := matchFront?_takes h
  rw [field, takes_assoc] at ht
  obtain ⟨u, t, v, _, _, _, hw, found, -, hb, hv⟩ := takes_group ht (by decide)
  obtain ⟨rfl, -⟩ : v = [] ∧ _ := hv
  have first : Starts (fun c => Inked c ∧ c ≠ '\x60')
      (one fun c => !Text.isBlank c && c != '\x60') := by
    refine starts_one ?_
    intro c hc
    simpa [Inked] using hc
  refine ⟨u, t, ?_, ?_, hb.opens first.append⟩
  · rw [Match.group?, found, Nat.zero_add]
  · rw [← all, hw, List.append_nil]

/-- The keyword that opens a declaration stands where its offset says. -/
theorem declaration_keyword {masked : Text} {m : Match} {s : Span}
    (h : m ∈ declaration.findAll masked) (hs : m.group? 1 = some s) :
    ∃ front back, masked = front ++ s.text ++ back ∧ s.start = Text.size front ∧
      Opens Inked s.text := by
  obtain ⟨front, back, hm, hstart, ht⟩ := findAll_takes h
  rw [declaration, takes_assoc] at ht
  obtain ⟨u, t, v, _, _, _, hw, found, -, hb, -⟩ := takes_group ht (by decide)
  obtain rfl : s = ⟨m.whole.start + Text.size u, t⟩ := Option.some.inj (hs.symm.trans found)
  refine ⟨front ++ u, v ++ back, by rw [hm, hw]; simp, ?_, ?_⟩
  · rw [hstart, Text.size_append, Nat.zero_add]
  · exact hb.opens (starts_words (by decide) (by decide))

end SourceTree.Go
