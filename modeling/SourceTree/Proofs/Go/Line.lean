import SourceTree.Go.Line
import SourceTree.Proofs.Scan.Piece

/-!
Where Go statements end and where the next one is looked for. Every such place is a character
boundary of the source too: it is at code, just behind code, or at the end. A statement that begins
with code ends behind its start, so going on from its end makes progress.
-/

namespace SourceTree.Go

open Scan (MaskedSource Masks edge_at)
open Text (Boundary Edge Opens Closes)

variable {text : MaskedSource} {start limit pos : Nat}

/-- A character that is no blank. -/
abbrev Inked (c : Char) : Prop := Text.isBlank c = false

/-- The mask has a character at the offset that is no blank. -/
def IsCode (text : MaskedSource) (pos : Nat) : Prop :=
  ∃ c, Text.at? text.masked pos = some c ∧ Inked c

/-- At code or at the end. -/
def Ready (text : MaskedSource) (pos : Nat) : Prop := pos = text.size ∨ IsCode text pos

theorem IsCode.edge (h : IsCode text pos) : Edge text.masked pos := by
  obtain ⟨c, here, code⟩ := h
  exact (edge_at here (Text.ne_space_of_not_blank code)).1

theorem IsCode.boundary (h : IsCode text pos) (hm : Masks text.source text.masked) :
    Boundary text.source pos := hm.boundary_of_edge h.edge

theorem isCode_of_opens {front w : Text} (hm : text.masked = front ++ w)
    (h : Opens Inked w) : IsCode text (Text.size front) := by
  obtain ⟨c, r, rfl, code⟩ := h
  exact ⟨c, by rw [hm, Scan.at?_append], code⟩

theorem Ready.boundary (h : Ready text pos) (hm : Masks text.source text.masked) :
    Boundary text.source pos := by
  rcases h with rfl | code
  · exact Text.boundary_size text.source
  · exact code.boundary hm

/-- Behind blanks comes code or the end. -/
theorem exists_ready (hm : Masks text.source text.masked) (h : Boundary text.masked pos) :
    ∃ p, text.skipBlanks? pos = some p ∧ pos ≤ p ∧ Ready text p := by
  have inside : min pos (Text.size text.masked) = pos := Nat.min_eq_left h.le_size
  obtain ⟨front, rest, hs, rfl⟩ := h
  obtain ⟨lead, hl, size, -, opens⟩ := Text.trimStart_split rest
  have found : text.skipBlanks? (Text.size front) = some (Text.size front + Text.blankSize rest) := by
    rw [MaskedSource.skipBlanks?, inside, hs, Text.drop?_append]
    rfl
  have split : text.masked = (front ++ lead) ++ Text.trimStart rest := by
    rw [hs, List.append_assoc, ← hl]
  refine ⟨_, found, Nat.le_add_right _ _, ?_⟩
  rw [← size, ← Text.size_append]
  rcases opens with empty | opens
  · left
    rw [MaskedSource.size, ← hm.size_eq, split, empty, List.append_nil]
  · exact .inr (isCode_of_opens split opens)

theorem exists_goOn {stop : Nat} (hm : Masks text.source text.masked) (lt : pos < stop)
    (h : Boundary text.source stop) :
    ∃ next, goOn? text pos stop = some next ∧ stop ≤ next.1 ∧ Ready text next.1 := by
  obtain ⟨p, found, le, ready⟩ := exists_ready hm (hm.boundary h)
  have same : max stop (pos + 1) = stop := by omega
  refine ⟨⟨p, by omega⟩, ?_, le, ready⟩
  rw [goOn?]
  simp only [same, found]
  rfl

/-! ### The end of a line -/

theorem next_le {front back : Text} {c : Char} (h : Boundary (front ++ c :: back) limit)
    (lt : Text.size front < limit) : Text.size front + c.utf8Size ≤ limit := by
  obtain ⟨left, right, split, rfl⟩ := h
  obtain ⟨mid, rfl, hmid⟩ := Text.exists_between split (Nat.le_of_lt lt)
  cases mid with
  | nil => simp at lt
  | cons x mid =>
    obtain ⟨rfl, -⟩ := List.cons.inj hmid
    rw [Text.size_append, Text.size_cons]
    omega

/-- The scanner stops between two characters, no further than the limit. -/
theorem newlineFrom_bounds {masked front cs : Text} {offset : Nat} (resume : Nat)
    (hs : masked = front ++ cs) (ho : Text.size front = offset) (hl : Boundary masked limit)
    (le : offset ≤ limit) :
    offset ≤ newlineFrom limit resume offset cs ∧ newlineFrom limit resume offset cs ≤ limit ∧
      Boundary masked (newlineFrom limit resume offset cs) := by
  induction cs generalizing front resume offset with
  | nil =>
    rw [newlineFrom, Nat.min_eq_left le]
    exact ⟨Nat.le_refl _, le, front, [], hs, ho⟩
  | cons c cs ih =>
    have here : Boundary masked offset := ⟨front, c :: cs, hs, ho⟩
    have further (lt : offset < limit) (resume : Nat) :
        offset ≤ newlineFrom limit resume (offset + c.utf8Size) cs ∧
          newlineFrom limit resume (offset + c.utf8Size) cs ≤ limit ∧
          Boundary masked (newlineFrom limit resume (offset + c.utf8Size) cs) := by
      have within : offset + c.utf8Size ≤ limit := by
        rw [← ho]
        exact next_le (hs ▸ hl) (ho ▸ lt)
      have split : masked = (front ++ [c]) ++ cs := by rw [hs]; simp
      obtain ⟨le', rest⟩ := ih resume split (by simp [Text.size_append, ho]) within
      exact ⟨by omega, rest⟩
    rw [newlineFrom]
    by_cases reached : limit ≤ offset
    · rw [if_pos reached]
      exact ⟨le, Nat.le_refl _, hl⟩
    · rw [if_neg reached]
      have lt : offset < limit := by omega
      split
      · exact further lt _
      split
      · exact further lt _
      split
      · exact further lt _
      split
      · exact further lt _
      split
      · exact ⟨Nat.le_refl _, le, here⟩
      · exact further lt _

/-- A first character that ends no line belongs to the line. -/
theorem lt_newlineFrom {masked front cs : Text} {c : Char} (hs : masked = front ++ c :: cs)
    (hl : Boundary masked limit) (lt : Text.size front < limit) (hc : c ≠ '\n') :
    Text.size front < newlineFrom limit (Text.size front) (Text.size front) (c :: cs) := by
  have within : Text.size front + c.utf8Size ≤ limit := next_le (hs ▸ hl) lt
  have further (resume : Nat) :
      Text.size front < newlineFrom limit resume (Text.size front + c.utf8Size) cs := by
    have split : masked = (front ++ [c]) ++ cs := by rw [hs]; simp
    have bounds := newlineFrom_bounds resume split (by simp [Text.size_append]) hl within
    have width := c.utf8Size_pos
    omega
  rw [newlineFrom, if_neg (Nat.not_le_of_lt lt), if_neg (Nat.lt_irrefl _)]
  split
  · exact further _
  split
  · exact further _
  split
  · exact further _
  · exact further _

theorem ne_newline {c : Char} (h : Inked c) : c ≠ '\n' := by
  rintro rfl
  simp [Inked, Text.isBlank] at h

theorem size_trimEnd_pos {cs : Text} (h : Opens Inked cs) :
    0 < Text.size (Text.trimEnd cs) := by
  obtain ⟨c, r, rfl, solid⟩ := h
  obtain ⟨tail, htail, blanks, -⟩ := Text.trimEnd_split (c :: r)
  cases htrim : Text.trimEnd (c :: r) with
  | nil =>
    rw [htrim, List.nil_append] at htail
    have blank := blanks c (htail ▸ List.mem_cons_self)
    rw [solid] at blank
    exact absurd blank Bool.false_ne_true
  | cons y ys =>
    have width := y.utf8Size_pos
    rw [Text.size_cons]
    omega

/-- What is found of a line: it ends by the limit, at its start or just behind code, and behind its
start if it begins with code. -/
structure IsLine (text : MaskedSource) (start limit stop : Nat) : Prop where
  le : start ≤ stop
  stop_le : stop ≤ limit
  ends : stop = start ∨ Edge text.masked stop
  lt : start < limit → IsCode text start → start < stop

theorem exists_lineEnd (hs : Boundary text.masked start) (hl : Boundary text.masked limit)
    (le : start ≤ limit) : ∃ stop, lineEnd? text start limit = some stop ∧
      IsLine text start limit stop := by
  obtain ⟨front, rest, split, rfl⟩ := hs
  let newline := newlineFrom limit (Text.size front) (Text.size front) rest
  have bounds : Text.size front ≤ newline ∧ newline ≤ limit ∧ Boundary text.masked newline :=
    newlineFrom_bounds _ split rfl hl le
  obtain ⟨code, hc⟩ : ∃ code, text.code? (Text.size front) newline = some code :=
    Text.exists_slice?_iff.mpr ⟨bounds.1, ⟨front, rest, split, rfl⟩, bounds.2.2⟩
  obtain ⟨tail, htail, -, closes⟩ := Text.trimEnd_split code
  obtain ⟨front', back, hm, hf, hsize⟩ := Text.slice?_eq_some_iff.mp hc
  have same : front' = front ∧ code ++ back = rest := by
    have cut : front' ++ (code ++ back) = front ++ rest := by rw [← split, hm, List.append_assoc]
    exact Text.cut_unique cut hf
  obtain ⟨rfl, hrest⟩ := same
  have size : Text.size code = Text.size (Text.trimEnd code) + Text.size tail := by
    rw [← Text.size_append, ← htail]
  refine ⟨Text.size front' + Text.size (Text.trimEnd code), ?_, ?_, ?_, ?_, ?_⟩
  · rw [lineEnd?, split, Text.drop?_append]
    have hc' : text.code? (Text.size front')
        (newlineFrom limit (Text.size front') (Text.size front') rest) = some code := hc
    simp only [Option.bind_eq_bind, Option.bind_some, hc']
    rfl
  · exact Nat.le_add_right ..
  · have := bounds.2.1
    omega
  · rcases closes with empty | closes
    · left
      rw [empty, Text.size_nil, Nat.add_zero]
    · right
      have edge : Edge ((front' ++ Text.trimEnd code) ++ (tail ++ back))
          (Text.size (front' ++ Text.trimEnd code)) :=
        ((closes.mono fun _ => Text.ne_space_of_not_blank).append front').edge
      rwa [Text.size_append, List.append_assoc, ← List.append_assoc _ tail, ← htail,
        ← List.append_assoc, ← hm] at edge
  · rintro lt ⟨c, here, solid⟩
    obtain ⟨left, right, hat, hleft⟩ := Text.at?_eq_some here
    obtain ⟨-, hcons⟩ := Text.cut_unique (hat.symm.trans split) hleft
    have behind : Text.size front' < newline := by
      have first : text.masked = front' ++ c :: right := by rw [split, hcons]
      have := lt_newlineFrom first hl lt (ne_newline solid)
      rwa [hcons] at this
    have opens : Opens Inked code := by
      cases code with
      | nil => simp at hsize; omega
      | cons x xs =>
        rw [← hrest] at hcons
        exact ⟨x, xs, rfl, (List.cons.inj hcons).1 ▸ solid⟩
    have := size_trimEnd_pos opens
    omega

theorem IsLine.boundary {stop : Nat} (h : IsLine text start limit stop)
    (hm : Masks text.source text.masked) (hs : Boundary text.source start) :
    Boundary text.source stop := by
  rcases h.ends with rfl | edge
  · exact hs
  · exact hm.boundary_of_edge edge

/-! ### The body of a function -/

theorem bodyOpenFrom_opens {masked front cs passed : Text} {resume offset brace : Nat}
    (hs : masked = front ++ cs) (ho : Text.size front = offset)
    (h : bodyOpenFrom limit resume offset passed cs = some brace) :
    offset ≤ brace ∧ Text.at? masked brace = some '\x7b' := by
  induction cs generalizing front resume offset passed with
  | nil => simp [bodyOpenFrom] at h
  | cons c cs ih =>
    have further {resume : Nat} {passed : Text}
        (h : bodyOpenFrom limit resume (offset + c.utf8Size) passed cs = some brace) :
        offset ≤ brace ∧ Text.at? masked brace = some '\x7b' := by
      have split : masked = (front ++ [c]) ++ cs := by rw [hs]; simp
      obtain ⟨le, opens⟩ := ih split (by simp [Text.size_append, ho]) h
      exact ⟨by omega, opens⟩
    rw [bodyOpenFrom] at h
    split at h
    · simp at h
    split at h
    · exact further h
    split at h
    · exact further h
    split at h
    · exact further h
    split at h
    next opens =>
      split at h
      · exact further h
      · obtain rfl : offset = brace := by simpa using h
        refine ⟨Nat.le_refl _, ?_⟩
        rw [hs, ← ho, Scan.at?_append, opens]
    next =>
      split at h
      · simp at h
      · exact further h

theorem exists_bodyOpen (hs : Boundary text.masked start) :
    ∃ body, bodyOpen? text start = some body ∧
      ∀ brace, body = some brace → start ≤ brace ∧ Text.at? text.masked brace = some '\x7b' := by
  obtain ⟨front, rest, split, rfl⟩ := hs
  refine ⟨bodyOpenFrom text.size (Text.size front) (Text.size front) [] rest, ?_, ?_⟩
  · rw [bodyOpen?, split, Text.drop?_append]
    rfl
  · intro brace found
    exact bodyOpenFrom_opens split rfl found

end SourceTree.Go
