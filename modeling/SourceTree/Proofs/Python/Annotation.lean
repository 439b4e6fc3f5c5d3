import SourceTree.Proofs.Pattern.Choice
import SourceTree.Proofs.Pattern.Word
import SourceTree.Proofs.Scan.Mask
import SourceTree.Python.Pattern

/-!
Where the patterns of assignments and annotations find the type of a name. In an assignment the type
begins and ends next to code. In an annotation without a value it may be the last blank of the line,
and the place of that blank need not be a place between two characters of the source.
-/

namespace SourceTree.Python

open Pattern
open Text (Opens Closes)

/-- A letter or underscore followed by word characters. -/
def IsName (w : Text) : Prop :=
  ∃ c r, w = c :: r ∧ Text.isNameStart c = true ∧ ∀ x ∈ r, Text.isWord x = true

/-- Blanks only. -/
def IsBlank (w : Text) : Prop := ∀ c ∈ w, Text.isBlank c = true

variable {c d : Cursor} {gs : Groups} {offset : Nat} {w : Text} {r : Cursor × Groups}

/-- What is left to do when a pattern has succeeded. -/
def final : Continuation := fun d gs => some (d, gs)

theorem takes_target (h : Takes (group 1 name ++ blanks) offset w gs) :
    ∃ word gap, w = word ++ gap ∧ IsName word ∧ IsBlank gap ∧ gs = [(1, ⟨offset, word⟩)] := by
  obtain ⟨word, gap, g, g', rfl, rfl, ⟨g'', rfl, hn⟩, hb⟩ := h
  obtain ⟨blank, rfl⟩ := takes_star_one hb
  obtain ⟨u, v, g₁, g₂, rfl, rfl, ⟨x, rfl, hx, rfl⟩, hv⟩ := hn
  obtain ⟨words, rfl⟩ := takes_star_one hv
  exact ⟨x :: v, gap, rfl, ⟨x, v, rfl, hx, words⟩, blank, rfl⟩

/-- The type of an annotation without a value: all up to the end. -/
def loneType : Pattern := group 2 (plus (noneOf ['=']))

theorem noneOf_equals {cs : Text} (plain : '=' ∉ cs) :
    ∀ y ∈ cs, (! ['='].contains y) = true := by
  intro y hy
  have ne : y ≠ '=' := by
    rintro rfl
    exact plain hy
  simp [ne]

theorem run_loneType_isSome (full : d.rest ≠ []) (plain : '=' ∉ d.rest) :
    (run loneType d gs fun e hs => run atEnd e hs final).isSome := by
  obtain ⟨x, rest, hd⟩ := List.exists_cons_of_ne_nil full
  have kind := noneOf_equals (hd ▸ plain)
  change (run (one _) d gs fun e hs => run (many true (one _)) e hs _).isSome
  rw [run_one_cons hd, if_pos (kind x (by simp))]
  have next : (d.past [x]).rest = rest := Cursor.rest_past (u := [x]) hd
  refine run_many_one_isSome rest [] (by simpa using next)
    (fun y hy => kind y (by simp [hy])) ?_
  have done : ((d.past [x]).past rest).rest = [] := Cursor.rest_past (by simpa using next)
  simp [run, done, final]

theorem match_of_front {p : Pattern} {cs : Text} {m : Match} (h : p.matchFront? cs = some m) :
    ∃ d, run p (Cursor.ofText cs) [] final = some (d, m.groups) := by
  obtain ⟨⟨d, gs⟩, hrun, rfl⟩ := Option.map_eq_some_iff.mp h
  exact ⟨d, hrun⟩

/-- An annotation without a value: behind the colon and blanks comes a type that reaches to the end.
It begins with code, unless blanks are all there is; then it is the last of them. -/
theorem annotatedName_match {code : Text} {m : Match} (h : annotatedName.matchFront? code = some m) :
    ∃ word gap lead type, code = word ++ gap ++ ':' :: (lead ++ type) ∧
      IsName word ∧ IsBlank gap ∧ IsBlank lead ∧
      (Opens (fun c => Text.isBlank c = false) type ∨ ∃ b, type = [b] ∧ Text.isBlank b = true) ∧
      m.group? 1 = some ⟨0, word⟩ ∧
      m.group? 2 = some ⟨Text.size (word ++ gap ++ ':' :: lead), type⟩ := by
  obtain ⟨d, h⟩ := match_of_front h
  change run (group 1 name ++ blanks) _ _ (fun d hs => run (lit ":") d hs fun d hs =>
    run blanks d hs fun d hs => run loneType d hs fun d hs => run atEnd d hs final) = _ at h
  obtain ⟨w, g, d₁, hw, ho, ht, h⟩ := run_takes h
  obtain ⟨word, gap, rfl, hn, hg, rfl⟩ := takes_target ht
  obtain ⟨w, g, d₂, hw₂, ho₂, ht, h⟩ := run_takes h
  obtain ⟨rfl, rfl⟩ := takes_lit ht
  obtain ⟨lead, rest, hl, blank, h, longest⟩ := run_star_one_some h
  obtain ⟨type, g, d₃, hd, ho₃, ⟨g', rfl, ht⟩, h⟩ := run_takes h
  obtain ⟨full, plain, rfl⟩ := takes_plus_one ht
  obtain ⟨stop, hm⟩ := run_atEnd_some h
  have hr : rest = type := by
    rw [Cursor.rest_past hl, stop, List.append_nil] at hd
    exact hd
  subst hr
  have place : (d₂.past lead).offset = Text.size (word ++ gap ++ ':' :: lead) := by
    simp only [Cursor.past, ho₂, ho, Cursor.ofText, Text.size_append, Text.size_cons]
    simp
    omega
  have groups : m.groups = [(2, ⟨Text.size (word ++ gap ++ ':' :: lead), rest⟩), (1, ⟨0, word⟩)] := by
    have eq := (Prod.mk.inj (Option.some.inj hm)).2
    rw [← eq, place]
    rfl
  refine ⟨word, gap, lead, rest, ?_, hn, hg, blank, ?_, ?_, ?_⟩
  · have whole : code = word ++ gap ++ d₁.rest := hw
    rw [whole, hw₂, hl]
    rfl
  · obtain ⟨x, v, rfl⟩ := List.exists_cons_of_ne_nil full
    by_cases hx : Text.isBlank x = true
    · -- A further blank would have been skipped, had anything been left behind it.
      refine .inr ⟨x, ?_, hx⟩
      cases v with
      | nil => rfl
      | cons y v =>
        have behind : (d₂.past (lead ++ [x])).rest = y :: v := Cursor.rest_past (by simpa using hl)
        have noEquals : '=' ∉ (d₂.past (lead ++ [x])).rest := by
          rw [behind]
          intro mem
          exact absurd (plain '=' (List.mem_cons_of_mem x mem)) (by decide)
        have none := longest [x] (y :: v) rfl (by simp) (by simpa using hx)
        rw [← Option.not_isSome_iff_eq_none] at none
        exact absurd (run_loneType_isSome (by simp [behind]) noEquals) none
    · exact .inl ⟨x, v, rfl, by simpa using hx⟩
  · rw [Match.group?, groups]
    rfl
  · rw [Match.group?, groups]
    rfl

/-- The value of an assignment with its equals sign. -/
def assigned : Pattern :=
  lit "=" ++ blanks ++ group 3 (noneOf ['='] ++ star anything) ++ atEnd

/-- What follows the type in an assignment. -/
def valued : Continuation := fun d hs => run blanks d hs fun d hs => run assigned d hs final

theorem assigned_isSome_groups (d : Cursor) (gs gs' : Groups) :
    (run assigned d gs final).isSome = (run assigned d gs' final).isSome := by
  have same (d : Cursor) (hs hs' : Groups) : (final d hs).isSome = (final d hs').isSome := rfl
  exact run_isSome_groups assigned same d gs gs'

theorem valued_isSome (gap rest : Text) (hd : d.rest = gap ++ rest) (blank : IsBlank gap)
    (h : (run assigned (d.past gap) gs final).isSome) : (valued d gs).isSome := by
  unfold valued blanks Pattern.star
  exact run_many_one_isSome gap rest hd blank h

theorem valued_some (h : valued d gs = some r) : ∃ gap rest, d.rest = gap ++ '=' :: rest ∧
    IsBlank gap ∧ (∀ hs, (run assigned (d.past gap) hs final).isSome) ∧
    ∃ value, r.2 = (3, value) :: gs := by
  unfold valued at h
  obtain ⟨gap, rest, hd, blank, h, -⟩ := run_star_one_some h
  have some : (run assigned (d.past gap) gs final).isSome := by rw [h]; rfl
  obtain ⟨w, g, e, hw, -, ht, hr⟩ := run_takes h
  obtain ⟨u, v, g₁, g₂, rfl, rfl, ht, ⟨rfl, rfl⟩⟩ := ht
  obtain ⟨u, v, g₁, g₂, rfl, rfl, ht, ⟨g, rfl, hv⟩⟩ := ht
  obtain ⟨u, blank', g₁, g₂, rfl, rfl, ht, hb⟩ := ht
  obtain ⟨rfl, rfl⟩ := takes_lit ht
  obtain ⟨-, rfl⟩ := takes_star_one hb
  obtain rfl := hv.silent rfl
  refine ⟨gap, blank' ++ v ++ e.rest, ?_, blank, ?_, ?_⟩
  · rw [Cursor.rest_past hd] at hw
    rw [hd, hw]
    simp
  · intro hs
    rw [assigned_isSome_groups _ hs gs]
    exact some
  · rw [← Option.some.inj hr]
    exact ⟨_, rfl⟩

/-- The type of an assignment. -/
def shortType : Pattern := group 2 (fewestPlus (noneOf ['=']))

theorem run_shortType_isSome {x : Char} {v rest : Text} (hd : d.rest = x :: v ++ rest)
    (plain : '=' ∉ x :: v) (h : ∀ hs, (valued (d.past (x :: v)) hs).isSome) :
    (run shortType d gs valued).isSome := by
  have kind := noneOf_equals plain
  change (run (one _) d gs fun e hs => run (many false (one _)) e hs _).isSome
  rw [run_one_cons hd, if_pos (kind x (by simp))]
  have next : (d.past [x]).rest = v ++ rest := Cursor.rest_past (u := [x]) hd
  refine run_many_one_isSome v rest next (fun y hy => kind y (by simp [hy])) ?_
  rw [Cursor.past_past]
  exact h _

/-- Behind the type of a successful assignment come blanks and the equals sign, and nowhere sooner
could the rest have succeeded. -/
theorem run_shortType_ends {e : Cursor} (h : run shortType e gs valued = some r) :
    ∃ x w gap rest value, e.rest = x :: w ++ (gap ++ '=' :: rest) ∧ '=' ∉ x :: w ∧ IsBlank gap ∧
      (∀ hs, (run assigned (e.past (x :: w ++ gap)) hs final).isSome) ∧
      r.2 = (3, value) :: (2, ⟨e.offset, x :: w⟩) :: gs ∧
      ∀ v v', w = v ++ v' → v' ≠ [] → ¬∀ hs, (valued (e.past (x :: v)) hs).isSome := by
  change run (one _) e gs (fun f hs => run (fewest (one _)) f hs
    fun f hs => valued f ((2, e.spanTo f) :: hs)) = some r at h
  cases he : e.rest with
  | nil => simp [run, he] at h
  | cons x more =>
    rw [run_one_cons he] at h
    split at h
    next hq =>
      obtain ⟨w, rest, hw, hqw, h, shortest⟩ := run_fewest_one_some h
      rw [Cursor.rest_past (u := [x]) he] at hw
      rw [Cursor.past_past] at h
      have whole : e.rest = x :: w ++ rest := by rw [he, hw]; rfl
      have behind : (e.past (x :: w)).rest = rest := Cursor.rest_past whole
      have span : e.spanTo (e.past ([x] ++ w)) = ⟨e.offset, x :: w⟩ :=
        spanTo_eq (by rw [List.singleton_append, behind, whole])
      rw [span] at h
      obtain ⟨gap, rest', hg, blank, some, value, hr⟩ := valued_some h
      rw [List.singleton_append, behind] at hg
      refine ⟨x, w, gap, rest', value, by rw [hw, hg]; rfl, ?_, blank, ?_, hr, ?_⟩
      · intro mem
        rcases List.mem_cons.mp mem with rfl | mem
        · exact absurd hq (by decide)
        · exact absurd (hqw '=' mem) (by decide)
      · intro hs
        have far := some hs
        rwa [Cursor.past_past] at far
      · intro v v' hv full ends
        have none := shortest v v' hv full
        rw [Cursor.past_past, ← Option.not_isSome_iff_eq_none] at none
        exact none (ends _)
    next => simp at h

section

variable {e : Cursor} {x : Char} {gap rest : Text}

/-- If no type could begin one character later, there is nothing between that character and the
equals sign. -/
theorem nil_of_run_shortType_none (whole : e.rest = x :: w ++ (gap ++ '=' :: rest))
    (plain : '=' ∉ x :: w) (blank : IsBlank gap)
    (some : ∀ hs, (run assigned (e.past (x :: w ++ gap)) hs final).isSome)
    (h : run shortType (e.past [x]) gs valued = none) : w = [] ∧ gap = [] := by
  rw [← Option.not_isSome_iff_eq_none] at h
  have next : (e.past [x]).rest = w ++ (gap ++ '=' :: rest) := Cursor.rest_past (u := [x]) whole
  cases w with
  | cons y v =>
    refine absurd (run_shortType_isSome next (fun mem => plain (by simp [mem])) fun hs => ?_) h
    rw [Cursor.past_past]
    refine valued_isSome gap ('=' :: rest) (Cursor.rest_past whole) blank ?_
    rw [Cursor.past_past]
    exact some hs
  | nil =>
    cases gap with
    | nil => exact ⟨rfl, rfl⟩
    | cons y gap =>
      have hy : Text.isBlank y = true := blank y (by simp)
      have ne : '=' ∉ [y] := by
        intro mem
        rw [← List.mem_singleton.mp mem] at hy
        exact absurd hy (by decide)
      refine absurd (run_shortType_isSome (v := []) next ne fun hs => ?_) h
      rw [Cursor.past_past]
      have behind : (e.past ([x] ++ [y])).rest = gap ++ '=' :: rest := Cursor.rest_past whole
      refine valued_isSome gap ('=' :: rest) behind (fun z hz => blank z (by simp [hz])) ?_
      rw [Cursor.past_past]
      exact some hs

/-- A type that begins with code and stops as soon as it can ends with code. -/
theorem closes_of_shortest {w : Text} (whole : e.rest = x :: w ++ (gap ++ '=' :: rest))
    (blank : IsBlank gap) (some : ∀ hs, (run assigned (e.past (x :: w ++ gap)) hs final).isSome)
    (shortest : ∀ v v', w = v ++ v' → v' ≠ [] → ¬∀ hs, (valued (e.past (x :: v)) hs).isSome)
    (solid : Text.isBlank x = false) : Closes (fun c => Text.isBlank c = false) (x :: w) := by
  rcases List.eq_nil_or_concat w with rfl | ⟨v, y, rfl⟩
  · exact ⟨[], x, rfl, solid⟩
  · refine ⟨x :: v, y, by simp, ?_⟩
    apply Bool.eq_false_iff.mpr
    intro hy
    -- The type would have stopped in front of the blank.
    refine shortest v [y] (by simp) (by simp) fun hs => ?_
    refine valued_isSome (y :: gap) ('=' :: rest) (Cursor.rest_past (by rw [whole]; simp)) ?_ ?_
    · intro z hz
      rcases List.mem_cons.mp hz with rfl | hz
      · exact hy
      · exact blank z hz
    · have far := some hs
      rw [Cursor.past_past]
      simpa using far

end

theorem run_shortType_some {e : Cursor} (h : run shortType e gs valued = some r)
    (longest : ∀ v v', e.rest = v ++ v' → v ≠ [] → IsBlank v →
      run shortType (e.past v) gs valued = none) :
    ∃ type rest value, e.rest = type ++ rest ∧ r.2 = (3, value) :: (2, ⟨e.offset, type⟩) :: gs ∧
      (Opens (fun c => Text.isBlank c = false) type ∧ Closes (fun c => Text.isBlank c = false) type ∨
        ∃ x rest', type = [x] ∧ rest = '=' :: rest') := by
  obtain ⟨x, w, gap, rest, value, whole, plain, blank, some, groups, shortest⟩ :=
    run_shortType_ends h
  refine ⟨x :: w, gap ++ '=' :: rest, value, whole, groups, ?_⟩
  by_cases hx : Text.isBlank x = true
  · have none := longest [x] (w ++ (gap ++ '=' :: rest)) (by simpa using whole) (by simp)
      (by simpa [IsBlank] using hx)
    obtain ⟨rfl, rfl⟩ := nil_of_run_shortType_none whole plain blank some none
    exact .inr ⟨x, rest, rfl, rfl⟩
  · have solid : Text.isBlank x = false := by simpa using hx
    exact .inl ⟨⟨x, w, rfl, solid⟩, closes_of_shortest whole blank some shortest solid⟩

/-- The type that an assignment remembers stands in the code, set off by code at both ends, or it is
one blank in front of the equals sign. -/
theorem assignment_type {code : Text} {m : Match} {type : Span}
    (h : assignment.matchFront? code = some m) (ht : m.group? 2 = some type) :
    ∃ front rest, code = front ++ type.text ++ rest ∧ Text.size front = type.start ∧
      (Opens (fun c => Text.isBlank c = false) type.text ∧
          Closes (fun c => Text.isBlank c = false) type.text ∨
        ∃ x rest', type.text = [x] ∧ rest = '=' :: rest') := by
  obtain ⟨d, h⟩ := match_of_front h
  change run (group 1 name ++ blanks) _ _ (fun d hs =>
    run (opt (lit ":" ++ blanks ++ shortType)) d hs valued) = _ at h
  obtain ⟨w, g, d₁, hw, ho, hn, h⟩ := run_takes h
  obtain ⟨word, gap, rfl, -, -, rfl⟩ := takes_target hn
  rw [opt, run, Option.orElse_eq_or] at h
  rcases Option.or_eq_some_iff.mp h with h | ⟨-, h⟩
  · change run (lit ":") _ _ (fun d hs => run blanks d hs fun d hs => run shortType d hs valued) = _
      at h
    obtain ⟨w, g, d₂, hw₂, ho₂, hc, h⟩ := run_takes h
    obtain ⟨rfl, rfl⟩ := takes_lit hc
    obtain ⟨lead, rest, hl, -, h, longest⟩ := run_star_one_some h
    have behind : (d₂.past lead).rest = rest := Cursor.rest_past hl
    obtain ⟨text, rest', value, hr, groups, shape⟩ := run_shortType_some h (by
      intro v v' hv full blank
      rw [Cursor.past_past]
      exact longest v v' (behind.symm.trans hv) full blank)
    have found : m.group? 2 = some ⟨(d₂.past lead).offset, text⟩ := by
      change m.groups = _ at groups
      rw [Match.group?, groups]
      rfl
    obtain rfl := Option.some.inj (ht.symm.trans found)
    refine ⟨word ++ gap ++ ':' :: lead, rest', ?_, ?_, shape⟩
    · have whole : code = word ++ gap ++ d₁.rest := hw
      rw [whole, hw₂, hl, ← behind, hr]
      simp
    · simp only [Cursor.past, ho₂, ho, Cursor.ofText, Text.size_append, Text.size_cons]
      simp
      omega
  · rw [run] at h
    obtain ⟨-, -, -, -, -, value, groups⟩ := valued_some h
    change m.groups = _ at groups
    rw [Match.group?, groups] at ht
    exact absurd ht (by simp [List.lookup_cons])

end SourceTree.Python
