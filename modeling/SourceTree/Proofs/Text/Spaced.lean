import SourceTree.Proofs.Text.Edge
import SourceTree.Text.Split

/-!
Texts that are words with blanks in between. If no word holds a blank then the text tells which words
they are. Trimming takes the blanks from the ends, and splitting cuts at a separator.
-/

namespace SourceTree.Text

/-- Blanks that set words off. -/
structure Gap (g : Text) : Prop where
  nonempty : g ≠ []
  blank : ∀ c ∈ g, isBlank c = true

theorem not_isBlank_of_isWord {c : Char} (h : isWord c = true) : isBlank c = false := by
  cases blank : isBlank c with
  | false => rfl
  | true =>
    rw [not_isWord_of_isBlank blank] at h
    cases h

/-- What is said of the characters of a text is decided over these, not over all characters. -/
instance (priority := 2000) decidableForallMem {w : List Char} {p : Char → Prop} [DecidablePred p] :
    Decidable (∀ c ∈ w, p c) :=
  List.decidableBAll p w

instance (priority := 2000) decidableExistsMem {w : List Char} {p : Char → Prop} [DecidablePred p] :
    Decidable (∃ c ∈ w, p c) :=
  List.decidableBEx p w

/-- A word without blanks. -/
structure Solid (w : Text) : Prop where
  nonempty : w ≠ []
  inked : ∀ c ∈ w, isBlank c = false

/-- The text is these words, with blanks between neighbours. -/
inductive Spaced : List Text → Text → Prop where
  | nil : Spaced [] []
  | last (w : Text) : Spaced [w] w
  | cons {w g v rest : Text} {ws : List Text} :
      Gap g → Spaced (v :: ws) rest → Spaced (w :: v :: ws) (w ++ (g ++ rest))

section

variable {w g t u v front back : Text} {ws vs : List Text} {c : Char} {p : Char → Bool}

theorem Gap.opens (h : Gap g) : Opens (fun c => isBlank c = true) g := by
  cases g with
  | nil => exact absurd rfl h.nonempty
  | cons c g => exact ⟨c, g, rfl, h.blank c (by simp)⟩

theorem solid_of_words (full : w ≠ []) (words : ∀ c ∈ w, isWord c = true) : Solid w :=
  ⟨full, fun c hc => not_isBlank_of_isWord (words c hc)⟩

theorem Solid.opens (h : Solid w) : Opens (fun c => isBlank c = false) w := by
  cases w with
  | nil => exact absurd rfl h.nonempty
  | cons c w => exact ⟨c, w, rfl, h.inked c (by simp)⟩

theorem Solid.closes (h : Solid w) : Closes (fun c => isBlank c = false) w := by
  obtain ⟨init, c, rfl⟩ := List.eq_nil_or_concat w |>.resolve_left h.nonempty
  exact ⟨init, c, by simp, h.inked c (by simp)⟩

theorem Closes.of_append {P : Char → Prop} (h : Closes P (u ++ v)) (full : v ≠ []) : Closes P v := by
  obtain ⟨init, c, rfl⟩ := List.eq_nil_or_concat v |>.resolve_left full
  obtain ⟨r, x, ends, hx⟩ := h
  rw [List.concat_eq_append, ← List.append_assoc] at ends
  obtain ⟨-, last⟩ := List.append_inj' ends rfl
  obtain rfl : c = x := by simpa using last
  exact ⟨init, c, by simp, hx⟩

/-- Blanks behind a word end where the next word begins. -/
theorem gap_unique (h : g ++ u = t ++ v) (hg : ∀ c ∈ g, isBlank c = true)
    (ht : ∀ c ∈ t, isBlank c = true) (hu : Opens (fun c => isBlank c = false) u)
    (hv : Opens (fun c => isBlank c = false) v) : g = t ∧ u = v :=
  span_unique h hg ht hu hv

/-- Blanks at the end begin where the last word ends. -/
theorem gap_unique_end (h : u ++ g = v ++ t) (hg : ∀ c ∈ g, isBlank c = true)
    (ht : ∀ c ∈ t, isBlank c = true) (hu : Closes (fun c => isBlank c = false) u)
    (hv : Closes (fun c => isBlank c = false) v) : u = v ∧ g = t := by
  have reversed {w : Text} (h : Closes (fun c => isBlank c = false) w) :
      Opens (fun c => isBlank c = false) w.reverse := by
    obtain ⟨r, c, rfl, hc⟩ := h
    exact ⟨c, r.reverse, by simp, hc⟩
  have flipped : g.reverse ++ u.reverse = t.reverse ++ v.reverse := by
    rw [← List.reverse_append, h, List.reverse_append]
  obtain ⟨gaps, words⟩ := span_unique flipped (by simpa using hg) (by simpa using ht) (reversed hu)
    (reversed hv)
  exact ⟨List.reverse_inj.mp words, List.reverse_inj.mp gaps⟩

/-- The first word of a text ends at the first blank. -/
theorem word_unique (h : u ++ g = v ++ t) (hu : Solid u) (hv : Solid v)
    (hg : Opens (fun c => isBlank c = true) g) (ht : Opens (fun c => isBlank c = true) t) :
    u = v ∧ g = t := by
  have inked {w : Text} (h : Solid w) : ∀ c ∈ w, (!isBlank c) = true := by
    intro c hc
    simp [h.inked c hc]
  have behind {r : Text} (h : Opens (fun c => isBlank c = true) r) :
      Opens (fun c => (!isBlank c) = false) r := h.mono fun c hc => by simp [hc]
  exact @span_unique (fun c => !isBlank c) u g v t h (inked hu) (inked hv) (behind hg) (behind ht)

/-! ### Words -/

theorem Spaced.eq_of_singleton (h : Spaced [w] t) : t = w := by
  cases h
  rfl

theorem Spaced.of_cons (h : Spaced (w :: v :: ws) t) :
    ∃ g rest, t = w ++ (g ++ rest) ∧ Gap g ∧ Spaced (v :: ws) rest := by
  cases h with
  | cons hg rest => exact ⟨_, _, rfl, hg, rest⟩

theorem Spaced.behind (h : Spaced (w :: ws) t) (full : ws ≠ []) :
    ∃ g rest, t = w ++ (g ++ rest) ∧ Gap g ∧ Spaced ws rest := by
  cases ws with
  | nil => exact absurd rfl full
  | cons => exact h.of_cons

theorem Spaced.split (h : Spaced (ws ++ vs) t) (hw : ws ≠ []) (hv : vs ≠ []) :
    ∃ u g v, t = u ++ (g ++ v) ∧ Spaced ws u ∧ Gap g ∧ Spaced vs v := by
  induction ws generalizing t with
  | nil => exact absurd rfl hw
  | cons w ws ih =>
    cases ws with
    | nil =>
      obtain ⟨v, vs, rfl⟩ := List.exists_cons_of_ne_nil hv
      obtain ⟨g, rest, rfl, hg, rest⟩ := h.of_cons
      exact ⟨w, g, _, rfl, .last w, hg, rest⟩
    | cons w' ws =>
      obtain ⟨g, rest, rfl, hg, later⟩ := h.of_cons
      obtain ⟨u, g', v, rfl, hu, hg', hv⟩ := ih later (by simp)
      exact ⟨w ++ (g ++ u), g', v, by simp, .cons hg hu, hg', hv⟩

/-- Between two lists of words there are blanks, if neither is empty. -/
theorem Spaced.divide (h : Spaced (ws ++ vs) t) :
    ∃ u g v, t = u ++ (g ++ v) ∧ Spaced ws u ∧ (∀ c ∈ g, isBlank c = true) ∧ Spaced vs v := by
  by_cases hw : ws = []
  · subst hw
    exact ⟨[], [], t, rfl, .nil, by simp, h⟩
  · by_cases hv : vs = []
    · rw [hv, List.append_nil] at h
      exact ⟨t, [], [], by simp, h, by simp, hv ▸ .nil⟩
    · obtain ⟨u, g, v, split, hu, gap, hv⟩ := h.split hw hv
      exact ⟨u, g, v, split, hu, gap.blank, hv⟩

theorem spaced_intercalate (ws : List Text) : Spaced ws ([' '].intercalate ws) := by
  induction ws with
  | nil => exact .nil
  | cons w ws ih =>
    cases ws with
    | nil => simpa using Spaced.last w
    | cons v ws =>
      have space : Gap [' '] := ⟨by simp, List.all_eq_true.mp rfl⟩
      rw [List.intercalate_cons_cons, List.append_assoc]
      exact .cons space ih

/-- A character of the text is blank or stands in a word. -/
theorem Spaced.mem (h : Spaced ws t) (hc : c ∈ t) : isBlank c = true ∨ ∃ w ∈ ws, c ∈ w := by
  induction h with
  | nil => cases hc
  | last w => exact .inr ⟨w, by simp, hc⟩
  | cons hg _ ih =>
    rcases List.mem_append.mp hc with hc | hc
    · exact .inr ⟨_, by simp, hc⟩
    · rcases List.mem_append.mp hc with hc | hc
      · exact .inl (hg.blank c hc)
      · rcases ih hc with blank | ⟨w, hw, hc⟩
        · exact .inl blank
        · exact .inr ⟨w, List.mem_cons_of_mem _ hw, hc⟩

theorem Spaced.not_mem (h : Spaced ws t) (hc : isBlank c = false) (hw : ∀ w ∈ ws, c ∉ w) :
    c ∉ t := by
  intro mem
  rcases h.mem mem with blank | ⟨w, hmem, inside⟩
  · rw [hc] at blank
    cases blank
  · exact hw w hmem inside

theorem not_mem_of_blank (hg : ∀ c ∈ g, isBlank c = true) (hc : isBlank c = false) : c ∉ g := by
  intro mem
  rw [hg c mem] at hc
  cases hc

theorem Spaced.not_mem_gaps (h : Spaced ws t) (hu : ∀ c ∈ u, isBlank c = true)
    (hv : ∀ c ∈ v, isBlank c = true) (hc : isBlank c = false) (hw : ∀ w ∈ ws, c ∉ w) :
    c ∉ u ++ (t ++ v) := by
  rw [List.mem_append, List.mem_append, not_or, not_or]
  exact ⟨not_mem_of_blank hu hc, h.not_mem hc hw, not_mem_of_blank hv hc⟩

theorem Spaced.opens_head {P : Char → Prop} (h : Spaced (w :: ws) t) (hw : Opens P w) :
    Opens P t := by
  cases h with
  | last => exact hw
  | cons => exact hw.append _

theorem Spaced.opens (h : Spaced ws t) (full : ws ≠ []) (solid : ∀ w ∈ ws, Solid w) :
    Opens (fun c => isBlank c = false) t := by
  obtain ⟨w, ws, rfl⟩ := List.exists_cons_of_ne_nil full
  exact h.opens_head (solid w (by simp)).opens

theorem Spaced.closes_last {P : Char → Prop} (h : Spaced (ws ++ [w]) t) (hw : Closes P w) :
    Closes P t := by
  obtain ⟨u, g, v, rfl, -, -, last⟩ := h.divide
  rw [last.eq_of_singleton]
  exact (hw.append g).append u

theorem Spaced.closes (h : Spaced ws t) (full : ws ≠ []) (solid : ∀ w ∈ ws, Solid w) :
    Closes (fun c => isBlank c = false) t := by
  obtain ⟨init, w, rfl⟩ := List.eq_nil_or_concat ws |>.resolve_left full
  rw [List.concat_eq_append] at h solid
  exact h.closes_last (solid w (by simp)).closes

/-- A text of words without blanks has no other words. -/
theorem Spaced.unique (h : Spaced ws t) (h' : Spaced vs t) (solid : ∀ w ∈ ws, Solid w)
    (solid' : ∀ v ∈ vs, Solid v) : ws = vs := by
  -- A word at the end of a text cannot go on with a gap.
  have whole {w v g rest : Text} (hw : Solid w) (hg : Gap g) (h : w = v ++ (g ++ rest)) : False := by
    obtain ⟨b, g, rfl, blank⟩ := hg.opens
    have inked := hw.inked b (by simp [h])
    rw [inked] at blank
    cases blank
  induction h generalizing vs with
  | nil =>
    generalize same : ([] : Text) = t at h'
    cases h' with
    | nil => rfl
    | last => exact absurd same.symm (solid' t (by simp)).nonempty
    | @cons w => exact absurd (List.append_eq_nil_iff.mp same.symm).1 (solid' w (by simp)).nonempty
  | last w =>
    have hw := solid w (by simp)
    generalize same : w = t at h'
    cases h' with
    | nil => exact absurd same hw.nonempty
    | last => rfl
    | cons hg => exact (whole hw hg same).elim
  | @cons w g v rest ws hg hr ih =>
    generalize same : w ++ (g ++ rest) = t at h'
    cases h' with
    | nil => exact absurd (List.append_eq_nil_iff.mp same).1 (solid w (by simp)).nonempty
    | last => exact (whole (solid' t (by simp)) hg same.symm).elim
    | @cons w' g' v' rest' ws' hg' hr' =>
      have later : ∀ x ∈ v :: ws, Solid x := fun x hx => solid x (List.mem_cons_of_mem _ hx)
      have later' : ∀ x ∈ v' :: ws', Solid x := fun x hx => solid' x (List.mem_cons_of_mem _ hx)
      obtain ⟨rfl, behind⟩ := word_unique same (solid w (by simp)) (solid' w' (by simp))
        (hg.opens.append _) (hg'.opens.append _)
      obtain ⟨-, rfl⟩ := gap_unique behind hg.blank hg'.blank (hr.opens (by simp) later)
        (hr'.opens (by simp) later')
      rw [ih hr' later later']

/-! ### Trimming and splitting -/

theorem trimStart_blank (hg : ∀ c ∈ g, isBlank c = true) (t : Text) :
    trimStart (g ++ t) = trimStart t := List.dropWhile_append_of_pos hg

theorem trim_blank (hg : ∀ c ∈ g, isBlank c = true) : trim g = [] := by
  have front := trimStart_blank hg []
  rw [List.append_nil] at front
  rw [trim, front]
  rfl

/-- Trimming takes the blanks at both ends. -/
theorem trim_gaps (hg : ∀ c ∈ g, isBlank c = true) (ht : ∀ c ∈ t, isBlank c = true)
    (opens : Opens (fun c => isBlank c = false) w)
    (closes : Closes (fun c => isBlank c = false) w) : trim (g ++ (w ++ t)) = w := by
  rw [trim, trimStart_blank hg, trimStart_of_opens (opens.append t)]
  obtain ⟨tail, split, blank, rest⟩ := trimEnd_split (w ++ t)
  rcases rest with none | solid
  · rw [none, List.nil_append] at split
    obtain ⟨r, c, rfl, inked⟩ := closes
    have blank := blank c (by rw [← split]; simp)
    rw [inked] at blank
    cases blank
  · exact (gap_unique_end split ht blank closes solid).1.symm

theorem trimEnd_append (closes : Closes (fun c => isBlank c = false) w) (t : Text) :
    trimEnd (w ++ t) = w ++ trimEnd t := by
  obtain ⟨r, c, rfl, inked⟩ := closes
  have kept : (c :: r.reverse).dropWhile isBlank = c :: r.reverse :=
    List.dropWhile_cons_of_neg (by simp [inked])
  rw [trimEnd, trimEnd, dropEndWhile, dropEndWhile, List.reverse_append, List.dropWhile_append,
    List.reverse_append, List.reverse_singleton, List.singleton_append, kept]
  split
  next none => simp [List.isEmpty_iff.mp none]
  next => simp

/-- Trimming leaves whatever has no blanks at its ends, with what is behind it. -/
theorem trim_append (hg : ∀ c ∈ g, isBlank c = true)
    (opens : Opens (fun c => isBlank c = false) w) (closes : Closes (fun c => isBlank c = false) w)
    (t : Text) : trim (g ++ w ++ t) = w ++ trimEnd t := by
  rw [trim, List.append_assoc, trimStart_blank hg, trimStart_of_opens (opens.append t),
    trimEnd_append closes]

theorem exists_trim_append (hg : ∀ c ∈ g, isBlank c = true)
    (opens : Opens (fun c => isBlank c = false) w) (closes : Closes (fun c => isBlank c = false) w)
    (t : Text) : ∃ t', trim (g ++ w ++ t) = w ++ t' :=
  ⟨trimEnd t, trim_append hg opens closes t⟩

/-- What trimming leaves as it is has no blanks at its ends. -/
theorem edges_of_trim (h : trim w = w) (full : w ≠ []) :
    Opens (fun c => isBlank c = false) w ∧ Closes (fun c => isBlank c = false) w := by
  obtain ⟨lead, front, -, -, opens⟩ := trimStart_split w
  obtain ⟨tail, back, -, closes⟩ := trimEnd_split (trimStart w)
  rw [← trim, h] at back closes
  have lengths := congrArg List.length front
  rw [back, List.length_append, List.length_append] at lengths
  obtain rfl : tail = [] := List.eq_nil_of_length_eq_zero (by omega)
  rw [List.append_nil] at back
  rw [back] at opens
  exact ⟨opens.resolve_left full, closes.resolve_left full⟩

/-- Behind copies of a word, trimming the word leaves what does not begin with it. -/
theorem trimStartWord_copies (full : w ≠ []) (n : Nat) (h : startsWith t w = false) :
    trimStartWord w ((List.replicate n w).flatten ++ t) = t := by
  have stop : after? t w = none := by
    cases cut : after? t w with
    | none => rfl
    | some rest =>
      have found : List.isPrefixOf w (w ++ rest) = true :=
        List.isPrefixOf_iff_prefix.mpr (List.prefix_append w rest)
      rw [after?_eq_some cut, startsWith, found] at h
      cases h
  have go (fuel : Nat) (le : n ≤ fuel) :
      trimStartWord.go w fuel ((List.replicate n w).flatten ++ t) = t := by
    induction n generalizing fuel with
    | zero => cases fuel <;> simp [trimStartWord.go, stop]
    | succ n ih =>
      obtain ⟨fuel, rfl⟩ := Nat.exists_eq_add_of_le' le
      rw [List.replicate_succ, List.flatten_cons, List.append_assoc, ← Nat.add_assoc,
        trimStartWord.go, after?_append]
      exact ih _ (by omega)
  refine go _ ?_
  have width : 0 < w.length := List.length_pos_iff.mpr full
  rw [List.length_append, List.length_flatten, List.map_replicate, List.sum_replicate_nat]
  exact Nat.le_trans (Nat.le_mul_of_pos_right n width) (Nat.le_add_right _ _)

theorem splitFirst?_append (h : ∀ x ∈ t, p x = false) (hc : p c = true) (v : Text) :
    splitFirst? p (t ++ c :: v) = some (t, v) := by
  induction t with
  | nil => simp [splitFirst?, hc]
  | cons x t ih =>
    rw [List.cons_append, splitFirst?, h x (by simp), ih fun y hy => h y (by simp [hy])]
    rfl

theorem splitFirst?_eq_none (h : ∀ x ∈ t, p x = false) : splitFirst? p t = none := by
  induction t with
  | nil => rfl
  | cons x t ih =>
    rw [splitFirst?, h x (by simp), ih fun y hy => h y (by simp [hy])]
    rfl

theorem find?_append (h : ∀ x ∈ t, p x = false) (hc : p c = true) (v : Text) :
    find? p (t ++ c :: v) = some (size t) := by
  induction t with
  | nil => simp [find?, hc]
  | cons x t ih =>
    rw [List.cons_append, find?, h x (by simp), ih fun y hy => h y (by simp [hy])]
    rfl

theorem find?_eq_none (h : ∀ x ∈ t, p x = false) : find? p t = none := by
  induction t with
  | nil => rfl
  | cons x t ih =>
    rw [find?, h x (by simp), ih fun y hy => h y (by simp [hy])]
    rfl

theorem splitBy_of_none (h : ∀ x ∈ t, p x = false) : splitBy p t = [t] := by
  induction t with
  | nil => rfl
  | cons x t ih =>
    rw [splitBy, ih fun y hy => h y (by simp [hy]), h x (by simp)]
    rfl

/-- A separator cuts a text into what stands before it and what stands behind it. -/
theorem splitBy_cut (hc : p c = true) (u v : Text) :
    splitBy p (u ++ c :: v) = splitBy p u ++ splitBy p v := by
  induction u with
  | nil => simp [splitBy, hc]
  | cons x u ih =>
    have full : splitBy p u ≠ [] := by
      cases u with
      | nil => simp [splitBy]
      | cons y u =>
        rw [splitBy]
        split
        next => simp
        next => split <;> simp
    obtain ⟨piece, pieces, first⟩ := List.exists_cons_of_ne_nil full
    rw [List.cons_append, splitBy, splitBy, ih, first]
    split <;> rfl

theorem splitBy_of_not_mem (h : c ∉ t) : splitBy (· == c) t = [t] := by
  refine splitBy_of_none fun x hx => ?_
  rw [beq_eq_false_iff_ne]
  rintro rfl
  exact h hx

theorem splitBy_append (h : c ∉ t) (v : Text) :
    splitBy (· == c) (t ++ c :: v) = t :: splitBy (· == c) v := by
  rw [splitBy_cut (by simp), splitBy_of_not_mem h, List.singleton_append]

end

end SourceTree.Text
