import SourceTree.Proofs.Scan.Join
import SourceTree.Proofs.Scan.LineEnding

/-!
Texts that are complete in themselves: each literal that begins in them ends in them, and no comment
begins. The mask of such a text does not depend on what stands around it, and it has code at its ends
where the text has.
-/

namespace SourceTree.Scan

open Text (Closes Opens)

/-- Read from a state on, the text ends in code, and no comment begins in it. -/
inductive Complete : IndentState → Text → Prop where
  | nil : Complete .code []
  | step {st : IndentState} {c : Char} {cs : Text} : (maskStep st c cs).next ≠ .comment →
      Complete (maskStep st c cs).next ((maskStep st c cs).rest (c :: cs)) → Complete st (c :: cs)

/-- The scan of a complete text, in at most so many steps. -/
def completeWithin : Nat → IndentState → Text → Bool
  | _, st, [] => st == .code
  | 0, _, _ :: _ => false
  | n + 1, st, c :: cs =>
    (maskStep st c cs).next != .comment &&
      completeWithin n (maskStep st c cs).next ((maskStep st c cs).rest (c :: cs))

theorem complete_of_within {n : Nat} {st : IndentState} {t : Text}
    (h : completeWithin n st t = true) : Complete st t := by
  induction n generalizing st t with
  | zero =>
    cases t with
    | nil =>
      obtain rfl := beq_iff_eq.mp h
      exact .nil
    | cons c cs => cases h
  | succ n ih =>
    cases t with
    | nil =>
      obtain rfl := beq_iff_eq.mp h
      exact .nil
    | cons c cs =>
      obtain ⟨plain, behind⟩ := Bool.and_eq_true_iff.mp h
      exact .step (bne_iff_ne.mp plain) (ih behind)

theorem Complete.within {n : Nat} {st : IndentState} {t : Text} (h : Complete st t)
    (le : t.length ≤ n) : completeWithin n st t = true := by
  induction h generalizing n with
  | nil => cases n <;> rfl
  | @step st c cs plain _ ih =>
    have shorter := (maskStep st c cs).rest_length (c := c) cs (maskStep_size st c cs).2
    rw [List.length_cons] at le shorter
    obtain ⟨n, rfl⟩ := Nat.exists_eq_add_of_le' (Nat.le_trans (Nat.le_add_left 1 _) le)
    rw [completeWithin, ih (by omega), bne_iff_ne.mpr plain]
    rfl

instance (st : IndentState) : DecidablePred (Complete st) := fun t =>
  decidable_of_iff (completeWithin t.length st t = true)
    ⟨complete_of_within, fun h => h.within (Nat.le_refl _)⟩

/-- What follows does not begin with a quote. -/
def Unquoted (rest : Text) : Prop := ∀ c ∈ rest.head?, c ≠ '\x22' ∧ c ≠ '\x27'

variable {st : IndentState} {c : Char} {cs rest t w m : Text}

theorem Unquoted.of_calm (h : ∀ c ∈ rest.head?, c ∉ signals) : Unquoted rest := by
  intro c hc
  have calm := h c hc
  constructor <;> rintro rfl <;> exact calm (by decide)

theorem not_complete_quoted_nil {quote : Char} {triple : Bool} :
    ¬Complete (.quoted quote triple) [] := by
  intro h
  cases h

theorem Complete.behind (h : Complete st (c :: cs)) :
    Complete (maskStep st c cs).next ((maskStep st c cs).rest (c :: cs)) := by
  cases h with
  | step _ behind => exact behind

/-- The last character of a complete text ends no triple-quoted literal alone. -/
theorem not_complete_triple_last {quote : Char} : ¬Complete (.quoted quote true) [c] := by
  intro h
  have behind := h.behind
  rw [maskStep_triple (fun _ => rfl) (by simp)] at behind
  exact not_complete_quoted_nil behind

/-- Two quotes of a triple-quoted literal do not follow in what is behind a complete text. -/
theorem Unquoted.not_triple {quote : Char} (quiet : Unquoted rest)
    (hq : quote = '\x22' ∨ quote = '\x27')
    (h : ∀ tail, c = quote → cs = quote :: quote :: tail → False) :
    ∀ tail, c = quote → cs ++ rest = quote :: quote :: tail → False := by
  intro tail hc same
  have head : ∀ tail, rest ≠ quote :: tail := by
    rintro tail rfl
    obtain ⟨double, single⟩ := quiet quote rfl
    exact hq.elim double single
  match cs with
  | [] => exact head _ same
  | [a] => exact head _ (List.cons.inj same).2
  | a :: b :: cs =>
    rw [List.cons_append, List.cons_append, List.cons.injEq, List.cons.injEq] at same
    exact h cs hc (by rw [same.1, same.2.1])

/-- A step in a complete text looks at nothing behind the text. -/
theorem Complete.maskStep_append (h : Complete st (c :: cs)) (quiet : Unquoted rest) :
    maskStep st c (cs ++ rest) = maskStep st c cs := by
  revert h
  fun_cases maskStep st c cs with
  | case1 | case10 | case11 =>
    intros
    rfl
  | case2 | case12 =>
    intros
    simp [maskStep]
  | case3 _ _ _ _ _ _ closes =>
    obtain ⟨rfl, rfl, rfl⟩ := closes
    intros
    simp_all [maskStep]
  | case4 _ _ _ _ _ slash inside =>
    intros
    rw [List.cons_append, List.cons_append, maskStep.eq_3 _ _ _ _ _ slash, if_neg inside]
  | case5 quote _ _ escape short =>
    -- The literal could not end in the one or two characters that are left.
    intro h
    rcases cs with _ | ⟨b, _ | ⟨d, cs⟩⟩
    · exact absurd h not_complete_triple_last
    · have behind := h.behind
      have step := @maskStep_triple quote c [b] (fun hc => (escape b [] hc rfl).elim) (by simp)
      rw [step] at behind
      exact absurd behind not_complete_triple_last
    · exact (short b d cs rfl).elim
  | case6 _ _ escape =>
    intro h
    rcases cs with _ | ⟨b, cs⟩
    · exact absurd h.behind not_complete_quoted_nil
    · exact (escape b cs rfl rfl).elim
  | case7 | case8 | case9 | case14 =>
    intros
    simp_all [maskStep]
  | case13 _ _ double single hash quote =>
    intros
    rw [maskStep.eq_8 _ _ (quiet.not_triple (.inl rfl) double)
      (quiet.not_triple (.inr rfl) single), if_neg hash, if_pos quote]

/-- A step from code or back to code shows what it takes, unless a comment begins or goes on. -/
theorem maskStep_shows (outside : st ≠ .comment)
    (h : st = .code ∨ (maskStep st c cs).next = .code)
    (plain : (maskStep st c cs).next ≠ .comment) :
    (maskStep st c cs).written = (maskStep st c cs).taken := by
  revert h plain
  fun_cases maskStep st c cs with
  | case1 => exact absurd rfl outside
  | case2 | case4 | case5 | case6 | case9 =>
    intro h
    rcases h with h | h <;> cases h
  | case12 =>
    intro _ plain
    exact absurd rfl plain
  | _ =>
    intros
    rfl

theorem rest_append (h : (maskStep st c (cs ++ rest)) = maskStep st c cs) :
    (maskStep st c (cs ++ rest)).rest (c :: cs ++ rest) =
      (maskStep st c cs).rest (c :: cs) ++ rest := by
  have split := (maskStep_masks st c cs).1
  have fits : (maskStep st c cs).taken.length ≤ (c :: cs).length := by
    have length := congrArg List.length split
    rw [List.length_append] at length
    omega
  rw [h, MaskStep.rest, MaskStep.rest, List.drop_append_of_le_length fits]

/-- What stands behind a complete text does not change its mask, nor the text what is behind it. -/
theorem Complete.mask_append (h : Complete st t) (quiet : Unquoted rest) :
    maskIndentFrom st (t ++ rest) = maskIndentFrom st t ++ maskIndent rest := by
  induction h with
  | nil => rfl
  | @step st c cs plain behind ih =>
    have same := (Complete.step plain behind).maskStep_append quiet
    have alone := (maskStep_masks st c cs).2
    have joined := (maskStep_masks st c (cs ++ rest)).2
    rw [← List.cons_append, rest_append same, same, ih] at joined
    rw [joined, alone, List.append_assoc]

theorem Complete.append (h : Complete st t) (hr : Complete .code rest) (quiet : Unquoted rest) :
    Complete st (t ++ rest) := by
  induction h with
  | nil => exact hr
  | @step st c cs plain behind ih =>
    have same := (Complete.step plain behind).maskStep_append quiet
    have further := rest_append same
    rw [List.cons_append] at further ⊢
    refine .step (by rwa [same]) ?_
    rw [further, same]
    exact ih

/-- Code without signals in front of a complete text. -/
theorem Complete.prepend (calm : ∀ c ∈ w, c ∉ signals) (h : Complete .code t) :
    Complete .code (w ++ t) := by
  induction w with
  | nil => exact h
  | cons c w ih =>
    have quiet := calm c (by simp)
    have step : maskStep .code c (w ++ t) = ⟨[c], [c], .code⟩ := by
      refine maskStep_code ?_ ?_
      · rintro rfl
        exact quiet (by decide)
      · rintro (rfl | rfl) <;> exact quiet (by decide)
    have rest : (maskStep .code c (w ++ t)).rest (c :: (w ++ t)) = w ++ t := by rw [step]; rfl
    rw [List.cons_append]
    refine .step (by rw [step]; simp) ?_
    rw [rest, step]
    exact ih fun x hx => calm x (by simp [hx])

theorem complete_of_calm (calm : ∀ c ∈ w, c ∉ signals) : Complete .code w := by
  simpa using Complete.prepend calm .nil

theorem maskIndent_of_calm (calm : ∀ c ∈ w, c ∉ signals) : maskIndent w = w := by
  have code := maskIndentFrom_code_append [] calm
  simpa [maskIndent, maskIndentFrom] using code

/-- The mask of a complete text shows its first character. -/
theorem Complete.opens {P : Char → Prop} (h : Complete .code t) (opens : Opens P t) :
    Opens P (maskIndent t) := by
  obtain ⟨c, cs, rfl, hc⟩ := opens
  cases h with
  | step plain _ =>
    obtain ⟨split, mask⟩ := maskStep_masks .code c cs
    have size := maskStep_size .code c cs
    rw [maskStep_shows (by simp) (.inl rfl) plain] at mask
    obtain ⟨x, taken, ht⟩ := List.exists_cons_of_ne_nil size.2
    rw [ht] at split mask
    obtain ⟨rfl, -⟩ := List.cons.inj split
    exact ⟨c, _, mask, hc⟩

/-- The mask of a complete text shows its last character. -/
theorem Complete.closes {P : Char → Prop} (h : Complete st t) (outside : st ≠ .comment)
    (closes : Closes P t) : Closes P (maskIndentFrom st t) := by
  induction h with
  | nil => exact closes
  | @step st c cs plain behind ih =>
    obtain ⟨split, mask⟩ := maskStep_masks st c cs
    rw [mask]
    generalize hr : (maskStep st c cs).rest (c :: cs) = r at *
    cases r with
    | nil =>
      have last : (maskStep st c cs).next = .code := by
        generalize (maskStep st c cs).next = next at behind
        cases behind
        rfl
      rw [maskStep_shows outside (.inr last) plain]
      rw [List.append_nil] at split
      rw [last]
      simpa [maskIndentFrom, ← split] using closes
    | cons x r =>
      rw [split] at closes
      exact (ih plain (closes.of_append (by simp))).append _

/-- The mask of a list of complete texts is the list of their masks. -/
theorem Listed.masked {separator : Char} {ps : List (Text × Text)} (h : Listed separator ps t m)
    (calm : separator ∉ signals) (complete : ∀ p ∈ ps, Complete .code p.1) :
    Listed separator (ps.map fun p => (p.1, maskIndent p.1)) t (maskIndent t) := by
  have quiet {u : Text} (hu : ∀ c ∈ u, Text.isBlank c = true) : ∀ c ∈ u, c ∉ signals :=
    fun c hc => blank_not_mem_signals (hu c hc)
  induction h with
  | @nil u hu =>
    rw [maskIndent_of_calm (quiet hu)]
    exact .nil hu
  | @last u v w _ hu hv =>
    have behind : Unquoted v := .of_calm fun c hc => quiet hv c (List.mem_of_mem_head? hc)
    have mask : maskIndent (u ++ (w ++ v)) = u ++ (maskIndent w ++ v) := by
      have front := maskIndentFrom_code_append (w ++ v) (quiet hu)
      have piece := (complete _ (List.mem_singleton_self _)).mask_append behind
      rw [piece, maskIndent_of_calm (quiet hv)] at front
      exact front
    rw [mask]
    exact .last hu hv
  | @cons u v w _ t _ _ hu hv _ ih =>
    have edge : ∀ c ∈ v ++ [separator], c ∉ signals := by
      intro c hc
      rcases List.mem_append.mp hc with hc | hc
      · exact quiet hv c hc
      · rwa [List.mem_singleton.mp hc]
    have behind : Unquoted (v ++ separator :: t) := .of_calm fun c hc => by
      rw [List.append_cons, List.head?_append_of_ne_nil _ (by simp)] at hc
      exact edge c (List.mem_of_mem_head? hc)
    have mask : maskIndent (u ++ (w ++ (v ++ separator :: t))) =
        u ++ (maskIndent w ++ (v ++ separator :: maskIndent t)) := by
      have front := maskIndentFrom_code_append (w ++ (v ++ separator :: t)) (quiet hu)
      have piece := (complete _ List.mem_cons_self).mask_append behind
      have last := maskIndentFrom_code_append t edge
      rw [← List.append_cons, ← List.append_cons] at last
      rw [piece, maskIndent, last] at front
      exact front
    rw [mask]
    exact .cons hu hv (ih fun p hp => complete p (List.mem_cons_of_mem _ hp))

end SourceTree.Scan
