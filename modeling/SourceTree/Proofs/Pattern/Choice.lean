import SourceTree.Proofs.Pattern.Takes

/-!
Which of the ways to succeed a repetition of single characters prefers: a greedy one the longest
that lets the rest of the pattern succeed, the other kind the shortest.
-/

namespace SourceTree

/-- The place behind the word, which stands at the cursor. -/
def Cursor.past (c : Cursor) (w : Text) : Cursor :=
  ⟨w.getLast?.or c.before, c.offset + Text.size w, c.rest.drop w.length⟩

namespace Cursor

variable {c : Cursor} {u v rest : Text}

@[simp] theorem past_nil (c : Cursor) : c.past [] = c := by simp [past]

theorem past_past (c : Cursor) (u v : Text) : (c.past u).past v = c.past (u ++ v) := by
  simp only [past, List.getLast?_append, Text.size_append, List.drop_drop, List.length_append,
    Nat.add_assoc, mk.injEq, and_true]
  cases v.getLast? <;> rfl

theorem rest_past (h : c.rest = u ++ rest) : (c.past u).rest = rest := by
  simp [past, h]

end Cursor

namespace Pattern

variable {p : Char → Bool} {greedy : Bool} {c : Cursor} {gs : Groups} {k : Continuation}
  {r : Cursor × Groups}

theorem run_one_cons {x : Char} {rest : Text} (h : c.rest = x :: rest) :
    run (one p) c gs k = if p x then k (c.past [x]) gs else none := by
  have next : c.past [x] = ⟨some x, c.offset + x.utf8Size, rest⟩ := by simp [Cursor.past, h]
  simp only [run, h, next]

theorem run_atEnd_some (h : run atEnd c gs k = some r) : c.rest = [] ∧ k c gs = some r := by
  simp only [run] at h
  split at h
  next empty => exact ⟨by simpa using empty, h⟩
  next => simp at h

theorem run_many_one_nil (h : c.rest = []) : run (many greedy (one p)) c gs k = k c gs := by
  rw [run, h]
  rfl

theorem run_many_one_cons {x : Char} {rest : Text} (h : c.rest = x :: rest) :
    run (many greedy (one p)) c gs k =
      if p x then
        if greedy then (run (many greedy (one p)) (c.past [x]) gs k).or (k c gs)
        else (k c gs).or (run (many greedy (one p)) (c.past [x]) gs k)
      else k c gs := by
  have next : (c.past [x]).rest = rest := Cursor.rest_past (u := [x]) h
  have shorter : rest.length < c.rest.length := by simp [h]
  rw [run, h, List.length_cons, rounds, run_one_cons h, next, if_pos shorter, run, next]
  by_cases hx : p x <;> cases greedy <;> cases k c gs <;> simp [hx]

/-- A repetition can stop behind any of its characters. -/
theorem run_many_one_isSome (w rest : Text) (hc : c.rest = w ++ rest) (hw : ∀ x ∈ w, p x = true)
    (hk : (k (c.past w) gs).isSome) : (run (many greedy (one p)) c gs k).isSome := by
  induction w generalizing c with
  | nil =>
    rw [Cursor.past_nil] at hk
    cases rest with
    | nil => rwa [run_many_one_nil hc]
    | cons x rest =>
      rw [run_many_one_cons hc]
      split
      · split <;> simp [hk]
      · exact hk
  | cons x w ih =>
    have further : (run (many greedy (one p)) (c.past [x]) gs k).isSome := by
      refine ih (Cursor.rest_past (u := [x]) hc) (fun y hy => hw y (by simp [hy])) ?_
      rwa [Cursor.past_past]
    rw [run_many_one_cons hc, if_pos (hw x (by simp))]
    split <;> simp [further]

/-- A greedy repetition stops where the rest succeeds, and it succeeds nowhere further on. -/
theorem run_star_one_some (h : run (star (one p)) c gs k = some r) :
    ∃ w rest, c.rest = w ++ rest ∧ (∀ x ∈ w, p x = true) ∧ k (c.past w) gs = some r ∧
      ∀ v v', rest = v ++ v' → v ≠ [] → (∀ x ∈ v, p x = true) →
        k (c.past (w ++ v)) gs = none := by
  unfold star at h
  generalize hc : c.rest = cs
  induction cs generalizing c with
  | nil =>
    rw [run_many_one_nil hc] at h
    refine ⟨[], [], rfl, by simp, by simpa using h, ?_⟩
    intro v v' hv full
    exact absurd (List.append_eq_nil_iff.mp hv.symm).1 full
  | cons x cs ih =>
    have next : (c.past [x]).rest = cs := Cursor.rest_past (u := [x]) hc
    rw [run_many_one_cons hc] at h
    split at h
    next hx =>
      rcases Option.or_eq_some_iff.mp h with h | ⟨hnone, h⟩
      · obtain ⟨w, rest, hw, hp, hk, longest⟩ := ih h next
        refine ⟨x :: w, rest, by rw [hw]; rfl, by simpa [hx] using hp, ?_, ?_⟩
        · rwa [Cursor.past_past] at hk
        · intro v v' hv full hpv
          have none := longest v v' hv full hpv
          rwa [Cursor.past_past] at none
      · refine ⟨[], x :: cs, rfl, by simp, by simpa using h, ?_⟩
        intro v v' hv full hpv
        -- A success further on would have been one of the repetition behind `x`.
        cases v with
        | nil => exact absurd rfl full
        | cons y v =>
          obtain ⟨rfl, hv'⟩ : x = y ∧ cs = v ++ v' := by simpa using hv
          rw [← Option.not_isSome_iff_eq_none]
          intro some
          have further : (run (many true (one p)) (c.past [x]) gs k).isSome := by
            refine run_many_one_isSome v v' (next.trans hv') (fun z hz => hpv z (by simp [hz])) ?_
            rwa [Cursor.past_past]
          simp [hnone] at further
    next hx =>
      refine ⟨[], x :: cs, rfl, by simp, by simpa using h, ?_⟩
      intro v v' hv full hpv
      cases v with
      | nil => exact absurd rfl full
      | cons y v =>
        obtain ⟨rfl, -⟩ : x = y ∧ cs = v ++ v' := by simpa using hv
        exact absurd (hpv x (by simp)) hx

/-- A repetition that is not greedy stops at the first place where the rest succeeds. -/
theorem run_fewest_one_some (h : run (fewest (one p)) c gs k = some r) :
    ∃ w rest, c.rest = w ++ rest ∧ (∀ x ∈ w, p x = true) ∧ k (c.past w) gs = some r ∧
      ∀ v v', w = v ++ v' → v' ≠ [] → k (c.past v) gs = none := by
  unfold fewest at h
  generalize hc : c.rest = cs
  have stay {c : Cursor} {cs : Text} (h : k c gs = some r) :
      ∃ w rest, cs = w ++ rest ∧ (∀ x ∈ w, p x = true) ∧ k (c.past w) gs = some r ∧
        ∀ v v', w = v ++ v' → v' ≠ [] → k (c.past v) gs = none := by
    refine ⟨[], cs, rfl, by simp, by simpa using h, ?_⟩
    intro v v' hv full
    exact absurd (List.append_eq_nil_iff.mp hv.symm).2 full
  induction cs generalizing c with
  | nil =>
    rw [run_many_one_nil hc] at h
    exact stay h
  | cons x cs ih =>
    have next : (c.past [x]).rest = cs := Cursor.rest_past (u := [x]) hc
    rw [run_many_one_cons hc] at h
    split at h
    next hx =>
      rcases Option.or_eq_some_iff.mp h with h | ⟨hnone, h⟩
      · exact stay h
      · obtain ⟨w, rest, hw, hp, hk, shortest⟩ := ih h next
        refine ⟨x :: w, rest, by rw [hw]; rfl, by simpa [hx] using hp, ?_, ?_⟩
        · rwa [Cursor.past_past] at hk
        · intro v v' hv full
          cases v with
          | nil => simpa using hnone
          | cons y v =>
            obtain ⟨rfl, hw'⟩ : x = y ∧ w = v ++ v' := by simpa using hv
            have none := shortest v v' hw' full
            rwa [Cursor.past_past] at none
    next => exact stay h

/-- What is remembered never decides whether a pattern succeeds. -/
theorem run_isSome_groups (q : Pattern) {k' : Continuation}
    (hk : ∀ d hs hs', (k d hs).isSome = (k' d hs').isSome) (c : Cursor) (gs gs' : Groups) :
    (run q c gs k).isSome = (run q c gs' k').isSome := by
  induction q generalizing k k' c gs gs' with
  | done => exact hk c gs gs'
  | one p =>
    cases hc : c.rest with
    | nil => simp [run, hc]
    | cons x rest =>
      rw [run_one_cons hc, run_one_cons hc]
      split
      · exact hk _ gs gs'
      · rfl
  | seq a b iha ihb => exact iha (fun d hs hs' => ihb hk d hs hs') c gs gs'
  | alt a b iha ihb =>
    simp only [run, Option.orElse_eq_or, Option.isSome_or]
    rw [iha hk c gs gs', ihb hk c gs gs']
  | many greedy body ih =>
    rw [run, run]
    generalize c.rest.length = fuel
    induction fuel generalizing c gs gs' with
    | zero => exact hk c gs gs'
    | succ fuel ihf =>
      have step (d : Cursor) (hs hs' : Groups) :
          (if d.rest.length < c.rest.length then rounds (run body) greedy fuel d hs k
            else none).isSome =
          (if d.rest.length < c.rest.length then rounds (run body) greedy fuel d hs' k'
            else none).isSome := by
        split
        · exact ihf d hs hs'
        · rfl
      have round := ih step c gs gs'
      simp only [rounds]
      split
      · rw [Option.orElse_eq_or, Option.orElse_eq_or, Option.isSome_or, Option.isSome_or, round,
          hk c gs gs']
      · rw [Option.orElse_eq_or, Option.orElse_eq_or, Option.isSome_or, Option.isSome_or, round,
          hk c gs gs']
  | group slot body ih => exact ih (fun d hs hs' => hk d _ _) c gs gs'
  | atEnd | lineStart | wordEdge =>
    simp only [run]
    split
    · exact hk c gs gs'
    · rfl

end Pattern

end SourceTree
