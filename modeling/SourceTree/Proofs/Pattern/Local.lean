import SourceTree.Proofs.Pattern.Choice

/-!
Patterns that ask for nothing around the word that they take. Such a pattern matches at the front of
a text exactly if it can take some front of it, and its match stays the same if the text is cut off
anywhere behind it.
-/

namespace SourceTree

/-- The place with more text at the end. -/
def Cursor.followed (c : Cursor) (v : Text) : Cursor := { c with rest := c.rest ++ v }

namespace Cursor

variable {c d : Cursor} {v : Text}

theorem followed_inj (h : c.followed v = d.followed v) : c = d := by
  cases c
  cases d
  simpa [followed] using h

theorem length_followed : (c.followed v).rest.length = c.rest.length + v.length :=
  List.length_append

theorem spanTo_followed (c d : Cursor) (v : Text) :
    (c.followed v).spanTo (d.followed v) = c.spanTo d := by
  have taken : (c.rest ++ v).length - (d.rest ++ v).length = c.rest.length - d.rest.length := by
    rw [List.length_append, List.length_append]
    omega
  simp only [spanTo, followed, taken]
  rw [List.take_append_of_le_length (Nat.sub_le _ _)]

theorem past_followed {x : Char} {rest : Text} (h : c.rest = x :: rest) :
    (c.followed v).past [x] = (c.past [x]).followed v := by
  simp [past, followed, h]

end Cursor

namespace Pattern

variable {p : Pattern} {greedy : Bool} {c : Cursor} {gs : Groups} {k k' : Continuation} {v : Text}

/-- The pattern holds no condition on what lies around its word. -/
def isLocal : Pattern → Bool
  | seq a b | alt a b => isLocal a && isLocal b
  | many _ body | group _ body => isLocal body
  | atEnd | lineStart | wordEdge => false
  | done | one _ => true

/-! ### Repetition without fuel -/

theorem run_never (p : Pattern) (c : Cursor) (gs : Groups) : run p c gs (fun _ _ => none) = none := by
  cases h : run p c gs (fun _ _ => none) with
  | none => rfl
  | some r =>
    obtain ⟨-, -, -, -, -, -, hk⟩ := run_takes h
    cases hk

theorem rounds_nil (h : c.rest = []) (fuel : Nat) : rounds (run p) greedy fuel c gs k = k c gs := by
  cases fuel with
  | zero => rfl
  | succ fuel =>
    simp only [rounds, h, List.length_nil, Nat.not_lt_zero, if_false, run_never]
    cases greedy <;> cases k c gs <;> rfl

/-- Every fuel that reaches to the end is as good as any other. -/
theorem rounds_fuel {fuel fuel' : Nat} (le : c.rest.length ≤ fuel) (le' : c.rest.length ≤ fuel') :
    rounds (run p) greedy fuel c gs k = rounds (run p) greedy fuel' c gs k := by
  induction fuel generalizing fuel' c gs with
  | zero =>
    have empty : c.rest = [] := List.eq_nil_of_length_eq_zero (Nat.le_zero.mp le)
    rw [rounds_nil empty, rounds_nil empty]
  | succ fuel ih =>
    cases fuel' with
    | zero =>
      have empty : c.rest = [] := List.eq_nil_of_length_eq_zero (Nat.le_zero.mp le')
      rw [rounds_nil empty, rounds_nil empty]
    | succ fuel' =>
      have later : (fun d hs => if d.rest.length < c.rest.length then
            rounds (run p) greedy fuel d hs k else none) =
          fun d hs => if d.rest.length < c.rest.length then
            rounds (run p) greedy fuel' d hs k else none := by
        funext d hs
        split
        next lt => exact ih (by omega) (by omega)
        next => rfl
      simp only [rounds, later]

/-- What remains after a round: more rounds, if the round took something. -/
def again (greedy : Bool) (p : Pattern) (length : Nat) (k : Continuation) : Continuation :=
  fun d hs => if d.rest.length < length then run (many greedy p) d hs k else none

/-- A repetition goes round once more or stops, in the order of its preference. -/
theorem run_many : run (many greedy p) c gs k =
    if greedy then (run p c gs (again greedy p c.rest.length k)).or (k c gs)
    else (k c gs).or (run p c gs (again greedy p c.rest.length k)) := by
  have enough : run (many greedy p) c gs k = rounds (run p) greedy (c.rest.length + 1) c gs k :=
    rounds_fuel (Nat.le_refl _) (Nat.le_succ _)
  have later : (fun d hs => if d.rest.length < c.rest.length then
      rounds (run p) greedy c.rest.length d hs k else none) = again greedy p c.rest.length k := by
    funext d hs
    unfold again
    split
    next lt => exact rounds_fuel (Nat.le_of_lt lt) (Nat.le_refl _)
    next => rfl
  rw [enough, rounds, later]
  simp only [Option.orElse_eq_or]

/-! ### Matching whatever can be taken -/

/-- A pattern succeeds if it can take a word behind which the rest succeeds. -/
theorem run_isSome_of_takes {offset : Nat} {w rest : Text} {g : Groups} (hp : p.isLocal = true)
    (takes : Takes p offset w g) (hc : c.rest = w ++ rest) (hk : ∀ hs, (k (c.past w) hs).isSome) :
    (run p c gs k).isSome := by
  induction p generalizing offset w rest g c gs k with
  | done =>
    obtain ⟨rfl, -⟩ := takes
    rw [run, ← Cursor.past_nil c]
    exact hk gs
  | one q =>
    obtain ⟨x, rfl, hx, -⟩ := takes
    rw [run_one_cons hc, if_pos hx]
    exact hk gs
  | seq a b iha ihb =>
    obtain ⟨u, v, g, g', rfl, -, ha, hb⟩ := takes
    simp only [isLocal, Bool.and_eq_true] at hp
    rw [List.append_assoc] at hc
    refine iha hp.1 ha hc fun hs => ?_
    refine ihb hp.2 hb (Cursor.rest_past hc) ?_
    rwa [Cursor.past_past]
  | alt a b iha ihb =>
    simp only [isLocal, Bool.and_eq_true] at hp
    rw [run, Option.orElse_eq_or, Option.isSome_or, Bool.or_eq_true]
    rcases takes with takes | takes
    · exact .inl (iha hp.1 takes hc hk)
    · exact .inr (ihb hp.2 takes hc hk)
  | many greedy body ih =>
    induction takes generalizing c gs with
    | stop =>
      have stops : (k c gs).isSome := by simpa using hk gs
      rw [run_many]
      split <;> simp [stops]
    | @round o u v g g' hu hv ihv =>
      rw [List.append_assoc] at hc
      have further (hs : Groups) : (run (many greedy body) (c.past u) hs k).isSome := by
        apply ihv (Cursor.rest_past hc)
        rwa [Cursor.past_past]
      by_cases empty : u = []
      · simpa [empty] using further gs
      · have once : (run body c gs (again greedy body c.rest.length k)).isSome := by
          refine ih hp hu hc fun hs => ?_
          have lt : (c.past u).rest.length < c.rest.length := by
            have full := List.length_pos_iff.mpr empty
            simp only [Cursor.rest_past hc, hc, List.length_append]
            omega
          rw [again, if_pos lt]
          exact further hs
        rw [run_many]
        split <;> simp [once]
  | group slot body ih =>
    obtain ⟨g, -, takes⟩ := takes
    exact ih hp takes hc fun hs => hk _
  | atEnd | lineStart | wordEdge => cases hp

/-- A pattern matches at the front exactly if it can take a front of the text. -/
theorem matchFront?_isSome_iff {cs : Text} (hp : p.isLocal = true) :
    (p.matchFront? cs).isSome ↔ ∃ w rest g, cs = w ++ rest ∧ Takes p 0 w g := by
  constructor
  · intro h
    obtain ⟨m, found⟩ := Option.isSome_iff_exists.mp h
    obtain ⟨rest, split, -, takes⟩ := matchFront?_takes found
    exact ⟨_, rest, _, split, takes⟩
  · rintro ⟨w, rest, g, split, takes⟩
    have found : (run p (Cursor.ofText cs) [] fun d hs => some (d, hs)).isSome :=
      run_isSome_of_takes hp takes split fun _ => rfl
    simpa [matchFront?, matchAt?] using found

/-! ### Cutting off what lies behind -/

/-- The first result belongs to a text and the second to the same text with more at the end: if the
longer text has no result then the shorter has none, and a result that leaves the end alone is the
result of both. -/
def Cut (v : Text) (r r' : Option (Cursor × Groups)) : Prop :=
  (r' = none → r = none) ∧ ∀ d hs, r' = some (d.followed v, hs) → r = some (d, hs)

theorem Cut.none : Cut v none none := ⟨fun _ => rfl, fun _ _ h => by cases h⟩

theorem Cut.or {a b a' b' : Option (Cursor × Groups)} (ha : Cut v a a') (hb : Cut v b b') :
    Cut v (a.or b) (a'.or b') := by
  constructor
  · intro h
    obtain ⟨na, nb⟩ := Option.or_eq_none_iff.mp h
    rw [ha.1 na, hb.1 nb, Option.or_none]
  · intro d hs h
    rcases Option.or_eq_some_iff.mp h with h | ⟨na, h⟩
    · rw [ha.2 d hs h, Option.some_or]
    · rw [ha.1 na, hb.2 d hs h, Option.none_or]

/-- The two continuations correspond, and the second gives nothing back of what has been taken. -/
structure Cuts (v : Text) (k k' : Continuation) : Prop where
  cut : ∀ c gs, Cut v (k c gs) (k' (c.followed v) gs)
  shrinks : ∀ c gs r, k' c gs = some r → r.1.rest.length ≤ c.rest.length

theorem run_shrinks {r : Cursor × Groups}
    (hk : ∀ c gs r, k c gs = some r → r.1.rest.length ≤ c.rest.length)
    (h : run p c gs k = some r) : r.1.rest.length ≤ c.rest.length := by
  obtain ⟨w, g, d, split, -, -, found⟩ := run_takes h
  have le := hk _ _ _ found
  rw [split, List.length_append]
  omega

theorem Cuts.run (hp : p.isLocal = true) (hk : Cuts v k k') (c : Cursor) (gs : Groups) :
    Cut v (run p c gs k) (run p (c.followed v) gs k') := by
  induction p generalizing k k' c gs with
  | done => exact hk.cut c gs
  | one q =>
    cases hc : c.rest with
    | nil =>
      have none : Pattern.run (one q) c gs k = none := by simp only [Pattern.run, hc]
      rw [none]
      refine ⟨fun _ => rfl, fun d hs h => ?_⟩
      -- A character taken from the end cannot be given back.
      obtain ⟨w, g, e, split, -, ⟨x, rfl, -⟩, found⟩ := run_takes h
      have le := hk.shrinks _ _ _ found
      have size := congrArg List.length split
      simp only [Cursor.followed, hc, List.length_append, List.length_cons, List.length_nil] at le size
      omega
    | cons x rest =>
      have hc' : (c.followed v).rest = x :: (rest ++ v) := by simp [Cursor.followed, hc]
      rw [run_one_cons hc, run_one_cons hc', Cursor.past_followed hc]
      split
      · exact hk.cut _ gs
      · exact .none
  | seq a b iha ihb =>
    simp only [isLocal, Bool.and_eq_true] at hp
    refine iha hp.1 ⟨fun d hs => ihb hp.2 hk d hs, ?_⟩ c gs
    exact fun d hs r h => run_shrinks hk.shrinks h
  | alt a b iha ihb =>
    simp only [isLocal, Bool.and_eq_true] at hp
    simp only [Pattern.run, Option.orElse_eq_or]
    exact (iha hp.1 hk c gs).or (ihb hp.2 hk c gs)
  | many greedy body ih =>
    induction hn : c.rest.length using Nat.strongRecOn generalizing c gs with
    | ind n ihn =>
      have later : Cuts v (again greedy body c.rest.length k)
          (again greedy body (c.followed v).rest.length k') := by
        constructor
        · intro d hs
          simp only [again, Cursor.length_followed, Nat.add_lt_add_iff_right]
          split
          next lt => exact ihn _ (hn ▸ lt) d hs rfl
          next => exact .none
        · intro d hs r h
          unfold again at h
          split at h
          next => exact run_shrinks hk.shrinks h
          next => cases h
      have once := ih hp later c gs
      rw [run_many, run_many]
      split
      · exact once.or (hk.cut c gs)
      · exact (hk.cut c gs).or once
  | group slot body ih =>
    refine ih hp ⟨fun d hs => ?_, fun d hs r h => hk.shrinks _ _ _ h⟩ c gs
    rw [Cursor.spanTo_followed]
    exact hk.cut d _
  | atEnd | lineStart | wordEdge => cases hp

/-- A match stays the same if the text is cut off behind it. -/
theorem matchFront?_cut {w : Text} {m : Match} (hp : p.isLocal = true)
    (h : p.matchFront? (w ++ v) = some m) (inside : m.whole.text <+: w) :
    p.matchFront? w = some m := by
  have same : Cuts v (fun d hs => some (d, hs)) (fun d hs => some (d, hs)) := by
    constructor
    · refine fun c gs => ⟨fun h => (by cases h), fun d hs h => ?_⟩
      obtain ⟨place, rfl⟩ := Prod.mk.inj (Option.some.inj h)
      rw [Cursor.followed_inj place]
    · intro c gs r h
      obtain rfl := Option.some.inj h
      exact Nat.le_refl _
  obtain ⟨⟨e, gs⟩, found, made⟩ := Option.map_eq_some_iff.mp h
  obtain ⟨taken, _, d, split, -, -, last⟩ := run_takes found
  obtain rfl : d = e := (Prod.mk.inj (Option.some.inj last)).1
  obtain rfl : (⟨⟨0, taken⟩, gs⟩ : Match) = m := by
    rw [← made]
    simp only [spanTo_eq split]
    rfl
  obtain ⟨u, rfl⟩ := inside
  have rest : d.rest = u ++ v := by
    have both : taken ++ (u ++ v) = taken ++ d.rest := by
      rw [← List.append_assoc]
      exact split
    exact (List.append_cancel_left both).symm
  -- The long text is left at a place that is one of the short text with `v` at the end.
  have place : d = (⟨d.before, d.offset, u⟩ : Cursor).followed v := by
    rw [Cursor.followed, ← rest]
  rw [place] at found
  have short := (same.run hp (Cursor.ofText (taken ++ u)) []).2 _ gs found
  have span : (Cursor.ofText (taken ++ u)).spanTo ⟨d.before, d.offset, u⟩ = ⟨0, taken⟩ :=
    spanTo_eq rfl
  rw [matchFront?, matchAt?, short, Option.map_some]
  simp only [span]

end Pattern

end SourceTree
