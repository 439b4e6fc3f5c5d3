import SourceTree.Proofs.Pattern.Prefers

/-!
When a pattern is of no use at a place. That a pattern takes nothing there can be worked out from the
front of the text alone, as long as the pattern fails within it. Where an alternative is refused
together with what is behind it, the next one is taken.
-/

namespace SourceTree.Pattern

open Text (Opens)

variable {p a b : Pattern} {ps qs : List Pattern} {q : Char → Bool} {c : Cursor} {gs : Groups}
  {k : Continuation} {g : List (Nat × Text)} {u v w t front rest cs : Text} {slot offset : Nat}

/-! ### Fronts -/

/-- Whatever word the pattern takes where the text stands, it ends within the text, and `ok` holds of
what is left of it. -/
def leaves : Pattern → Text → (Text → Bool) → Bool
  | one _, [], _ => false
  | one p, c :: t, ok => !p c || ok t
  | seq a b, t, ok => leaves a t fun u => leaves b u ok
  | alt a b, t, ok => leaves a t ok && leaves b t ok
  -- A repetition is followed only if it ends at once.
  | many _ body, t, ok => leaves body t (fun _ => false) && ok t
  | group _ body, t, ok => leaves body t ok
  | done, t, ok | atEnd, t, ok | lineStart, t, ok | wordEdge, t, ok => ok t

/-- The pattern takes no word where this text stands, whatever is behind the text. -/
def excludes (p : Pattern) (front : Text) : Bool := p.leaves front fun _ => false

theorem Takes.leaves {ok : Text → Bool} (h : Takes p offset w gs) (split : front ++ rest = w ++ v)
    (checked : p.leaves front ok = true) : ∃ t, v = t ++ rest ∧ ok t = true := by
  induction p generalizing offset w gs front v ok with
  | one p =>
    obtain ⟨c, rfl, hc, -⟩ := h
    cases front with
    | nil => cases checked
    | cons x front =>
      obtain ⟨rfl, behind⟩ := List.cons.inj split
      rw [Pattern.leaves, hc, Bool.not_true, Bool.false_or] at checked
      exact ⟨front, behind.symm, checked⟩
  | seq a b iha ihb =>
    obtain ⟨u, u', g, g', rfl, -, ha, hb⟩ := h
    rw [List.append_assoc] at split
    obtain ⟨t, behind, checked⟩ := iha ha split checked
    exact ihb hb behind.symm checked
  | alt a b iha ihb =>
    obtain ⟨first, second⟩ := (Bool.and_eq_true_iff ..).mp checked
    rcases h with h | h
    · exact iha h split first
    · exact ihb h split second
  | many greedy body ih =>
    obtain ⟨none, checked⟩ := (Bool.and_eq_true_iff ..).mp checked
    cases h with
    | stop => exact ⟨front, split.symm, checked⟩
    | round hu =>
      rw [List.append_assoc] at split
      obtain ⟨t, -, impossible⟩ := ih hu split none
      cases impossible
  | group slot body ih =>
    obtain ⟨g, -, h⟩ := h
    exact ih h split checked
  | done | atEnd | lineStart | wordEdge =>
    obtain ⟨rfl, -⟩ := h
    exact ⟨front, split.symm, checked⟩

theorem refuses_of_excludes (h : p.excludes front = true) (rest : Text) :
    Refuses p (front ++ rest) := by
  intro w v offset gs split takes
  obtain ⟨t, -, impossible⟩ := takes.leaves split h
  cases impossible

/-! ### Sequences -/

theorem Refuses.group (h : Refuses p cs) (slot : Nat) : Refuses (Pattern.group slot p) cs := by
  rintro w rest offset _ split ⟨g, -, takes⟩
  exact h w rest offset g split takes

theorem Refuses.append (h : Refuses a cs) (b : Pattern) : Refuses (a ++ b) cs := by
  rintro _ rest offset _ rfl ⟨u, v, g, g', rfl, -, ha, -⟩
  exact h u (v ++ rest) offset g (by simp) ha

theorem Refuses.assoc (h : Refuses (a ++ (b ++ p)) cs) : Refuses ((a ++ b) ++ p) cs :=
  fun w rest offset gs split takes => h w rest offset gs split (takes_assoc.mp takes)

/-- Behind a word and the blanks at its end it is the rest that counts. -/
theorem Refuses.behind {word : String} (h : Refuses p t)
    (starts : Starts (fun c => Text.isBlank c = false) p) (gap : Text.Gap u)
    (opens : Opens (fun c => Text.isBlank c = false) t) :
    Refuses (lit word ++ blanks1 ++ p) (word.toList ++ (u ++ t)) := by
  rintro _ rest offset _ split ⟨_, w, _, gw, rfl, -, ⟨k, v, _, _, rfl, -, hk, hv⟩, hw⟩
  obtain ⟨rfl, -⟩ := takes_lit hk
  obtain ⟨blank, -⟩ := takes_blanks1_iff.mp hv
  have texts : u ++ t = v ++ (w ++ rest) := by simpa using split
  obtain ⟨-, rfl⟩ := Text.gap_unique texts gap.blank blank.blank opens ((hw.opens starts).append rest)
  exact h w rest _ gw rfl hw

/-! ### Choices -/

theorem anyOf_cons (a : Pattern) (full : ps ≠ []) : anyOf (a :: ps) = alt a (anyOf ps) := by
  cases ps with
  | nil => exact absurd rfl full
  | cons => rfl

/-- What is refused fails whatever is remembered between its parts. -/
theorem Refuses.run_between (h : Refuses (a ++ b) c.rest) (f : Cursor → Groups → Groups) :
    run a c gs (fun d hs => run b d (f d hs) k) = none := by
  cases found : run a c gs (fun d hs => run b d (f d hs) k) with
  | none => rfl
  | some r =>
    obtain ⟨u, ga, d, split, place, hu, later⟩ := run_takes found
    obtain ⟨v, gb, e, split', -, hv, -⟩ := run_takes later
    rw [place] at hv
    have both : Takes (a ++ b) c.offset (u ++ v) (gb ++ ga) := ⟨u, v, ga, gb, rfl, rfl, hu, hv⟩
    exact absurd both (h (u ++ v) e.rest _ _ (by rw [split, split']; simp))

/-- Under a group, the first of several patterns is taken that is not refused together with what is
behind the group. -/
theorem Prefers.anyOf_group (early : ∀ a ∈ ps, Refuses (a ++ b) (w ++ rest))
    (hp : Prefers (Pattern.group slot p ++ b) w rest g) (qs : List Pattern) :
    Prefers (Pattern.group slot (anyOf (ps ++ p :: qs)) ++ b) w rest g := by
  intro c hc
  obtain ⟨gs, remembered, taken⟩ := hp c hc
  refine ⟨gs, remembered, fun hs k some => ?_⟩
  have first := taken hs k some
  rw [← first] at some ⊢
  -- What remains to be matched behind each of the patterns.
  let next : Continuation := fun d hs => run b d ((slot, c.spanTo d) :: hs) k
  have grouped (p : Pattern) : run (Pattern.group slot p ++ b) c hs k = run p c hs next := rfl
  have none {a : Pattern} (ha : a ∈ ps) : run a c hs next = none :=
    Refuses.run_between (hc ▸ early a ha) fun d hs => (slot, c.spanTo d) :: hs
  rw [grouped] at some
  rw [grouped, grouped]
  clear early
  induction ps with
  | nil =>
    cases qs with
    | nil => rfl
    | cons q qs =>
      rw [List.nil_append, anyOf_cons p (by simp), run, Option.orElse_eq_or]
      exact Option.or_of_isSome some
  | cons a ps ih =>
    rw [List.cons_append, anyOf_cons a (by simp), run, Option.orElse_eq_or, none (by simp),
      Option.none_or]
    exact ih fun ha => none (List.mem_cons_of_mem _ ha)

/-- A greedy repetition goes back to the last place where the rest succeeds. -/
theorem run_star_one (hc : c.rest = w ++ rest) (hw : ∀ x ∈ w, q x = true)
    (far : ∀ v v', rest = v ++ v' → v ≠ [] → (∀ x ∈ v, q x = true) → k (c.past (w ++ v)) gs = none)
    (some : (k (c.past w) gs).isSome) : run (star (one q)) c gs k = k (c.past w) gs := by
  have ran : (run (star (one q)) c gs k).isSome := run_many_one_isSome w rest hc hw some
  obtain ⟨r, found⟩ := Option.isSome_iff_exists.mp ran
  obtain ⟨u, rest', split, hu, here, longest⟩ := run_star_one_some found
  -- Neither of the two places can be the later one.
  rw [split] at hc
  rcases List.append_eq_append_iff.mp hc with ⟨v, rfl, hv⟩ | ⟨v, rfl, hv⟩
  · by_cases same : v = []
    · rw [found, same, List.append_nil, here]
    · have none := longest v rest hv same fun x hx => hw x (by simp [hx])
      rw [none] at some
      cases some
  · by_cases same : v = []
    · rw [same, List.append_nil] at here
      rw [found, here]
    · have none := far v rest' hv same fun x hx => hu x (by simp [hx])
      rw [none] at here
      cases here

/-- A greedy repetition at the end of a group gives back what the pattern behind the group needs. -/
theorem prefers_group_star {e : Pattern} (ha : Prefers a u (w ++ (v ++ rest)) [])
    (hw : ∀ x ∈ w, q x = true) (he : Prefers e [] (v ++ rest) []) (hb : Prefers b v rest g)
    (far : ∀ x y, v ++ rest = x ++ y → x ≠ [] → (∀ z ∈ x, q z = true) → Refuses (e ++ b) y) :
    Prefers (group slot (a ++ star (one q) ++ e) ++ b) (u ++ w ++ v) rest
      (g ++ [(slot, u ++ w)]) := by
  intro c hc
  have hc : c.rest = u ++ (w ++ (v ++ rest)) := by simpa using hc
  have next : (c.past u).rest = w ++ (v ++ rest) := Cursor.rest_past hc
  have behind : (c.past (u ++ w)).rest = v ++ rest := Cursor.rest_past (by simpa using hc)
  have span : c.spanTo (c.past (u ++ w)) = ⟨c.offset, u ++ w⟩ := spanTo_eq (by rw [behind, hc]; simp)
  obtain ⟨ga, none, first⟩ := ha c hc
  obtain rfl : ga = [] := List.map_eq_nil_iff.mp none
  obtain ⟨ge, none, second⟩ := he _ behind
  obtain rfl : ge = [] := List.map_eq_nil_iff.mp none
  obtain ⟨gb, remembered, third⟩ := hb _ behind
  refine ⟨gb ++ [(slot, ⟨c.offset, u ++ w⟩)], by simp [texts, ← remembered], fun hs k some => ?_⟩
  rw [List.append_assoc gb, List.singleton_append, ← Cursor.past_past] at some ⊢
  -- What is left to match behind the repetition, and then behind the group.
  let after : Continuation := fun d hs => run b d ((slot, c.spanTo d) :: hs) k
  let later : Continuation := fun d hs => run e d hs after
  have ends : after (c.past (u ++ w)) hs =
      k ((c.past (u ++ w)).past v) (gb ++ (slot, ⟨c.offset, u ++ w⟩) :: hs) := by
    simp only [after, span]
    exact third _ k some
  have skips : later (c.past (u ++ w)) hs = after (c.past (u ++ w)) hs :=
    second hs after (by rw [Cursor.past_nil, List.nil_append, ends]; exact some)
  rw [← ends, ← skips] at some ⊢
  rw [← Cursor.past_past] at some ⊢
  have stops : run (star (one q)) (c.past u) hs later = later ((c.past u).past w) hs := by
    refine run_star_one next hw (fun x y split full all => ?_) some
    refine Refuses.run_between ?_ fun d hs => (slot, c.spanTo d) :: hs
    have past : ((c.past u).past (w ++ x)).rest = y :=
      Cursor.rest_past (by rw [next, split, List.append_assoc])
    rw [past]
    exact far x y split full all
  rw [← stops] at some ⊢
  exact first hs (fun d hs => run (star (one q)) d hs later) some

end SourceTree.Pattern
