import SourceTree.Proofs.Pattern.Word
import SourceTree.Proofs.Pattern.Local
import SourceTree.Proofs.Text.Spaced

/-!
Which word a pattern takes. A pattern prefers a word at a place if it takes that word whenever the
rest of the pattern then succeeds, and it refuses a place where it can take no word at all. The
preferences of a compound pattern follow from those of its parts, and with them the match that a
search finds.
-/

namespace SourceTree.Pattern

open Text (Opens)

variable {p a b : Pattern} {q : Char → Bool} {c : Cursor} {gs : Groups} {k : Continuation}
  {g h : List (Nat × Text)} {u v w rest cs front : Text} {m : Match}

/-- The pattern can take nothing of what stands at the front of the text. -/
def Refuses (p : Pattern) (cs : Text) : Prop :=
  ∀ w rest offset gs, cs = w ++ rest → ¬Takes p offset w gs

/-- The texts that groups remember, latest first. -/
def texts (gs : Groups) : List (Nat × Text) := gs.map fun g => (g.1, g.2.text)

/-- In front of `rest` the pattern takes the word, remembering these texts, whenever what is behind
it in a larger pattern then succeeds. -/
def Prefers (p : Pattern) (w rest : Text) (g : List (Nat × Text)) : Prop :=
  ∀ c : Cursor, c.rest = w ++ rest → ∃ gs, texts gs = g ∧
    ∀ hs k, (k (c.past w) (gs ++ hs)).isSome → run p c hs k = k (c.past w) (gs ++ hs)

theorem Refuses.run_eq_none (hp : Refuses p c.rest) : run p c gs k = none := by
  cases found : run p c gs k with
  | none => rfl
  | some r =>
    obtain ⟨w, g, d, split, -, takes, -⟩ := run_takes found
    exact absurd takes (hp w d.rest _ g split)

/-- A pattern refuses what does not begin as all its words do. -/
theorem Starts.refuses {P : Char → Prop} (hp : Starts P p) (hc : ¬Opens P cs) : Refuses p cs := by
  rintro w rest offset g rfl takes
  exact hc ((takes.opens hp).append rest)

theorem lookup_texts (gs : Groups) (slot : Nat) :
    (texts gs).lookup slot = (gs.lookup slot).map Span.text := by
  induction gs with
  | nil => rfl
  | cons g gs ih =>
    obtain ⟨n, s⟩ := g
    simp only [texts, List.map_cons, List.lookup_cons] at ih ⊢
    split <;> simp_all

/-! ### Preferences -/

theorem prefers_done (rest : Text) : Prefers done [] rest [] := by
  intro c _
  refine ⟨[], rfl, fun hs k _ => ?_⟩
  rw [run, Cursor.past_nil, List.nil_append]

theorem prefers_atEnd : Prefers atEnd [] [] [] := by
  intro c hc
  refine ⟨[], rfl, fun hs k _ => ?_⟩
  rw [run, hc, Cursor.past_nil]
  rfl

theorem prefers_one {x : Char} (hx : q x = true) (rest : Text) : Prefers (one q) [x] rest [] := by
  intro c hc
  refine ⟨[], rfl, fun hs k _ => ?_⟩
  rw [run_one_cons hc, if_pos hx, List.nil_append]

theorem Prefers.seq (ha : Prefers a u (v ++ rest) g) (hb : Prefers b v rest h) :
    Prefers (a ++ b) (u ++ v) rest (h ++ g) := by
  intro c hc
  rw [List.append_assoc] at hc
  obtain ⟨ga, textsa, first⟩ := ha c hc
  obtain ⟨gb, textsb, second⟩ := hb (c.past u) (Cursor.rest_past hc)
  refine ⟨gb ++ ga, by simp [texts, ← textsa, ← textsb], fun hs k some => ?_⟩
  rw [← Cursor.past_past, List.append_assoc] at some ⊢
  have last := second (ga ++ hs) k some
  rw [← last] at some ⊢
  exact first hs (fun d hs => run b d hs k) some

theorem Prefers.group (slot : Nat) (hp : Prefers p w rest g) :
    Prefers (group slot p) w rest ((slot, w) :: g) := by
  intro c hc
  obtain ⟨gs, remembered, taken⟩ := hp c hc
  have span : c.spanTo (c.past w) = ⟨c.offset, w⟩ := by
    refine spanTo_eq ?_
    rw [Cursor.rest_past hc, hc]
  refine ⟨(slot, ⟨c.offset, w⟩) :: gs, by simp [texts, ← remembered], fun hs k some => ?_⟩
  have same := taken hs (fun d hs => k d ((slot, c.spanTo d) :: hs))
  rw [span] at same
  exact same some

theorem Prefers.alt_left (ha : Prefers a w rest g) (b : Pattern) : Prefers (alt a b) w rest g := by
  intro c hc
  obtain ⟨gs, remembered, taken⟩ := ha c hc
  refine ⟨gs, remembered, fun hs k some => ?_⟩
  rw [run, Option.orElse_eq_or, taken hs k some]
  exact Option.or_of_isSome some

theorem Prefers.alt_right (ha : Refuses a (w ++ rest)) (hb : Prefers b w rest g) :
    Prefers (alt a b) w rest g := by
  intro c hc
  obtain ⟨gs, remembered, taken⟩ := hb c hc
  refine ⟨gs, remembered, fun hs k some => ?_⟩
  rw [← hc] at ha
  rw [run, Option.orElse_eq_or, ha.run_eq_none, Option.none_or]
  exact taken hs k some

/-! ### One of several words -/

theorem run_lit (word : String) (hc : c.rest = word.toList ++ rest) :
    run (lit word) c gs k = k (c.past word.toList) gs := by
  unfold lit
  generalize word.toList = letters at hc
  induction letters generalizing c gs k with
  | nil => rw [List.foldr_nil, run, Cursor.past_nil]
  | cons x letters ih =>
    have next : (c.past [x]).rest = letters ++ rest := Cursor.rest_past (u := [x]) hc
    have later := @ih (c.past [x]) gs k next
    rw [Cursor.past_past] at later
    have first (b : Pattern) : run (one (· == x) ++ b) c gs k =
        run (one (· == x)) c gs fun d hs => run b d hs k := rfl
    rw [List.foldr_cons, first, run_one_cons hc, if_pos (by simp)]
    exact later

theorem prefers_lit (word : String) (rest : Text) : Prefers (lit word) word.toList rest [] :=
  fun _ hc => ⟨[], rfl, fun _ _ _ => run_lit word hc⟩

theorem takes_words {words : List String} {offset : Nat}
    (h : Takes (anyOf (words.map lit)) offset w gs) : ∃ word ∈ words, w = word.toList ∧ gs = [] := by
  induction words with
  | nil =>
    obtain ⟨x, -, none, -⟩ := h
    cases none
  | cons word words ih =>
    cases words with
    | nil => exact ⟨word, by simp, takes_lit h⟩
    | cons next words =>
      rcases h with h | h
      · exact ⟨word, by simp, takes_lit h⟩
      · obtain ⟨found, mem, taken⟩ := ih h
        exact ⟨found, List.mem_cons_of_mem _ mem, taken⟩

/-- Of several words the one that stands in front of the cursor is taken, if it is the only one. -/
theorem run_words {words : List String} {word : String} (mem : word ∈ words)
    (hc : c.rest = word.toList ++ rest)
    (sole : ∀ other ∈ words, other ≠ word → ¬other.toList <+: c.rest) :
    run (anyOf (words.map lit)) c gs k = k (c.past word.toList) gs := by
  have absent {other : String} (h : ¬other.toList <+: c.rest) : run (lit other) c gs k = none := by
    refine Refuses.run_eq_none fun w rest offset hs split takes => h ?_
    obtain ⟨rfl, -⟩ := takes_lit takes
    exact ⟨rest, split.symm⟩
  induction words with
  | nil => cases mem
  | cons first words ih =>
    cases words with
    | nil =>
      obtain rfl := List.mem_singleton.mp mem
      exact run_lit word hc
    | cons next words =>
      have later : run (anyOf ((next :: words).map lit)) c gs k = k (c.past word.toList) gs ∨
          run (anyOf ((next :: words).map lit)) c gs k = none := by
        by_cases mem' : word ∈ next :: words
        · exact .inl (ih mem' fun other h => sole other (List.mem_cons_of_mem _ h))
        · refine .inr (Refuses.run_eq_none fun w rest offset hs split takes => ?_)
          obtain ⟨other, h, rfl, -⟩ := takes_words takes
          exact sole other (List.mem_cons_of_mem _ h) (fun same => mem' (same ▸ h))
            ⟨rest, split.symm⟩
      have choice : run (anyOf ((first :: next :: words).map lit)) c gs k =
          (run (lit first) c gs k).or (run (anyOf ((next :: words).map lit)) c gs k) := by
        rw [List.map_cons, List.map_cons, anyOf, run, Option.orElse_eq_or]
        exact fun none => by cases none
      rw [choice]
      by_cases same : first = word
      · rw [same, run_lit word hc]
        rcases later with later | later <;> rw [later] <;> simp
      · have mem' : word ∈ next :: words := (List.mem_cons.mp mem).resolve_left (Ne.symm same)
        rw [absent (sole first (by simp) same), Option.none_or]
        exact ih mem' fun other h => sole other (List.mem_cons_of_mem _ h)

/-- A greedy repetition takes all the characters that it can. -/
theorem prefers_star_one (hw : ∀ x ∈ w, q x = true) (stop : ∀ x, rest.head? = some x → q x = false) :
    Prefers (star (one q)) w rest [] := by
  intro c hc
  refine ⟨[], rfl, fun hs k some => ?_⟩
  rw [List.nil_append] at some ⊢
  unfold star
  induction w generalizing c with
  | nil =>
    rw [Cursor.past_nil]
    cases rest with
    | nil => exact run_many_one_nil hc
    | cons x rest =>
      have none : ¬q x = true := by simp [stop x rfl]
      rw [run_many_one_cons hc, if_neg none]
  | cons x w ih =>
    have next : (c.past [x]).past w = c.past (x :: w) := Cursor.past_past c [x] w
    have further := ih (fun y hy => hw y (by simp [hy])) (c.past [x]) (Cursor.rest_past hc)
    rw [next] at further
    rw [run_many_one_cons hc, if_pos (hw x (by simp)), if_pos rfl, further some]
    exact Option.or_of_isSome some

theorem prefers_plus_one (full : w ≠ []) (hw : ∀ x ∈ w, q x = true)
    (stop : ∀ x, rest.head? = some x → q x = false) : Prefers (plus (one q)) w rest [] := by
  cases w with
  | nil => exact absurd rfl full
  | cons x w =>
    have first : Prefers (one q) [x] (w ++ rest) [] := prefers_one (hw x (by simp)) _
    exact first.seq (prefers_star_one (fun y hy => hw y (by simp [hy])) stop)

/-- A repetition that takes as few characters as possible stops at the first place where the rest
succeeds. -/
theorem run_fewest_one (hc : c.rest = w ++ rest) (hw : ∀ x ∈ w, q x = true)
    (early : ∀ v v', w = v ++ v' → v' ≠ [] → k (c.past v) gs = none)
    (some : (k (c.past w) gs).isSome) : run (fewest (one q)) c gs k = k (c.past w) gs := by
  unfold fewest
  induction w generalizing c with
  | nil =>
    rw [Cursor.past_nil] at some ⊢
    cases rest with
    | nil => exact run_many_one_nil hc
    | cons x rest =>
      rw [run_many_one_cons hc]
      split
      · exact Option.or_of_isSome some
      · rfl
  | cons x w ih =>
    have here : k c gs = none := by simpa using early [] (x :: w) rfl (by simp)
    have next (v : Text) : (c.past [x]).past v = c.past (x :: v) := Cursor.past_past c [x] v
    rw [run_many_one_cons hc, if_pos (hw x (by simp)), here, Option.none_or, ← next w]
    refine ih (Cursor.rest_past hc) (fun y hy => hw y (by simp [hy])) ?_ (next w ▸ some)
    intro v v' split full
    rw [next]
    exact early (x :: v) v' (by rw [split]; rfl) full

/-- A repetition that takes as few characters as possible takes those in front of the first place
that the rest of the pattern does not refuse. -/
theorem prefers_fewest_one (slot : Nat) (hw : ∀ x ∈ w, q x = true)
    (early : ∀ v v', w = v ++ v' → v' ≠ [] → Refuses b (v' ++ (u ++ rest)))
    (hb : Prefers b u rest h) :
    Prefers (group slot (fewest (one q)) ++ b) (w ++ u) rest (h ++ [(slot, w)]) := by
  intro c hc
  rw [List.append_assoc] at hc
  have behind : (c.past w).rest = u ++ rest := Cursor.rest_past hc
  obtain ⟨gs, remembered, taken⟩ := hb (c.past w) behind
  have span : c.spanTo (c.past w) = ⟨c.offset, w⟩ := by
    refine spanTo_eq ?_
    rw [behind, hc]
  refine ⟨gs ++ [(slot, ⟨c.offset, w⟩)], by simp [texts, ← remembered], fun hs k some => ?_⟩
  rw [← Cursor.past_past, List.append_assoc] at some ⊢
  have last := taken ((slot, ⟨c.offset, w⟩) :: hs) k some
  rw [← span] at last some ⊢
  rw [List.singleton_append] at some ⊢
  rw [← last] at some ⊢
  refine run_fewest_one hc hw ?_ some
  intro v v' split full
  refine Refuses.run_eq_none ?_
  rw [Cursor.rest_past (u := v) (by rw [hc, split, List.append_assoc])]
  exact early v v' split full

theorem takes_blanks1_iff {offset : Nat} : Takes blanks1 offset w gs ↔ Text.Gap w ∧ gs = [] := by
  constructor
  · intro h
    obtain ⟨full, blank, rfl⟩ := takes_plus_one h
    exact ⟨⟨full, blank⟩, rfl⟩
  · rintro ⟨⟨full, blank⟩, rfl⟩
    exact Takes.of_plus_one offset full blank

section

variable (hr : Opens (fun x => Text.isBlank x = false) rest)

include hr

theorem prefers_blanks (hw : ∀ x ∈ w, Text.isBlank x = true) : Prefers blanks w rest [] := by
  refine prefers_star_one hw ?_
  obtain ⟨x, rest, rfl, inked⟩ := hr
  simpa using inked

theorem prefers_blanks1 (hw : Text.Gap w) : Prefers blanks1 w rest [] := by
  refine prefers_plus_one hw.nonempty hw.blank ?_
  obtain ⟨x, rest, rfl, inked⟩ := hr
  simpa using inked

end

/-! ### Matches -/

/-- The match stands at this offset, takes this word and remembers these texts. -/
structure Shows (m : Match) (start : Nat) (w : Text) (g : List (Nat × Text)) : Prop where
  whole : m.whole = ⟨start, w⟩
  groups : texts m.groups = g

namespace Shows

variable {start : Nat} (hm : Shows m start w g) (slot : Nat)

include hm

theorem group? : (m.group? slot).map Span.text = g.lookup slot := by
  rw [← hm.groups, lookup_texts]
  rfl

theorem groupText : m.groupText slot = (g.lookup slot).getD [] := by
  rw [← hm.group? slot]
  rfl

theorem isSome : (m.group? slot).isSome = (g.lookup slot).isSome := by
  rw [← hm.group? slot, Option.isSome_map]

end Shows

theorem Prefers.run_eq (hp : Prefers p w rest g) (hc : c.rest = w ++ rest) :
    ∃ gs, texts gs = g ∧ run p c [] (fun d gs => some (d, gs)) = some (c.past w, gs) ∧
      c.spanTo (c.past w) = ⟨c.offset, w⟩ := by
  obtain ⟨gs, remembered, taken⟩ := hp c hc
  refine ⟨gs, remembered, ?_, spanTo_eq ?_⟩
  · rw [taken [] _ rfl, List.append_nil]
  · rw [Cursor.rest_past hc, hc]

theorem Prefers.matchFront? (hp : Prefers p w rest g) :
    ∃ m, p.matchFront? (w ++ rest) = some m ∧ Shows m 0 w g := by
  obtain ⟨gs, remembered, ran, span⟩ := hp.run_eq (c := Cursor.ofText (w ++ rest)) rfl
  rw [Pattern.matchFront?, matchAt?, ran]
  exact ⟨_, rfl, span, remembered⟩

theorem Refuses.matchFront? (hp : Refuses p cs) : p.matchFront? cs = none := by
  have ran : run p (Cursor.ofText cs) [] (fun d gs => some (d, gs)) = none := Refuses.run_eq_none hp
  rw [Pattern.matchFront?, matchAt?, ran, Option.map_none]

theorem past_cons (before : Option Char) (offset : Nat) (x : Char) (cs u : Text) :
    (⟨before, offset, x :: cs⟩ : Cursor).past (x :: u) =
      (⟨some x, offset + x.utf8Size, cs⟩ : Cursor).past u := by
  have first : (⟨before, offset, x :: cs⟩ : Cursor).past [x] =
      ⟨some x, offset + x.utf8Size, cs⟩ := by simp [Cursor.past]
  rw [← first, Cursor.past_past, List.singleton_append]

theorem searchFrom?_cons (before : Option Char) (offset : Nat) (x : Char) (cs : Text) :
    searchFrom? p before offset (x :: cs) =
      (searchFrom?.next? p ⟨before, offset, x :: cs⟩).or
        (searchFrom? p (some x) (offset + x.utf8Size) cs) := by
  rw [Pattern.searchFrom?, Option.orElse_eq_or]

/-- A search passes over a text where nothing is found. -/
theorem searchFrom?_skip {before : Option Char} {offset : Nat}
    (none : ∀ u v, w = u ++ v → v ≠ [] →
      searchFrom?.next? p ((⟨before, offset, w ++ rest⟩ : Cursor).past u) = none) :
    searchFrom? p before offset (w ++ rest) =
      searchFrom? p (w.getLast?.or before) (offset + Text.size w) rest := by
  induction w generalizing before offset with
  | nil => rfl
  | cons x w ih =>
    have here := none [] (x :: w) rfl (by simp)
    have later := ih fun u v split full => by
      rw [← past_cons before]
      exact none (x :: u) v (by rw [split]; rfl) full
    rw [Cursor.past_nil] at here
    rw [List.cons_append, searchFrom?_cons, ← List.cons_append, here, Option.none_or, later,
      Text.size_cons, Nat.add_assoc, List.getLast?_cons]
    cases w.getLast? <;> rfl

/-- Where a search finds nothing, there is nothing. -/
theorem next?_of_searchFrom?_none {before : Option Char} {offset : Nat}
    (h : searchFrom? p before offset (u ++ v) = none) :
    searchFrom?.next? p ((⟨before, offset, u ++ v⟩ : Cursor).past u) = none := by
  induction u generalizing before offset with
  | nil =>
    rw [List.nil_append] at h ⊢
    rw [Cursor.past_nil]
    cases v with
    | nil => exact h
    | cons x v =>
      rw [searchFrom?_cons, Option.or_eq_none_iff] at h
      exact h.1
  | cons x u ih =>
    rw [List.cons_append, searchFrom?_cons, Option.or_eq_none_iff] at h
    rw [List.cons_append, past_cons]
    exact ih h.2

/-- A search finds the first place where something is found. -/
theorem searchFrom?_first {before : Option Char} {offset : Nat} {r : Match × Cursor}
    (h : searchFrom? p before offset cs = some r) : ∃ u v, cs = u ++ v ∧
      searchFrom?.next? p ((⟨before, offset, cs⟩ : Cursor).past u) = some r ∧
      ∀ x y, u = x ++ y → y ≠ [] →
        searchFrom?.next? p ((⟨before, offset, cs⟩ : Cursor).past x) = none := by
  have here {before : Option Char} {offset : Nat} {cs : Text}
      (h : searchFrom?.next? p ⟨before, offset, cs⟩ = some r) : ∃ u v, cs = u ++ v ∧
        searchFrom?.next? p ((⟨before, offset, cs⟩ : Cursor).past u) = some r ∧
        ∀ x y, u = x ++ y → y ≠ [] →
          searchFrom?.next? p ((⟨before, offset, cs⟩ : Cursor).past x) = none := by
    refine ⟨[], cs, rfl, by rw [Cursor.past_nil, h], fun x y split full => ?_⟩
    exact absurd (List.append_eq_nil_iff.mp split.symm).2 full
  induction cs generalizing before offset with
  | nil => exact here h
  | cons c cs ih =>
    rw [searchFrom?_cons] at h
    rcases Option.or_eq_some_iff.mp h with h | ⟨none, h⟩
    · exact here h
    · obtain ⟨u, v, rfl, found, early⟩ := ih h
      refine ⟨c :: u, v, rfl, by rw [past_cons, found], fun x y split full => ?_⟩
      cases x with
      | nil => rw [Cursor.past_nil, none]
      | cons c' x =>
        obtain ⟨rfl, more⟩ := List.cons.inj split
        rw [past_cons]
        exact early x y more full

/-- A search goes on to the first place that the pattern does not refuse. -/
theorem Prefers.searchFrom? (hp : Prefers p w rest g)
    (early : ∀ u v, front = u ++ v → v ≠ [] → Refuses p (v ++ (w ++ rest)))
    (before : Option Char) (offset : Nat) :
    ∃ m d, searchFrom? p before offset (front ++ (w ++ rest)) = some (m, d) ∧
      Shows m (offset + Text.size front) w g := by
  induction front generalizing before offset with
  | nil =>
    rw [List.nil_append]
    generalize hc : w ++ rest = cs
    obtain ⟨gs, remembered, ran, span⟩ := hp.run_eq (c := ⟨before, offset, cs⟩) hc.symm
    have here : searchFrom?.next? p ⟨before, offset, cs⟩ =
        some (⟨⟨offset, w⟩, gs⟩, (⟨before, offset, cs⟩ : Cursor).past w) := by
      rw [searchFrom?.next?, ran, Option.map_some]
      simp only [span]
    refine ⟨⟨⟨offset, w⟩, gs⟩, (⟨before, offset, cs⟩ : Cursor).past w, ?_, rfl, remembered⟩
    cases cs with
    | nil => exact here
    | cons x cs =>
      rw [Pattern.searchFrom?, here]
      rfl
  | cons x front ih =>
    have refused : searchFrom?.next? p ⟨before, offset, x :: (front ++ (w ++ rest))⟩ = none := by
      have ran : run p ⟨before, offset, x :: (front ++ (w ++ rest))⟩ []
          (fun d gs => some (d, gs)) = none :=
        Refuses.run_eq_none (early [] (x :: front) rfl (by simp))
      rw [searchFrom?.next?, ran, Option.map_none]
    obtain ⟨m, d, found, shows⟩ :=
      ih (fun u v split full => early (x :: u) v (by rw [split]; rfl) full) (some x)
        (offset + x.utf8Size)
    refine ⟨m, d, ?_, by rw [Text.size_cons, ← Nat.add_assoc]; exact shows⟩
    rw [List.cons_append, Pattern.searchFrom?, refused, found]
    rfl

theorem Prefers.search? (hp : Prefers p w rest g)
    (early : ∀ u v, front = u ++ v → v ≠ [] → Refuses p (v ++ (w ++ rest))) :
    ∃ m, p.search? (front ++ (w ++ rest)) = some m ∧ Shows m (Text.size front) w g := by
  obtain ⟨m, d, found, shows⟩ := hp.searchFrom? early none 0
  rw [Nat.zero_add] at shows
  rw [Pattern.search?, found]
  exact ⟨m, rfl, shows⟩

/-- A pattern whose words all begin with a character is not found where that is missing. -/
theorem Starts.search?_eq_none {x : Char} (hp : Starts (· = x) p) (hx : x ∉ cs) :
    p.search? cs = none := by
  cases found : p.search? cs with
  | none => rfl
  | some m =>
    obtain ⟨⟨n, d⟩, searched, rfl⟩ := Option.map_eq_some_iff.mp found
    obtain ⟨front, split, -, -, takes⟩ := searchFrom?_takes searched
    obtain ⟨y, more, word, rfl⟩ := takes.opens hp
    rw [split, word] at hx
    simp at hx

/-- As long as that character is missing, the search goes on. -/
theorem Starts.refuses_early {x : Char} (hp : Starts (· = x) p) (hx : x ∉ front) (cs : Text) :
    ∀ u v, front = u ++ v → v ≠ [] → Refuses p (v ++ cs) := by
  rintro u v rfl full
  obtain ⟨y, v, rfl⟩ := List.exists_cons_of_ne_nil full
  refine hp.refuses ?_
  rintro ⟨z, more, opens, rfl⟩
  obtain ⟨rfl, -⟩ := List.cons.inj opens
  simp at hx

/-! ### Erasing -/

theorem charsWithin_size (front rest : Text) :
    charsWithin (Text.size front) (front ++ rest) = front.length := by
  induction front with
  | nil =>
    cases rest with
    | nil => rfl
    | cons x rest =>
      have pos := x.utf8Size_pos
      simp only [List.nil_append, Text.size_nil, charsWithin, List.length_nil]
      rw [if_neg (by omega)]
  | cons x front ih =>
    simp only [List.cons_append, Text.size_cons, charsWithin, List.length_cons]
    rw [if_pos (by omega), Nat.add_sub_cancel_left, ih]

theorem eraseFirst_of_search? (found : p.search? (front ++ (w ++ rest)) = some m)
    (whole : m.whole = ⟨Text.size front, w⟩) : p.eraseFirst (front ++ (w ++ rest)) = front ++ rest := by
  rw [eraseFirst, found, Option.toList_some, eraseMatches, whole, Nat.sub_zero, charsWithin_size,
    List.take_left, eraseMatches]
  simp

theorem eraseFirst_of_none (none : p.search? cs = none) : p.eraseFirst cs = cs := by
  rw [eraseFirst, none]
  rfl

end SourceTree.Pattern
