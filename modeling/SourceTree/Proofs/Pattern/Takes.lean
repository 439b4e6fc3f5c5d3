import SourceTree.Pattern.Search
import SourceTree.Proofs.Text.Boundary

/-!
What a pattern may take, apart from which of several ways it prefers: a word of its language,
together with the pieces that its groups remember. Whatever a search finds has been taken in this
sense and stands in the text at the offset that the match gives.
-/

namespace SourceTree.Pattern

/-- Rounds of a body one after the other. -/
inductive Rounds (body : Nat → Text → Groups → Prop) : Nat → Text → Groups → Prop where
  | stop (offset : Nat) : Rounds body offset [] []
  | round {offset : Nat} {u v : Text} {g h : Groups} : body offset u g →
      Rounds body (offset + Text.size u) v h → Rounds body offset (u ++ v) (h ++ g)

/-- The pattern can take this word at this offset, remembering these groups, latest first. -/
def Takes : Pattern → Nat → Text → Groups → Prop
  | one p, _, w, gs => ∃ c, w = [c] ∧ p c = true ∧ gs = []
  | seq a b, offset, w, gs => ∃ u v g h, w = u ++ v ∧ gs = h ++ g ∧
      Takes a offset u g ∧ Takes b (offset + Text.size u) v h
  | alt a b, offset, w, gs => Takes a offset w gs ∨ Takes b offset w gs
  | many _ body, offset, w, gs => Rounds (Takes body) offset w gs
  | group slot body, offset, w, gs => ∃ g, gs = (slot, ⟨offset, w⟩) :: g ∧ Takes body offset w g
  | done, _, w, gs | atEnd, _, w, gs | lineStart, _, w, gs | wordEdge, _, w, gs => w = [] ∧ gs = []

theorem spanTo_eq {c d : Cursor} {w : Text} (h : c.rest = w ++ d.rest) :
    c.spanTo d = ⟨c.offset, w⟩ := by
  have len : c.rest.length - d.rest.length = w.length := by
    rw [h, List.length_append]
    omega
  rw [Cursor.spanTo, len, h, List.take_left]

theorem rounds_takes {p : Pattern} {greedy : Bool}
    (body : ∀ {c gs k r}, run p c gs k = some r → ∃ w g d, c.rest = w ++ d.rest ∧
      d.offset = c.offset + Text.size w ∧ Takes p c.offset w g ∧ k d (g ++ gs) = some r)
    {fuel : Nat} {c : Cursor} {gs : Groups} {k : Continuation} {r : Cursor × Groups}
    (h : rounds (run p) greedy fuel c gs k = some r) :
    ∃ w g d, c.rest = w ++ d.rest ∧ d.offset = c.offset + Text.size w ∧
      Rounds (Takes p) c.offset w g ∧ k d (g ++ gs) = some r := by
  induction fuel generalizing c gs with
  | zero => exact ⟨[], [], c, rfl, rfl, .stop c.offset, h⟩
  | succ fuel ih =>
    -- Whether the round or the stop is preferred, one of the two led to the result.
    have either : k c gs = some r ∨ run p c gs (fun d hs =>
        if d.rest.length < c.rest.length then rounds (run p) greedy fuel d hs k else none) =
        some r := by
      simp only [rounds, Option.orElse_eq_or] at h
      split at h
      · rcases Option.or_eq_some_iff.mp h with h | ⟨-, h⟩
        · exact .inr h
        · exact .inl h
      · rcases Option.or_eq_some_iff.mp h with h | ⟨-, h⟩
        · exact .inl h
        · exact .inr h
    rcases either with h | h
    · exact ⟨[], [], c, rfl, rfl, .stop c.offset, h⟩
    · obtain ⟨u, g, d, hu, hd, ht, hk⟩ := body h
      split at hk
      next =>
        obtain ⟨v, g', e, hv, he, hr, hk⟩ := ih hk
        rw [hd] at hr
        refine ⟨u ++ v, g' ++ g, e, ?_, ?_, .round ht hr, ?_⟩
        · rw [hu, hv, List.append_assoc]
        · rw [he, hd, Text.size_append, Nat.add_assoc]
        · rwa [List.append_assoc]
      next => simp at hk

theorem run_takes {p : Pattern} {c : Cursor} {gs : Groups} {k : Continuation}
    {r : Cursor × Groups} (h : run p c gs k = some r) :
    ∃ w g d, c.rest = w ++ d.rest ∧ d.offset = c.offset + Text.size w ∧
      Takes p c.offset w g ∧ k d (g ++ gs) = some r := by
  induction p generalizing c gs k r with
  | done => exact ⟨[], [], c, rfl, rfl, ⟨rfl, rfl⟩, h⟩
  | one p =>
    simp only [run] at h
    split at h
    next => simp at h
    next x rest hc =>
      split at h
      next hx =>
        exact ⟨[x], [], ⟨some x, c.offset + x.utf8Size, rest⟩, hc, by simp, ⟨x, rfl, hx, rfl⟩, h⟩
      next => simp at h
  | seq a b iha ihb =>
    obtain ⟨u, g, d, hu, hd, ha, h⟩ := iha h
    obtain ⟨v, g', e, hv, he, hb, h⟩ := ihb h
    rw [hd] at hb
    refine ⟨u ++ v, g' ++ g, e, ?_, ?_, ⟨u, v, g, g', rfl, rfl, ha, hb⟩, ?_⟩
    · rw [hu, hv, List.append_assoc]
    · rw [he, hd, Text.size_append, Nat.add_assoc]
    · rwa [List.append_assoc]
  | alt a b iha ihb =>
    rw [run, Option.orElse_eq_or] at h
    rcases Option.or_eq_some_iff.mp h with h | ⟨-, h⟩
    · obtain ⟨w, g, d, hw, hd, ht, h⟩ := iha h
      exact ⟨w, g, d, hw, hd, .inl ht, h⟩
    · obtain ⟨w, g, d, hw, hd, ht, h⟩ := ihb h
      exact ⟨w, g, d, hw, hd, .inr ht, h⟩
  | many greedy body ih => exact rounds_takes ih h
  | group slot body ih =>
    obtain ⟨w, g, d, hw, hd, ht, h⟩ := ih h
    rw [spanTo_eq hw] at h
    exact ⟨w, (slot, ⟨c.offset, w⟩) :: g, d, hw, hd, ⟨g, rfl, ht⟩, h⟩
  | atEnd | lineStart | wordEdge =>
    simp only [run] at h
    split at h
    next => exact ⟨[], [], c, rfl, rfl, ⟨rfl, rfl⟩, h⟩
    next => simp at h

theorem matchFront?_takes {p : Pattern} {cs : Text} {m : Match} (h : p.matchFront? cs = some m) :
    ∃ rest, cs = m.whole.text ++ rest ∧ m.whole.start = 0 ∧ Takes p 0 m.whole.text m.groups := by
  obtain ⟨⟨d, gs⟩, hrun, rfl⟩ := Option.map_eq_some_iff.mp h
  obtain ⟨w, g, e, hw, -, ht, hk⟩ := run_takes hrun
  obtain ⟨rfl, rfl⟩ : e = d ∧ g = gs := by simpa using hk
  simp only [spanTo_eq hw]
  exact ⟨e.rest, hw, rfl, ht⟩

theorem matchFront?_boundary {p : Pattern} {cs : Text} {m : Match}
    (h : p.matchFront? cs = some m) : Text.Boundary cs m.stop := by
  obtain ⟨rest, hc, start, -⟩ := matchFront?_takes h
  rw [Match.stop, Span.stop, start, Nat.zero_add, hc]
  exact Text.boundary_append m.whole.text rest

/-- What a match found in a text that starts at `offset` says: its word stands there. -/
def FoundIn (p : Pattern) (offset : Nat) (cs : Text) (m : Match) : Prop :=
  ∃ front back, cs = front ++ m.whole.text ++ back ∧ m.whole.start = offset + Text.size front ∧
    Takes p m.whole.start m.whole.text m.groups

theorem FoundIn.prepend {p : Pattern} {offset : Nat} {cs : Text} {m : Match} (pre : Text)
    (h : FoundIn p (offset + Text.size pre) cs m) : FoundIn p offset (pre ++ cs) m := by
  obtain ⟨front, back, hc, hs, ht⟩ := h
  refine ⟨pre ++ front, back, ?_, ?_, ht⟩
  · rw [hc]
    simp
  · rw [hs, Text.size_append, Nat.add_assoc]

theorem searchFrom?_takes {p : Pattern} {before : Option Char} {offset : Nat} {cs : Text}
    {m : Match} {d : Cursor} (h : searchFrom? p before offset cs = some (m, d)) :
    ∃ front, cs = front ++ m.whole.text ++ d.rest ∧ m.whole.start = offset + Text.size front ∧
      d.offset = m.stop ∧ Takes p m.whole.start m.whole.text m.groups := by
  have here {c : Cursor} (h : searchFrom?.next? p c = some (m, d)) :
      c.rest = m.whole.text ++ d.rest ∧ m.whole.start = c.offset ∧ d.offset = m.stop ∧
        Takes p m.whole.start m.whole.text m.groups := by
    obtain ⟨⟨e, gs⟩, hrun, he⟩ := Option.map_eq_some_iff.mp h
    obtain ⟨w, g, e', hw, ho, ht, hk⟩ := run_takes hrun
    obtain ⟨rfl, rfl⟩ : e' = e ∧ g = gs := by simpa using hk
    obtain ⟨rfl, rfl⟩ : ⟨c.spanTo e', g⟩ = m ∧ e' = d := by simpa using he
    simp only [spanTo_eq hw, Match.stop, Span.stop]
    exact ⟨hw, trivial, ho, ht⟩
  induction cs generalizing before offset with
  | nil =>
    obtain ⟨hw, hs, hd, ht⟩ := here h
    exact ⟨[], hw, hs, hd, ht⟩
  | cons x cs ih =>
    rw [searchFrom?, Option.orElse_eq_or] at h
    rcases Option.or_eq_some_iff.mp h with h | ⟨-, h⟩
    · obtain ⟨hw, hs, hd, ht⟩ := here h
      exact ⟨[], hw, hs, hd, ht⟩
    · obtain ⟨front, hw, hs, hd, ht⟩ := ih h
      refine ⟨x :: front, ?_, ?_, hd, ht⟩
      · rw [hw]
        rfl
      · rw [hs, Text.size_cons, Nat.add_assoc]

theorem findAllFrom_takes {p : Pattern} {fuel : Nat} {c : Cursor} :
    (∀ m ∈ findAllFrom p fuel c, FoundIn p c.offset c.rest m) ∧
      (findAllFrom p fuel c).Pairwise fun a b => a.stop ≤ b.whole.start := by
  induction fuel generalizing c with
  | zero => simp [findAllFrom]
  | succ fuel ih =>
    rw [findAllFrom]
    split
    next => simp
    next m d hfound =>
      obtain ⟨front, hw, hs, hd, ht⟩ := searchFrom?_takes hfound
      have first : FoundIn p c.offset c.rest m := ⟨front, d.rest, hw, hs, ht⟩
      -- The search goes on behind the match, after the characters `gap`.
      have goOn {e : Cursor} (gap : Text) (hr : d.rest = gap ++ e.rest)
          (ho : e.offset = d.offset + Text.size gap) :
          (∀ n ∈ m :: findAllFrom p fuel e, FoundIn p c.offset c.rest n) ∧
            (m :: findAllFrom p fuel e).Pairwise fun a b => a.stop ≤ b.whole.start := by
        have later : ∀ n ∈ findAllFrom p fuel e, FoundIn p c.offset c.rest n := by
          intro n hn
          have split : c.rest = (front ++ m.whole.text ++ gap) ++ e.rest := by
            rw [hw, hr]
            simp
          have place : e.offset = c.offset + Text.size (front ++ m.whole.text ++ gap) := by
            rw [ho, hd, Match.stop, Span.stop, hs, Text.size_append, Text.size_append]
            omega
          rw [split]
          have hn' := ih.1 n hn
          rw [place] at hn'
          exact hn'.prepend _
        refine ⟨?_, List.pairwise_cons.mpr ⟨?_, ih.2⟩⟩
        · intro n hn
          rcases List.mem_cons.mp hn with rfl | hn
          · exact first
          · exact later n hn
        · intro n hn
          obtain ⟨front', -, -, hs', -⟩ := ih.1 n hn
          rw [hs', ho, hd]
          omega
      split
      next =>
        split
        next => simpa using first
        next x rest hx => exact goOn [x] (by simp [hx]) (by simp)
      next => exact goOn [] rfl (by simp)

theorem findAll_takes {p : Pattern} {cs : Text} {m : Match} (h : m ∈ findAll p cs) :
    FoundIn p 0 cs m :=
  findAllFrom_takes.1 m h

theorem findAll_pairwise (p : Pattern) (cs : Text) :
    (findAll p cs).Pairwise fun a b => a.stop ≤ b.whole.start :=
  findAllFrom_takes.2

end SourceTree.Pattern
