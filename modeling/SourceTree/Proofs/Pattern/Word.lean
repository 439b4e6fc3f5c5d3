import SourceTree.Proofs.Pattern.Takes
import SourceTree.Proofs.Text.Edge

/-!
What the shape of a pattern says about every word that it takes: whether the word can be empty, with
which characters it can begin and end, which it cannot hold at all, and which groups are remembered.
The five properties are recursions over patterns, so that they can be worked out for a given pattern
by unfolding.
-/

namespace SourceTree.Pattern

open Text (Opens Closes)

/-- No word is empty. -/
def Filled : Pattern → Prop
  | one _ => True
  | seq a b => Filled a ∨ Filled b
  | alt a b => Filled a ∧ Filled b
  | group _ body => Filled body
  | _ => False

/-- Every word that is not empty begins with a character of the class. -/
def Leads (P : Char → Prop) : Pattern → Prop
  | one p => ∀ c, p c = true → P c
  | seq a b => Leads P a ∧ (Filled a ∨ Leads P b)
  | alt a b => Leads P a ∧ Leads P b
  | many _ body | group _ body => Leads P body
  | _ => True

/-- Every word that is not empty ends with a character of the class. -/
def Trails (P : Char → Prop) : Pattern → Prop
  | one p => ∀ c, p c = true → P c
  | seq a b => Trails P b ∧ (Filled b ∨ Trails P a)
  | alt a b => Trails P a ∧ Trails P b
  | many _ body | group _ body => Trails P body
  | _ => True

/-- No word holds the character. -/
def lacks (x : Char) : Pattern → Bool
  | one p => !p x
  | seq a b | alt a b => lacks x a && lacks x b
  | many _ body | group _ body => lacks x body
  | _ => true

/-- The groups that may be remembered. -/
def slots : Pattern → List Nat
  | seq a b | alt a b => slots a ++ slots b
  | many _ body => slots body
  | group slot body => slot :: slots body
  | _ => []

section

variable {P : Char → Prop} {p a b : Pattern} {offset : Nat} {w : Text} {gs : Groups}

theorem Takes.ne_nil (h : Takes p offset w gs) (hp : Filled p) : w ≠ [] := by
  induction p generalizing offset w gs with
  | one =>
    obtain ⟨c, rfl, -⟩ := h
    simp
  | seq a b iha ihb =>
    obtain ⟨u, v, g, g', rfl, -, ha, hb⟩ := h
    rcases hp with hp | hp
    · simp [iha ha hp]
    · simp [ihb hb hp]
  | alt a b iha ihb =>
    rcases h with h | h
    · exact iha h hp.1
    · exact ihb h hp.2
  | group slot body ih =>
    obtain ⟨g, -, h⟩ := h
    exact ih h hp
  | done | many | atEnd | lineStart | wordEdge => exact hp.elim

theorem Takes.leads (h : Takes p offset w gs) (hp : Leads P p) : w = [] ∨ Opens P w := by
  induction p generalizing offset w gs with
  | one =>
    obtain ⟨c, rfl, hc, -⟩ := h
    exact .inr ⟨c, [], rfl, hp c hc⟩
  | seq a b iha ihb =>
    obtain ⟨u, v, g, g', rfl, -, ha, hb⟩ := h
    rcases iha ha hp.1 with rfl | hu
    · rcases hp.2 with full | hp
      · exact absurd rfl (ha.ne_nil full)
      · exact ihb hb hp
    · exact .inr (hu.append v)
  | alt a b iha ihb =>
    rcases h with h | h
    · exact iha h hp.1
    · exact ihb h hp.2
  | group slot body ih =>
    obtain ⟨g, -, h⟩ := h
    exact ih h hp
  | many greedy body ih =>
    induction h with
    | stop => exact .inl rfl
    | @round o u v g g' hu _ ihv =>
      rcases ih hu hp with rfl | hu
      · exact ihv
      · exact .inr (hu.append v)
  | done | atEnd | lineStart | wordEdge => exact .inl h.1

theorem Takes.trails (h : Takes p offset w gs) (hp : Trails P p) : w = [] ∨ Closes P w := by
  induction p generalizing offset w gs with
  | one =>
    obtain ⟨c, rfl, hc, -⟩ := h
    exact .inr ⟨[], c, rfl, hp c hc⟩
  | seq a b iha ihb =>
    obtain ⟨u, v, g, g', rfl, -, ha, hb⟩ := h
    rcases ihb hb hp.1 with rfl | hv
    · rcases hp.2 with full | hp
      · exact absurd rfl (hb.ne_nil full)
      · simpa using iha ha hp
    · exact .inr (hv.append u)
  | alt a b iha ihb =>
    rcases h with h | h
    · exact iha h hp.1
    · exact ihb h hp.2
  | group slot body ih =>
    obtain ⟨g, -, h⟩ := h
    exact ih h hp
  | many greedy body ih =>
    induction h with
    | stop => exact .inl rfl
    | @round o u v g g' hu _ ihv =>
      rcases ihv with rfl | hv
      · simpa using ih hu hp
      · exact .inr (hv.append u)
  | done | atEnd | lineStart | wordEdge => exact .inl h.1

theorem Takes.not_mem {x : Char} (h : Takes p offset w gs) (hp : p.lacks x = true) : x ∉ w := by
  induction p generalizing offset w gs with
  | one q =>
    obtain ⟨c, rfl, hc, -⟩ := h
    rw [List.mem_singleton]
    rintro rfl
    simp [lacks, hc] at hp
  | seq a b iha ihb =>
    obtain ⟨u, v, g, g', rfl, -, ha, hb⟩ := h
    simp only [lacks, Bool.and_eq_true] at hp
    rw [List.mem_append, not_or]
    exact ⟨iha ha hp.1, ihb hb hp.2⟩
  | alt a b iha ihb =>
    simp only [lacks, Bool.and_eq_true] at hp
    rcases h with h | h
    · exact iha h hp.1
    · exact ihb h hp.2
  | group slot body ih =>
    obtain ⟨g, -, h⟩ := h
    exact ih h hp
  | many greedy body ih =>
    induction h with
    | stop => exact List.not_mem_nil
    | round hu _ ihv =>
      rw [List.mem_append, not_or]
      exact ⟨ih hu hp, ihv⟩
  | done | atEnd | lineStart | wordEdge =>
    obtain ⟨rfl, -⟩ := h
    exact List.not_mem_nil

/-- Every word begins with a character of the class. -/
def Starts (P : Char → Prop) (p : Pattern) : Prop := Filled p ∧ Leads P p

/-- Every word ends with a character of the class. -/
def Stops (P : Char → Prop) (p : Pattern) : Prop := Filled p ∧ Trails P p

theorem Takes.opens (h : Takes p offset w gs) (hp : Starts P p) : Opens P w :=
  (h.leads hp.2).resolve_left (h.ne_nil hp.1)

theorem Takes.closes (h : Takes p offset w gs) (hp : Stops P p) : Closes P w :=
  (h.trails hp.2).resolve_left (h.ne_nil hp.1)

theorem Starts.append (h : Starts P a) : Starts P (a ++ b) := ⟨.inl h.1, h.2, .inl h.1⟩

theorem Starts.opt_append (ha : Starts P a) (hb : Starts P b) : Starts P (opt a ++ b) :=
  ⟨.inr hb.1, ⟨ha.2, trivial⟩, .inr hb.2⟩

theorem Stops.append (h : Stops P b) : Stops P (a ++ b) := ⟨.inr h.1, h.2, .inl h.1⟩

theorem Stops.append_opt (ha : Stops P a) (hb : Stops P b) : Stops P (a ++ opt b) :=
  ⟨.inl ha.1, ⟨hb.2, trivial⟩, .inr ha.2⟩

theorem Stops.append_star (ha : Stops P a) (hb : Stops P b) : Stops P (a ++ star b) :=
  ⟨.inl ha.1, hb.2, .inr ha.2⟩

theorem starts_one {q : Char → Bool} (h : ∀ c, q c = true → P c) : Starts P (one q) := ⟨trivial, h⟩

theorem stops_one {q : Char → Bool} (h : ∀ c, q c = true → P c) : Stops P (one q) := ⟨trivial, h⟩

theorem Starts.mono {Q : Char → Prop} (h : Starts P p) (hPQ : ∀ c, P c → Q c) : Starts Q p := by
  obtain ⟨full, leads⟩ := h
  refine ⟨full, ?_⟩
  clear full
  induction p with
  | one => exact fun c hc => hPQ c (leads c hc)
  | seq a b iha ihb => exact ⟨iha leads.1, leads.2.imp id ihb⟩
  | alt a b iha ihb => exact ⟨iha leads.1, ihb leads.2⟩
  | many greedy body ih | group slot body ih => exact ih leads
  | done | atEnd | lineStart | wordEdge => trivial

theorem Takes.mem_slots (h : Takes p offset w gs) : ∀ g ∈ gs, g.1 ∈ slots p := by
  induction p generalizing offset w gs with
  | one =>
    obtain ⟨c, -, -, rfl⟩ := h
    simp
  | seq a b iha ihb =>
    obtain ⟨u, v, g, g', -, rfl, ha, hb⟩ := h
    intro x hx
    rcases List.mem_append.mp hx with hx | hx
    · exact List.mem_append_right _ (ihb hb x hx)
    · exact List.mem_append_left _ (iha ha x hx)
  | alt a b iha ihb =>
    intro x hx
    rcases h with h | h
    · exact List.mem_append_left _ (iha h x hx)
    · exact List.mem_append_right _ (ihb h x hx)
  | group slot body ih =>
    obtain ⟨g, rfl, h⟩ := h
    intro x hx
    rcases List.mem_cons.mp hx with rfl | hx
    · exact List.mem_cons_self
    · exact List.mem_cons_of_mem _ (ih h x hx)
  | many greedy body ih =>
    induction h with
    | stop => simp
    | round hu _ ihv =>
      intro x hx
      rcases List.mem_append.mp hx with hx | hx
      · exact ihv x hx
      · exact ih hu x hx
  | done | atEnd | lineStart | wordEdge =>
    obtain ⟨-, rfl⟩ := h
    simp

theorem Takes.silent (h : Takes p offset w gs) (hp : slots p = []) : gs = [] := by
  apply List.eq_nil_iff_forall_not_mem.mpr
  intro g hg
  have mem := h.mem_slots g hg
  simp [hp] at mem

theorem Takes.lookup_eq_none (h : Takes p offset w gs) {slot : Nat} (hs : slot ∉ slots p) :
    gs.lookup slot = none := by
  rw [List.lookup_eq_none_iff]
  intro g hg
  have ne : slot ≠ g.1 := by
    rintro rfl
    exact hs (h.mem_slots g hg)
  simpa using ne

theorem takes_star_one {q : Char → Bool} (h : Takes (star (one q)) offset w gs) :
    (∀ c ∈ w, q c = true) ∧ gs = [] := by
  induction h with
  | stop => simp
  | round hu _ ih =>
    obtain ⟨c, rfl, hc, rfl⟩ := hu
    refine ⟨?_, by simpa using ih.2⟩
    intro x hx
    rcases List.mem_cons.mp hx with rfl | hx
    · exact hc
    · exact ih.1 x hx

theorem takes_plus_one {q : Char → Bool} (h : Takes (plus (one q)) offset w gs) :
    w ≠ [] ∧ (∀ c ∈ w, q c = true) ∧ gs = [] := by
  obtain ⟨u, v, g, g', rfl, rfl, ⟨c, rfl, hc, rfl⟩, hv⟩ := h
  obtain ⟨all, rfl⟩ := takes_star_one hv
  refine ⟨by simp, ?_, rfl⟩
  intro x hx
  rcases List.mem_cons.mp hx with rfl | hx
  · exact hc
  · exact all x hx

theorem takes_lit {word : String} (h : Takes (lit word) offset w gs) :
    w = word.toList ∧ gs = [] := by
  unfold lit at h
  generalize word.toList = letters at h ⊢
  induction letters generalizing offset w gs with
  | nil => exact h
  | cons c cs ih =>
    obtain ⟨u, v, g, g', rfl, rfl, ⟨x, rfl, hx, rfl⟩, hv⟩ := h
    obtain ⟨rfl, rfl⟩ := ih hv
    obtain rfl : x = c := by simpa using hx
    exact ⟨rfl, rfl⟩

theorem Takes.of_star_one {q : Char → Bool} (offset : Nat) (h : ∀ c ∈ w, q c = true) :
    Takes (star (one q)) offset w [] := by
  induction w generalizing offset with
  | nil => exact .stop offset
  | cons c w ih =>
    have first : Takes (one q) offset [c] [] := ⟨c, rfl, h c (by simp), rfl⟩
    exact .round first (ih _ fun x hx => h x (by simp [hx]))

theorem Takes.of_plus_one {q : Char → Bool} (offset : Nat) (full : w ≠ [])
    (h : ∀ c ∈ w, q c = true) : Takes (plus (one q)) offset w [] := by
  cases w with
  | nil => exact absurd rfl full
  | cons c w =>
    refine ⟨[c], w, [], [], rfl, rfl, ⟨c, rfl, h c (by simp), rfl⟩, ?_⟩
    exact Takes.of_star_one _ fun x hx => h x (by simp [hx])

theorem Takes.of_lit (word : String) (offset : Nat) : Takes (lit word) offset word.toList [] := by
  unfold lit
  generalize word.toList = letters
  induction letters generalizing offset with
  | nil => exact ⟨rfl, rfl⟩
  | cons c cs ih => exact ⟨[c], cs, [], [], rfl, rfl, ⟨c, rfl, by simp, rfl⟩, ih _⟩

theorem starts_lit [DecidablePred P] {word : String}
    (h : word.toList.head?.any (fun c => decide (P c)) = true) : Starts P (lit word) := by
  obtain ⟨c, hc, hP⟩ := (Option.any_eq_true _ _).mp h
  obtain ⟨cs, hw⟩ := List.head?_eq_some_iff.mp hc
  rw [lit, hw]
  refine Starts.append (starts_one fun y hy => ?_)
  obtain rfl : y = c := by simpa using hy
  exact of_decide_eq_true hP

theorem stops_lit [DecidablePred P] {word : String}
    (h : word.toList.getLast?.any (fun c => decide (P c)) = true) : Stops P (lit word) := by
  unfold lit
  generalize word.toList = letters at h ⊢
  induction letters with
  | nil => simp at h
  | cons x cs ih =>
    cases cs with
    | nil =>
      refine ⟨.inl trivial, trivial, .inr fun y hy => ?_⟩
      obtain rfl : y = x := by simpa using hy
      simpa using h
    | cons y cs => exact (ih (by simpa using h)).append

theorem starts_anyOf {ps : List Pattern} (h : ∀ q ∈ ps, Starts P q) (full : ps ≠ []) :
    Starts P (anyOf ps) := by
  fun_induction anyOf ps with
  | case1 => exact absurd rfl full
  | case2 q => exact h q (by simp)
  | case3 q ps more ih =>
    obtain ⟨filled, leads⟩ := h q (by simp)
    obtain ⟨filled', leads'⟩ := ih (fun x hx => h x (by simp [hx])) fun none => more none
    exact ⟨⟨filled, filled'⟩, leads, leads'⟩

theorem starts_words [DecidablePred P] {words : List String}
    (h : words.all (fun w => w.toList.head?.any fun c => decide (P c)) = true) (full : words ≠ []) :
    Starts P (anyOf (words.map lit)) := by
  refine starts_anyOf (fun q hq => ?_) (by simpa using full)
  obtain ⟨w, hw, rfl⟩ := List.mem_map.mp hq
  exact starts_lit (List.all_eq_true.mp h w hw)

theorem takes_assoc {c : Pattern} :
    Takes ((a ++ b) ++ c) offset w gs ↔ Takes (a ++ (b ++ c)) offset w gs := by
  constructor
  · rintro ⟨_, v, _, h, rfl, rfl, ⟨u, u', g, g', rfl, rfl, ha, hb⟩, hc⟩
    rw [Text.size_append, ← Nat.add_assoc] at hc
    exact ⟨u, u' ++ v, g, h ++ g', by simp, by simp, ha, u', v, g', h, rfl, rfl, hb, hc⟩
  · rintro ⟨u, _, g, _, rfl, rfl, ha, u', v, g', h, rfl, rfl, hb, hc⟩
    rw [Nat.add_assoc, ← Text.size_append] at hc
    exact ⟨u ++ u', v, g' ++ g, h, by simp, by simp, ⟨u, u', g, g', rfl, rfl, ha, hb⟩, hc⟩

end

end SourceTree.Pattern
