import SourceTree.Proofs.Change.WellFormed

/-!
The sweep over sorted edits, which compares each edit only with the one that reaches furthest among
those before it. What it reports are overlaps, each pair of changes once; and although it misses
pairs, every change with an edit that overlaps one of another change is named in a report.
-/

namespace SourceTree.Change.Sweep

variable {allowTouching : Bool} {s : Sweep} {es : List Edit}

def after (allowTouching : Bool) (s : Sweep) (es : List Edit) : Sweep :=
  es.foldl (step allowTouching) s

theorem after_append_cons (allowTouching : Bool) (s : Sweep) (pre post : List Edit) (e : Edit) :
    after allowTouching s (pre ++ e :: post) =
      after allowTouching ((after allowTouching s pre).step allowTouching e) post := by
  simp [after]

theorem reports_eq_some_iff {next : Edit} {r : Edit × Edit} :
    s.reports allowTouching next = some r ↔
      ∃ previous, s.reach = some previous ∧ r = (previous, next) ∧
        meets allowTouching previous next = true ∧ previous.index ≠ next.index ∧
        pair previous next ∉ s.reported := by
  unfold reports
  cases hr : s.reach with
  | none => simp
  | some previous =>
    simp only [Option.ite_none_right_eq_some, Bool.and_eq_true, bne_iff_ne, Bool.not_eq_true',
      List.contains_eq_mem, decide_eq_false_iff_not, Option.some.injEq, exists_eq_left']
    constructor
    · rintro ⟨⟨⟨hm, hi⟩, hp⟩, rfl⟩
      exact ⟨rfl, hm, hi, hp⟩
    · rintro ⟨rfl, hm, hi, hp⟩
      exact ⟨⟨⟨hm, hi⟩, hp⟩, rfl⟩

theorem after_reported (allowTouching : Bool) (s : Sweep) (es : List Edit) :
    (after allowTouching s es).reported =
      ((run allowTouching s es).map fun r => pair r.1 r.2).reverse ++ s.reported := by
  induction es generalizing s with
  | nil => rfl
  | cons e es ih =>
    change (after allowTouching (s.step allowTouching e) es).reported = _
    rw [ih, run, List.map_append, List.reverse_append, List.append_assoc]
    congr 1
    simp only [step]
    cases s.reports allowTouching e <;> rfl

/-- No pair of changes is reported twice. -/
theorem after_reported_nodup (allowTouching : Bool) (s : Sweep) (es : List Edit)
    (h : s.reported.Nodup) : (after allowTouching s es).reported.Nodup := by
  induction es generalizing s with
  | nil => exact h
  | cons e es ih =>
    apply ih (s.step allowTouching e)
    simp only [step]
    cases hr : s.reports allowTouching e with
    | none => exact h
    | some r =>
      obtain ⟨previous, _, rfl, _, _, new⟩ := reports_eq_some_iff.mp hr
      exact List.nodup_cons.mpr ⟨new, h⟩

/-- Meeting is kept by an earlier edit that reaches further and by a later one that starts sooner. -/
theorem meets_mono {a b c d : Edit} (h : meets allowTouching a b = true)
    (stop : a.stop ≤ c.stop) (start : d.start ≤ b.start) : meets allowTouching c d = true := by
  cases allowTouching <;>
    simp only [meets, if_true, if_false, decide_eq_true_eq, Bool.false_eq_true] at h ⊢
  all_goals omega

theorem start_le_of_meets {a b : Edit} (h : meets allowTouching a b = true) :
    b.start ≤ a.stop := by
  cases allowTouching <;>
    simp only [meets, if_true, if_false, decide_eq_true_eq, Bool.false_eq_true] at h
  all_goals omega

theorem overlaps_iff_meets {a b : Edit} (le : Edit.le a b = true) (hb : b.start ≤ b.stop) :
    a.Overlaps allowTouching b ↔ meets allowTouching a b = true := by
  rw [Edit.le_iff] at le
  cases allowTouching <;>
    simp only [Edit.Overlaps, meets, if_true, if_false, decide_eq_true_eq, Bool.false_eq_true]
  all_goals omega

/-- What the sweep reports are overlaps of two edits of different changes. -/
theorem run_sound (sorted : es.Pairwise fun a b => Edit.le a b = true)
    (ordered : ∀ e ∈ es, e.start ≤ e.stop)
    (reach : ∀ p, s.reach = some p → ∀ e ∈ es, Edit.le p e = true)
    {r : Edit × Edit} (h : r ∈ run allowTouching s es) :
    (s.reach = some r.1 ∨ r.1 ∈ es) ∧ r.2 ∈ es ∧ r.1.index ≠ r.2.index ∧
      r.1.Overlaps allowTouching r.2 := by
  induction es generalizing s with
  | nil => simp [run] at h
  | cons e es ih =>
    obtain ⟨first, sorted⟩ := List.pairwise_cons.mp sorted
    rcases List.mem_append.mp h with h | h
    · obtain ⟨p, hp, rfl, hm, hi, _⟩ := reports_eq_some_iff.mp (Option.mem_toList.mp h)
      have ple := reach p hp
      have overlap := (overlaps_iff_meets (ple e (by simp)) (ordered e (by simp))).mpr hm
      exact ⟨.inl hp, by simp, hi, overlap⟩
    · -- The reach after the step is the old one or the edit just read.
      have next : ∀ p, (s.step allowTouching e).reach = some p → s.reach = some p ∨ p = e := by
        intro p hp
        simp only [step] at hp
        cases hr : s.reach with
        | none => simp [hr] at hp; exact .inr hp.symm
        | some q =>
          simp only [hr] at hp
          split at hp
          · exact .inr (by simpa using hp.symm)
          · exact .inl hp
      have reach' : ∀ p, (s.step allowTouching e).reach = some p →
          ∀ d ∈ es, Edit.le p d = true := by
        intro p hp
        rcases next p hp with hp | rfl
        · exact fun d hd => reach p hp d (by simp [hd])
        · exact first
      obtain ⟨h1, h2, hi, overlap⟩ := ih sorted (fun d hd => ordered d (by simp [hd])) reach' h
      refine ⟨?_, by simp [h2], hi, overlap⟩
      rcases h1 with h1 | h1
      · rcases next _ h1 with h1 | h1
        · exact .inl h1
        · exact .inr (by simp [h1])
      · exact .inr (by simp [h1])

/-- A change takes part in one of the pairs. -/
def Names (pairs : List (Nat × Nat)) (index : Nat) : Prop :=
  ∃ p ∈ pairs, p.1 = index ∨ p.2 = index

theorem names_pair (a b : Edit) : Names [pair a b] a.index ∧ Names [pair a b] b.index := by
  simp only [Names, pair, List.mem_singleton, exists_eq_left]
  omega

theorem Names.mono {p q : List (Nat × Nat)} {index : Nat} (h : Names p index) (sub : p ⊆ q) :
    Names q index := by
  obtain ⟨x, hx, hi⟩ := h
  exact ⟨x, sub hx, hi⟩

theorem reported_subset_after (allowTouching : Bool) (s : Sweep) (es : List Edit) :
    s.reported ⊆ (after allowTouching s es).reported := by
  rw [after_reported]
  exact List.subset_append_right _ _

/-- An edit that meets the reach is in a report with it, now or earlier. -/
theorem pair_mem_step {r e : Edit} (hr : s.reach = some r) (hm : meets allowTouching r e = true)
    (hi : r.index ≠ e.index) : pair r e ∈ (s.step allowTouching e).reported := by
  by_cases old : pair r e ∈ s.reported
  · exact reported_subset_after allowTouching s [e] old
  · have report : s.reports allowTouching e = some (r, e) :=
      reports_eq_some_iff.mpr ⟨r, hr, rfl, hm, hi, old⟩
    simp [step, report]

/-- After that both their changes are named, however the sweep goes on. -/
theorem names_step {r e : Edit} (hr : s.reach = some r) (hm : meets allowTouching r e = true)
    (hi : r.index ≠ e.index) (es : List Edit) :
    Names (after allowTouching (s.step allowTouching e) es).reported r.index ∧
      Names (after allowTouching (s.step allowTouching e) es).reported e.index := by
  have sub : [pair r e] ⊆ (after allowTouching (s.step allowTouching e) es).reported := by
    intro p hp
    obtain rfl := List.mem_singleton.mp hp
    exact reported_subset_after allowTouching (s.step allowTouching e) es (pair_mem_step hr hm hi)
  exact ⟨(names_pair r e).1.mono sub, (names_pair r e).2.mono sub⟩

/-- If the reach meets some later edit of another change, its own change gets named. -/
theorem reach_named {r l : Edit} (hr : s.reach = some r)
    (sorted : es.Pairwise fun a b => Edit.le a b = true) (hl : l ∈ es)
    (hm : meets allowTouching r l = true) (hi : r.index ≠ l.index) :
    Names (after allowTouching s es).reported r.index := by
  induction es generalizing s r with
  | nil => simp at hl
  | cons e es ih =>
    obtain ⟨first, sorted⟩ := List.pairwise_cons.mp sorted
    have start : e.start ≤ l.start := by
      rcases List.mem_cons.mp hl with rfl | hl
      · exact Nat.le_refl _
      · have le := Edit.le_iff.mp (first l hl)
        omega
    have meets_e : meets allowTouching r e = true := meets_mono hm (Nat.le_refl _) start
    by_cases same : r.index = e.index
    · -- An edit of the same change: it can only take over as the reach.
      have hl' : l ∈ es := by
        rcases List.mem_cons.mp hl with rfl | hl
        · exact absurd same hi
        · exact hl
      by_cases further : r.stop < e.stop
      · have reach : (s.step allowTouching e).reach = some e := by simp [step, hr, further]
        have hm' : meets allowTouching e l = true :=
          meets_mono hm (Nat.le_of_lt further) (Nat.le_refl _)
        rw [same]
        exact ih reach sorted hl' hm' (by omega)
      · have reach : (s.step allowTouching e).reach = some r := by simp [step, hr, further]
        exact ih reach sorted hl' hm hi
    · exact (names_step hr meets_e same es).1

/-- The reach is the first of the edits seen so far that reaches furthest. -/
structure Reaches (seen : List Edit) (s : Sweep) : Prop where
  empty : s.reach = none → seen = []
  furthest : ∀ r, s.reach = some r → ∃ before later, seen = before ++ r :: later ∧
    (∀ e ∈ before, e.stop < r.stop) ∧ ∀ e ∈ later, e.stop ≤ r.stop

theorem Reaches.step {seen : List Edit} (h : Reaches seen s) (allowTouching : Bool) (e : Edit) :
    Reaches (seen ++ [e]) (s.step allowTouching e) := by
  cases hr : s.reach with
  | none =>
    have reach : (s.step allowTouching e).reach = some e := by simp [Sweep.step, hr]
    refine ⟨by simp [reach], ?_⟩
    intro r hr'
    obtain rfl : e = r := by simpa [reach] using hr'
    exact ⟨[], [], by simp [h.empty hr], by simp, by simp⟩
  | some q =>
    obtain ⟨before, later, rfl, hb, hl⟩ := h.furthest q hr
    by_cases further : q.stop < e.stop
    · have reach : (s.step allowTouching e).reach = some e := by simp [Sweep.step, hr, further]
      refine ⟨by simp [reach], ?_⟩
      intro r hr'
      obtain rfl : e = r := by simpa [reach] using hr'
      refine ⟨before ++ q :: later, [], by simp, ?_, by simp⟩
      intro d hd
      rcases List.mem_append.mp hd with hd | hd
      · have := hb d hd
        omega
      · rcases List.mem_cons.mp hd with rfl | hd
        · exact further
        · have := hl d hd
          omega
    · have reach : (s.step allowTouching e).reach = some q := by simp [Sweep.step, hr, further]
      refine ⟨by simp [reach], ?_⟩
      intro r hr'
      obtain rfl : q = r := by simpa [reach] using hr'
      refine ⟨before, later ++ [e], by simp, hb, ?_⟩
      intro d hd
      rcases List.mem_append.mp hd with hd | hd
      · exact hl d hd
      · obtain rfl := List.mem_singleton.mp hd
        omega

theorem Reaches.after {seen : List Edit} (h : Reaches seen s) (allowTouching : Bool)
    (es : List Edit) : Reaches (seen ++ es) (Sweep.after allowTouching s es) := by
  induction es generalizing seen s with
  | nil => simpa [Sweep.after] using h
  | cons e es ih =>
    have next := ih (h.step allowTouching e)
    simpa [Sweep.after] using next

theorem reaches_of_start (allowTouching : Bool) (pre : List Edit) :
    Reaches pre (after allowTouching {} pre) := by
  have start : Reaches [] ({} : Sweep) := ⟨fun _ => rfl, by simp⟩
  simpa using start.after allowTouching pre

/-- A change whose edit overlaps a later one of another change is named. -/
theorem earlier_named {pre post : List Edit} {x l : Edit}
    (sorted : (pre ++ x :: post).Pairwise fun a b => Edit.le a b = true)
    (hl : l ∈ post) (hm : meets allowTouching x l = true) (hi : x.index ≠ l.index) :
    Names (after allowTouching {} (pre ++ x :: post)).reported x.index := by
  obtain ⟨-, tail, -⟩ := List.pairwise_append.mp sorted
  obtain ⟨first, sorted'⟩ := List.pairwise_cons.mp tail
  have start : x.start ≤ l.start := by
    have le := Edit.le_iff.mp (first l hl)
    omega
  rw [after_append_cons]
  generalize after allowTouching {} pre = t
  cases hr : t.reach with
  | none =>
    have reach : (t.step allowTouching x).reach = some x := by simp [step, hr]
    exact reach_named reach sorted' hl hm hi
  | some r =>
    by_cases further : r.stop < x.stop
    · have reach : (t.step allowTouching x).reach = some x := by simp [step, hr, further]
      exact reach_named reach sorted' hl hm hi
    · have reach : (t.step allowTouching x).reach = some r := by simp [step, hr, further]
      -- The reach lies beyond the end of `x`, so it meets both `x` and the later edit.
      have meets_x : meets allowTouching r x = true := meets_mono hm (by omega) start
      have meets_l : meets allowTouching r l = true := meets_mono hm (by omega) (by omega)
      by_cases same : r.index = x.index
      · rw [← same]
        exact reach_named reach sorted' hl meets_l (by omega)
      · exact (names_step hr meets_x same post).2

/-- A change whose edit overlaps an earlier one of another change is named. -/
theorem later_named {pre post : List Edit} {x l : Edit}
    (sorted : (pre ++ x :: post).Pairwise fun a b => Edit.le a b = true)
    (ordered : ∀ e ∈ pre ++ x :: post, e.start ≤ e.stop)
    (own : ∀ e ∈ pre, e.index = x.index → e.stop ≤ x.start)
    (hl : l ∈ pre) (hm : meets allowTouching l x = true) (hi : x.index ≠ l.index) :
    Names (after allowTouching {} (pre ++ x :: post)).reported x.index := by
  have reaches : Reaches pre (after allowTouching {} pre) := reaches_of_start allowTouching pre
  cases hr : (after allowTouching {} pre).reach with
  | none => simp [reaches.empty hr] at hl
  | some r =>
    obtain ⟨before, later, hpre, hb, hlater⟩ := reaches.furthest r hr
    have reach_l : l.stop ≤ r.stop := by
      rw [hpre] at hl
      rcases List.mem_append.mp hl with hl | hl
      · exact Nat.le_of_lt (hb l hl)
      · rcases List.mem_cons.mp hl with rfl | hl
        · exact Nat.le_refl _
        · exact hlater l hl
    have meets_x : meets allowTouching r x = true := meets_mono hm reach_l (Nat.le_refl _)
    by_cases same : r.index = x.index
    · -- The reach is the other edit of the same move. It ends where `x` starts, and so does the
      -- earlier edit, which comes after the reach and is met by it.
      have clear : r.stop ≤ x.start := own r (by simp [hpre]) same
      have notBefore : l ∉ before := by
        intro h
        have short := hb l h
        have touch := start_le_of_meets hm
        omega
      have hlater' : l ∈ later := by
        rw [hpre] at hl
        rcases List.mem_append.mp hl with hl | hl
        · exact absurd hl notBefore
        · rcases List.mem_cons.mp hl with rfl | hl
          · exact absurd same.symm hi
          · exact hl
      have ordered_l : l.start ≤ l.stop := ordered l (by simp [hl])
      have meets_l : meets allowTouching r l = true := meets_mono hm reach_l (by omega)
      have shape : pre ++ x :: post = before ++ r :: (later ++ x :: post) := by simp [hpre]
      rw [shape] at sorted ⊢
      rw [← same]
      exact earlier_named sorted (by simp [hlater']) meets_l (by omega)
    · rw [after_append_cons]
      exact (names_step hr meets_x same post).2

/-- Every change with an edit that overlaps an edit of another change is named in a report. -/
theorem overlap_named (sorted : es.Pairwise fun a b => Edit.le a b = true)
    (ordered : ∀ e ∈ es, e.start ≤ e.stop)
    (own : es.Pairwise fun a b => a.index = b.index → ¬a.Overlaps true b)
    {x l : Edit} (hx : x ∈ es) (hl : l ∈ es) (hi : x.index ≠ l.index)
    (h : x.Overlaps allowTouching l) :
    Names (after allowTouching {} es).reported x.index := by
  obtain ⟨pre, post, rfl⟩ := List.append_of_mem hx
  have hxo := ordered x hx
  have hlo := ordered l hl
  obtain ⟨-, tail, cross⟩ := List.pairwise_append.mp sorted
  obtain ⟨first, -⟩ := List.pairwise_cons.mp tail
  rcases List.mem_append.mp hl with hl | hl
  · have le := cross l hl x (by simp)
    have hm := (overlaps_iff_meets le hxo).mp h.symm
    apply later_named sorted ordered _ hl hm hi
    intro e he same
    have leE := cross e he x (by simp)
    have apart := (List.pairwise_append.mp own).2.2 e he x (by simp) same
    rw [overlaps_iff_meets leE hxo] at apart
    simp only [meets, if_true, decide_eq_true_eq] at apart
    omega
  · rcases List.mem_cons.mp hl with rfl | hl
    · exact absurd rfl hi
    · have hm := (overlaps_iff_meets (first l hl) hlo).mp h
      exact earlier_named sorted hl hm hi

end SourceTree.Change.Sweep
