import SourceTree.Proofs.Builder
import SourceTree.Proofs.Pattern.Word
import SourceTree.Proofs.Scan.Split
import SourceTree.Python.Header

/-!
The headers of classes and functions: everything that is read off a header is cut out of its text at
offsets that touch code in its mask, so reading a header never fails.
-/

namespace SourceTree.Python

open Pattern
open Scan (Masks)
open Text (Boundary)

variable {source : Text}

theorem stars_split (raw : Text) :
    ∃ front, raw = front ++ (stars raw).2 ∧ Text.size front = (stars raw).1 := by
  fun_cases stars raw with
  | case1 rest => exact ⟨['*', '*'], rfl, rfl⟩
  | case2 rest => exact ⟨['*'], rfl, rfl⟩
  | case3 => exact ⟨[], rfl, rfl⟩

theorem exists_parameter? {raw masked : Text} (hm : Masks raw masked) :
    ∃ p, parameter? raw masked = some p := by
  unfold parameter?
  split
  next => exact ⟨_, rfl⟩
  next =>
    obtain ⟨front, hraw, hsize⟩ := stars_split raw
    rw [hraw] at hm
    obtain ⟨front', masked', rfl, hf, hm'⟩ := hm.split
    have drop : Text.drop? (front' ++ masked') (stars raw).1 = some masked' := by
      rw [← hsize, ← hf.size_eq]
      exact Text.drop?_append front' masked'
    simp only [drop, Option.bind_eq_bind, Option.bind_some, Option.pure_def]
    split
    next eq he =>
      obtain ⟨left, x, right, rfl, rfl, hx, -⟩ := Text.find?_eq_some he
      obtain rfl : x = '=' := by simpa using hx
      obtain ⟨p, r, hs, hp, -⟩ := hm'.kept (by decide)
      have take : Text.take? (stars raw).2 (Text.size left) = some p := by
        rw [hs, hp.size_eq]
        exact Text.take?_append p ('=' :: r)
      have value : Text.drop? (stars raw).2 (Text.size left + 1) = some r :=
        Text.drop?_eq_some_iff.mpr ⟨p ++ ['='], by rw [hs]; simp, by
          rw [Text.size_append, hp.size_eq]; rfl⟩
      simp only [take, value, Option.bind_some]
      split <;> split <;> exact ⟨_, rfl⟩
    next => split <;> split <;> exact ⟨_, rfl⟩

theorem exists_parameters? {text masked : Text} (hm : Masks text masked) :
    ∃ ps, parameters? text masked = some ps := by
  have each : ∀ piece ∈ Scan.splitTopLevel masked ',' false, ∃ p,
      ((Text.slice? text piece.start piece.stop).bind fun raw => parameter? raw piece.text) =
        some p ∧ True := by
    intro piece hp
    obtain ⟨hs, opens, closes⟩ := Scan.splitTopLevel_slice hp
    obtain ⟨raw, hraw, masks⟩ := hm.slice_solid hs opens closes
    obtain ⟨p, hp⟩ := exists_parameter? masks
    exact ⟨p, by rw [hraw, Option.bind_some, hp], trivial⟩
  obtain ⟨pieces, hpieces, -⟩ := Scan.exists_mapM each
  exact ⟨pieces.filterMap id, by rw [parameters?]; simp only [Option.bind_eq_bind, hpieces]; rfl⟩

section

variable {h : Header} {pos : Nat}

theorem codeFrom_safe (hb : Boundary h.masked pos) : Attempt.Safe source (h.codeFrom pos)
    fun rest => ∃ front, h.masked = front ++ rest ∧ Text.size front = pos := by
  obtain ⟨front, rest, hc, hs⟩ := hb
  refine Attempt.Safe.need ⟨rest, ?_, front, hc, hs⟩
  exact Text.drop?_eq_some_iff.mpr ⟨front, hc, hs⟩

theorem skipBlanks_safe (hb : Boundary h.masked pos) :
    Attempt.Safe source (h.skipBlanks pos) fun next => Boundary h.masked next := by
  refine Attempt.Settles.bind (codeFrom_safe hb) fun rest ⟨front, hc, hs⟩ => ?_
  refine Attempt.Safe.pure ?_
  rw [hc, ← hs]
  exact Text.boundary_blankSize front rest

theorem hasAt_safe (hb : Boundary h.masked pos) (c : Char) :
    Attempt.Safe source (h.hasAt pos c) fun _ => True :=
  Attempt.Settles.bind (codeFrom_safe hb) fun _ _ => Attempt.Safe.pure trivial

theorem cut_safe {start stop : Nat} (hs : ∃ t, Text.slice? h.text start stop = some t) :
    Attempt.Safe source (h.cut start stop) fun t => Text.slice? h.text start stop = some t := by
  obtain ⟨t, ht⟩ := hs
  exact Attempt.Safe.need ⟨t, ht, ht⟩

theorem closing_safe (opener closer : Char) :
    Attempt.Safe source (h.closing pos opener closer) fun close =>
      Scan.findMatching? h.masked pos opener closer = some close :=
  Attempt.Safe.expect fun _ hclose => hclose

theorem typeParameters_safe (hm : Masks h.text h.masked) (hb : Boundary h.masked pos) (d : Draft) :
    Attempt.Safe source (h.typeParameters pos d) fun next => Boundary h.masked next.1 := by
  refine Attempt.Settles.bind (skipBlanks_safe hb) fun pos hb => ?_
  refine Attempt.Settles.bind (hasAt_safe hb '[') fun there _ => ?_
  split
  next =>
    refine Attempt.Settles.bind (closing_safe '[' ']') fun close hclose => ?_
    obtain ⟨mid, -, whole⟩ :=
      Scan.findMatching?_slices (by decide) (by decide) (by decide) hclose
    obtain ⟨t, ht, -⟩ := hm.slice_solid whole ⟨'[', _, rfl, by decide⟩ ⟨_, ']', rfl, by decide⟩
    refine Attempt.Settles.bind (cut_safe ⟨t, ht⟩) fun text _ => ?_
    have behind : Boundary h.masked (close + 1) := (Text.exists_slice?_iff.mp ⟨_, whole⟩).2.2
    refine Attempt.Settles.bind (skipBlanks_safe behind) fun next hnext => ?_
    exact Attempt.Safe.pure hnext
  next => exact Attempt.Safe.pure hb

theorem classDraft_safe (hm : Masks h.text h.masked) (decorators : List Text) :
    Attempt.Safe source (classDraft h decorators) fun _ => True := by
  refine Attempt.Settles.bind (Attempt.Safe.expect fun m hp => matchFront?_boundary hp) fun m hb => ?_
  refine Attempt.Settles.bind (typeParameters_safe hm hb _) fun ⟨pos, d⟩ hb => ?_
  refine Attempt.Settles.bind (hasAt_safe hb '(') fun there _ => ?_
  dsimp only
  split
  next =>
    refine Attempt.Settles.bind (closing_safe '(' ')') fun close hclose => ?_
    obtain ⟨mid, inner, -⟩ :=
      Scan.findMatching?_slices (by decide) (by decide) (by decide) hclose
    refine Attempt.Settles.bind (Attempt.Safe.need_some inner) fun list hlist => ?_
    subst hlist
    have each : ∀ piece ∈ Scan.splitTopLevel list ',' false, Attempt.Safe source
        (h.cut (pos + 1 + piece.start) (pos + 1 + piece.stop)) fun _ => True := by
      intro piece hp
      obtain ⟨t, ht, -⟩ := hm.slice_piece inner hp
      exact (cut_safe ⟨t, ht⟩).mono fun _ _ => trivial
    exact Attempt.Settles.bind (Attempt.Safe.mapM each) fun _ _ => Attempt.Safe.pure trivial
  next => exact Attempt.Safe.pure trivial

theorem returnType_safe (hm : Masks h.text h.masked) (hb : Boundary h.masked pos) :
    Attempt.Safe source (returnType h pos) fun _ => True := by
  refine Attempt.Settles.bind (codeFrom_safe hb) fun rest ⟨front, hc, hs⟩ => ?_
  dsimp only
  split
  next => exact Attempt.Safe.pure trivial
  next code harrow =>
    obtain ⟨lead, hl, -⟩ := Text.trimStart_split rest
    have split : h.masked = (front ++ lead ++ ['-', '>']) ++ code := by
      rw [hc, hl, Text.after?_eq_some harrow]
      simp
    have offset : Text.size h.masked - Text.size code = Text.size (front ++ lead ++ ['-', '>']) := by
      rw [split, Text.size_append]
      omega
    have start : Boundary h.text (Text.size (front ++ lead ++ ['-', '>'])) := by
      refine hm.boundary_of_edge ?_
      rw [split]
      exact Text.Closes.edge ⟨front ++ lead ++ ['-'], '>', by simp, by decide⟩
    rw [offset]
    have stop : ∃ t, Text.slice? h.text (Text.size (front ++ lead ++ ['-', '>']))
        (Text.size (front ++ lead ++ ['-', '>']) +
          (Text.find? (· == ':') code).getD (Text.size code)) = some t := by
      refine Text.exists_slice?_iff.mpr ⟨Nat.le_add_right _ _, start, ?_⟩
      cases hf : Text.find? (· == ':') code with
      | none =>
        rw [Option.getD_none, ← Text.size_append, ← split, hm.size_eq]
        exact Text.boundary_size h.text
      | some colon =>
        obtain ⟨left, x, right, hx, rfl, isColon, -⟩ := Text.find?_eq_some hf
        obtain rfl : x = ':' := by simpa using isColon
        rw [Option.getD_some, ← Text.size_append]
        refine hm.boundary_of_edge ?_
        rw [split, hx, ← List.append_assoc]
        exact Text.Opens.edge ⟨':', right, rfl, by decide⟩
    refine Attempt.Settles.bind (cut_safe stop) fun t _ => ?_
    exact Attempt.Safe.pure trivial

theorem defDraft_safe (hm : Masks h.text h.masked) (decorators : List Text) (scope : Scope) :
    Attempt.Safe source (defDraft h decorators scope) fun _ => True := by
  refine Attempt.Settles.bind (Attempt.Safe.expect fun m hp => matchFront?_boundary hp) fun m hb => ?_
  refine Attempt.Settles.bind (typeParameters_safe hm hb _) fun ⟨pos, d⟩ hb => ?_
  refine Attempt.Settles.bind (hasAt_safe hb '(') fun there _ => ?_
  refine Attempt.Settles.bind (Attempt.Safe.check there) fun _ _ => ?_
  refine Attempt.Settles.bind (closing_safe '(' ')') fun close hclose => ?_
  obtain ⟨mid, t, inner, ht, masks⟩ :=
    hm.slice_inner hclose (by decide) (by decide) ⟨by decide, by decide⟩
  obtain ⟨_, -, whole⟩ := Scan.findMatching?_slices (by decide) (by decide) (by decide) hclose
  have behind : Boundary h.masked (close + 1) := (Text.exists_slice?_iff.mp ⟨_, whole⟩).2.2
  refine Attempt.Settles.bind (Attempt.Safe.need_some ht) fun list hlist => ?_
  refine Attempt.Settles.bind (Attempt.Safe.need_some inner) fun maskedList hmasked => ?_
  subst hlist hmasked
  obtain ⟨ps, hps⟩ := exists_parameters? masks
  refine Attempt.Settles.bind (Attempt.Safe.need_some hps) fun parameters _ => ?_
  refine Attempt.Settles.bind (returnType_safe hm behind) fun type _ => ?_
  exact Attempt.Safe.pure trivial

end

end SourceTree.Python
