import SourceTree.Go.Parameters
import SourceTree.Proofs.Scan.Join

/-!
Parameters that share a type. In a list with names each name without a type waits for the next piece
that has one, so a group of names gets the type at its end, however many brackets, commas and blanks
the type has inside.
-/

namespace SourceTree.Go

open Scan (Joined Nests Piece counted)
open Text (Closes Gap Opens)

/-- Names that share a type. Three points may stand in front of the type, also more than once. -/
structure ParameterGroup where
  earlier : List Text
  last : Text
  gap : Text
  points : Nat
  type : Text

namespace ParameterGroup

def names (g : ParameterGroup) : List Text := g.earlier ++ [g.last]

/-- The type with its points. -/
def written (g : ParameterGroup) : Text :=
  (List.replicate g.points "...".toList).flatten ++ g.type

/-- The pieces of a list that declare the group. -/
def pieces (g : ParameterGroup) : List Text := g.earlier ++ [g.last ++ (g.gap ++ g.written)]

/-- What the group declares. -/
def parameters (g : ParameterGroup) : List Parameter :=
  g.names.map fun name =>
    { name := String.ofList name
      type := some (String.ofList g.type)
      optional := decide (0 < g.points)
      variadic := decide (0 < g.points) }

/-- The names are identifiers, and the type is one text with its brackets closed and its commas in
brackets. The brackets nest no deeper than the counter of the splitter reaches. -/
structure Proper (g : ParameterGroup) : Prop where
  named : ∀ name ∈ g.names, name ≠ [] ∧ ∀ c ∈ name, Text.isWord c = true
  gap : Gap g.gap
  full : g.written ≠ []
  trimmed : Text.trim g.written = g.written
  bare : Text.startsWith g.type "...".toList = false
  nests : Nests (counted false) (· != ',') g.type

end ParameterGroup

variable {g : ParameterGroup} {pending names rest pieces : List Text} {name w list : Text}

/-! ### The pieces of a group -/

theorem piece_name (full : name ≠ []) (words : ∀ c ∈ name, Text.isWord c = true) :
    Piece ',' false name name := by
  have solid := Text.solid_of_words full words
  have other : ∀ c ∈ name, (c != ',') = true := by
    intro c hc
    rw [bne_iff_ne]
    rintro rfl
    exact absurd (words ',' hc) (by decide)
  exact ⟨rfl, solid.opens, solid.closes,
    Scan.nests_of_plain fun c hc => ⟨other c hc, Scan.isPlain_of_isWord (words c hc)⟩⟩

theorem ParameterGroup.Proper.nests_written (h : g.Proper) :
    Nests (counted false) (· != ',') g.written := by
  refine Scan.Nests.append (Scan.nests_of_plain fun c hc => ?_) h.nests
  obtain ⟨w, hw, hc⟩ := List.mem_flatten.mp hc
  rw [List.eq_of_mem_replicate hw] at hc
  obtain rfl : c = '.' := by simpa using hc
  decide

theorem ParameterGroup.Proper.piece (h : g.Proper) (hw : w ∈ g.pieces) : Piece ',' false w w := by
  have ofName {name : Text} (mem : name ∈ g.names) : Piece ',' false name name :=
    piece_name (h.named name mem).1 (h.named name mem).2
  rcases List.mem_append.mp hw with hw | hw
  · exact ofName (by simp [names, hw])
  · obtain rfl := List.mem_singleton.mp hw
    have name : Piece ',' false g.last g.last := ofName (by simp [names])
    refine ⟨rfl, name.opens.append _, ?_, name.nests.append (.append ?_ h.nests_written)⟩
    · exact ((Text.edges_of_trim h.trimmed h.full).2.append g.gap).append g.last
    · exact (Scan.comma_separates false).nests_blank h.gap.blank

/-! ### Waiting names -/

/-- Names without a type wait. -/
theorem namedParameters_names (h : ∀ name ∈ names, ∀ c ∈ name, Text.isBlank c = false) :
    namedParameters pending (names ++ rest) = namedParameters (pending ++ names) rest := by
  induction names generalizing pending with
  | nil => simp
  | cons name names ih =>
    have alone : Text.splitFirst? Text.isBlank name = none :=
      Text.splitFirst?_eq_none (h name (by simp))
    rw [List.cons_append, namedParameters, alone]
    dsimp only
    rw [ih fun other mem => h other (by simp [mem]), List.append_assoc, List.singleton_append]

theorem ParameterGroup.Proper.parameter_written (h : g.Proper) (name : Text) :
    parameter name g.written =
      { name := String.ofList name
        type := some (String.ofList g.type)
        optional := decide (0 < g.points)
        variadic := decide (0 < g.points) } := by
  have bare : Text.trimStartWord "...".toList g.written = g.type :=
    Text.trimStartWord_copies (by simp) g.points h.bare
  have starts : Text.startsWith g.written "...".toList = decide (0 < g.points) := by
    unfold ParameterGroup.written
    cases g.points with
    | zero => exact h.bare
    | succ n => rfl
  rw [parameter, bare, starts]

/-- Behind the pieces of a group no name waits: those that waited and those of the group have its
type. -/
theorem namedParameters_group (h : g.Proper) :
    namedParameters [] (g.pieces ++ rest) = g.parameters ++ namedParameters [] rest := by
  have inked : ∀ name ∈ g.names, ∀ c ∈ name, Text.isBlank c = false := fun name mem c hc =>
    Text.not_isBlank_of_isWord ((h.named name mem).2 c hc)
  have early : ∀ name ∈ g.earlier, ∀ c ∈ name, Text.isBlank c = false := fun name mem =>
    inked name (by simp [ParameterGroup.names, mem])
  obtain ⟨b, more, gap, blank⟩ := h.gap.opens
  have cut : Text.splitFirst? Text.isBlank (g.last ++ (g.gap ++ g.written)) =
      some (g.last, more ++ g.written) := by
    rw [gap, List.cons_append]
    exact Text.splitFirst?_append (inked g.last (by simp [ParameterGroup.names])) blank _
  have type : Text.trim (more ++ g.written) = g.written := by
    obtain ⟨opens, closes⟩ := Text.edges_of_trim h.trimmed h.full
    simpa using Text.trim_gaps (t := []) (fun c hc => h.gap.blank c (by simp [gap, hc])) (by simp)
      opens closes
  rw [ParameterGroup.pieces, List.append_assoc, namedParameters_names early, List.nil_append,
    List.singleton_append, namedParameters, cut]
  dsimp only
  rw [type, ParameterGroup.parameters, ParameterGroup.names]
  simp only [h.parameter_written]

theorem namedParameters_groups {groups : List ParameterGroup} (h : ∀ g ∈ groups, g.Proper) :
    namedParameters [] (groups.flatMap ParameterGroup.pieces) =
      groups.flatMap ParameterGroup.parameters := by
  induction groups with
  | nil => rfl
  | cons g groups ih =>
    rw [List.flatMap_cons, List.flatMap_cons, namedParameters_group (h g (by simp)),
      ih fun g mem => h g (by simp [mem])]

/-- In a list of groups every name is a parameter, in the order of the list. It has the type of its
own group without the points, and exactly the names of groups with points are variadic and
optional. -/
theorem parameters_groups {groups : List ParameterGroup} (proper : ∀ g ∈ groups, g.Proper)
    (h : Joined ',' (groups.flatMap ParameterGroup.pieces) list) :
    parameters list = groups.flatMap ParameterGroup.parameters := by
  have texts := h.texts (Scan.comma_separates false) fun w hw => by
    obtain ⟨g, hg, hw⟩ := List.mem_flatMap.mp hw
    exact (proper g hg).piece hw
  rw [parameters, texts]
  cases groups with
  | nil => rfl
  | cons g groups =>
    obtain ⟨b, more, gap, blank⟩ := (proper g (by simp)).gap.opens
    have last : g.last ++ (g.gap ++ g.written) ∈ (g :: groups).flatMap ParameterGroup.pieces := by
      simp [ParameterGroup.pieces]
    have named : ((g :: groups).flatMap ParameterGroup.pieces).any (·.any Text.isBlank) = true :=
      List.any_eq_true.mpr ⟨_, last, List.any_eq_true.mpr ⟨b, by simp [gap], blank⟩⟩
    rw [if_pos named, namedParameters_groups proper]

/-- The groups of `a, b ...int, c func(x, y int) T`. -/
theorem parameters_groups_func :
    parameters "a, b ...int, c func(x, y int) T".toList =
      [{ name := "a", type := some "int", optional := true, variadic := true },
        { name := "b", type := some "int", optional := true, variadic := true },
        { name := "c", type := some "func(x, y int) T" }] := by
  have proper : ∀ g ∈ [(⟨["a".toList], "b".toList, [' '], 1, "int".toList⟩ : ParameterGroup),
      ⟨[], "c".toList, [' '], 0, "func(x, y int) T".toList⟩], g.Proper := by
    intro g mem
    rcases List.mem_cons.mp mem with rfl | mem
    · exact ⟨by decide, ⟨by decide, by decide⟩, by decide, by decide, by decide, by decide⟩
    · obtain rfl := List.mem_singleton.mp mem
      exact ⟨by decide, ⟨by decide, by decide⟩, by decide, by decide, by decide, by decide⟩
  exact parameters_groups proper (Scan.joined_intercalate (u := [' ']) (by decide) _)

end SourceTree.Go
