import SourceTree.Proofs.Python.Header
import SourceTree.Proofs.Scan.Complete

/-!
Parameter lists of Python functions. The list is cut at the commas of its mask, and each piece at the
first equals sign of its mask, brackets or not. So a list is read as it was declared exactly if no
annotation has an equals sign in its code.
-/

namespace SourceTree.Python

open Scan (Complete Joined Listed Masks Nests Piece Unquoted counted maskIndent
  maskIndent_masks signals)
open Text (Closes Opens)

/-- A parameter from its parts: with stars it is variadic, with stars or a default optional. -/
def assemble (stars : Nat) (name : Text) (type default : Option Text) : Parameter where
  name := String.ofList name
  type := type.map String.ofList
  defaultValue := default.map String.ofList
  optional := default.isSome || decide (0 < stars)
  variadic := decide (0 < stars)

/-- An annotation or a default behind its mark, with the blanks on both sides of the mark. -/
structure Clause where
  before : Text
  behind : Text
  value : Text

namespace Clause

def text (mark : Char) (c : Clause) : Text := c.before ++ mark :: (c.behind ++ c.value)

def mask (mark : Char) (c : Clause) : Text := c.before ++ mark :: (c.behind ++ maskIndent c.value)

/-- The value is text without comments, with its literals and brackets closed and its commas in
brackets or in literals. The brackets nest no deeper than the counter of the splitter reaches. -/
structure Proper (c : Clause) : Prop where
  before : ∀ x ∈ c.before, Text.isBlank x = true
  behind : ∀ x ∈ c.behind, Text.isBlank x = true
  full : c.value ≠ []
  trimmed : Text.trim c.value = c.value
  complete : Complete .code c.value
  nests : Nests (counted false) (· != ',') (maskIndent c.value)

end Clause

/-- An item of a parameter list: a lone `*` or `/`, a receiver, or a parameter. -/
inductive Item where
  | marker (c : Char)
  | receiver (name : Text)
  | parameter (stars : Nat) (name : Text) (type? default : Option Clause)

namespace Item

/-- The item as it is written. -/
def text : Item → Text
  | marker c => [c]
  | receiver name => name
  | parameter stars name type? default =>
    List.replicate stars '*' ++ (name ++ (type?.elim [] (Clause.text ':') ++
      default.elim [] (Clause.text '=')))

/-- What the item declares. -/
def declared? : Item → Option Parameter
  | marker _ => none
  | receiver _ => none
  | parameter stars name type? default =>
    some (assemble stars name (type?.map Clause.value) (default.map Clause.value))

/-- The names are identifiers, those of receivers only where no parameter is declared. -/
inductive Proper : Item → Prop where
  | marker {c : Char} : c = '*' ∨ c = '/' → Proper (marker c)
  | receiver {name : Text} : name = "self".toList ∨ name = "cls".toList → Proper (receiver name)
  | parameter {stars : Nat} {name : Text} {type? default : Option Clause} : stars ≤ 2 →
      name ≠ [] → (∀ c ∈ name, Text.isWord c = true) →
      ¬(name = "self".toList ∨ name = "cls".toList) → (∀ c ∈ type?, c.Proper) →
      (∀ c ∈ default, c.Proper) → Proper (parameter stars name type? default)

/-- The annotation has no equals sign in its code, not even in brackets. -/
def Clear : Item → Prop
  | parameter _ _ (some type?) _ => '=' ∉ maskIndent type?.value
  | _ => True

instance : DecidablePred Clear
  | parameter _ _ (some type?) _ =>
    inferInstanceAs (Decidable ('=' ∉ maskIndent type?.value))
  | parameter _ _ none _ => .isTrue trivial
  | marker _ => .isTrue trivial
  | receiver _ => .isTrue trivial

end Item

/-! ### Pieces of a list -/

/-- A text that is complete, with its brackets closed and its commas in brackets. -/
structure Sound (w : Text) : Prop where
  complete : Complete .code w
  nests : Nests (counted false) (· != ',') (maskIndent w)

/-- A character that is neither a comma nor of interest to a scanner. -/
def Calm (c : Char) : Prop := c ≠ ',' ∧ c ∉ signals

variable {w t : Text} {c : Clause} {mark : Char}

theorem Calm.isPlain {x : Char} (h : Calm x) : Scan.isPlain (counted false) x = true :=
  Scan.isPlain_of_class (p := fun x => decide (x ∉ signals)) (decide_eq_true h.2) (by decide)

theorem calm_of_isBlank {x : Char} (h : Text.isBlank x = true) : Calm x := by
  refine ⟨?_, Scan.blank_not_mem_signals h⟩
  rintro rfl
  cases h

theorem calm_of_isWord {x : Char} (h : Text.isWord x = true) : Calm x := by
  refine ⟨?_, Scan.not_mem_signals (by decide) h⟩
  rintro rfl
  exact absurd h (by decide)

theorem nests_of_calm (calm : ∀ x ∈ w, Calm x) : Nests (counted false) (· != ',') w :=
  Scan.nests_of_plain fun x hx => ⟨bne_iff_ne.mpr (calm x hx).1, (calm x hx).isPlain⟩

theorem Sound.prepend (calm : ∀ x ∈ w, Calm x) (h : Sound t) :
    Sound (w ++ t) ∧ maskIndent (w ++ t) = w ++ maskIndent t := by
  have quiet : ∀ x ∈ w, x ∉ signals := fun x hx => (calm x hx).2
  have mask : maskIndent (w ++ t) = w ++ maskIndent t := Scan.maskIndentFrom_code_append t quiet
  refine ⟨⟨h.complete.prepend quiet, ?_⟩, mask⟩
  rw [mask]
  exact (nests_of_calm calm).append h.nests

theorem sound_nil : Sound [] := ⟨.nil, Scan.nests_nil⟩

theorem Sound.append (hw : Sound w) (ht : Sound t) (quiet : Unquoted t) :
    Sound (w ++ t) ∧ maskIndent (w ++ t) = maskIndent w ++ maskIndent t := by
  have mask : maskIndent (w ++ t) = maskIndent w ++ maskIndent t := hw.complete.mask_append quiet
  refine ⟨⟨hw.complete.append ht.complete quiet, ?_⟩, mask⟩
  rw [mask]
  exact hw.nests.append ht.nests

theorem Clause.Proper.sound (h : c.Proper) (calm : Calm mark) :
    Sound (c.text mark) ∧ maskIndent (c.text mark) = c.mask mark := by
  have value : Sound c.value := ⟨h.complete, h.nests⟩
  have front : ∀ x ∈ c.before ++ mark :: c.behind, Calm x := by
    intro x hx
    rcases List.mem_append.mp hx with hx | hx
    · exact calm_of_isBlank (h.before x hx)
    · rcases List.mem_cons.mp hx with rfl | hx
      · exact calm
      · exact calm_of_isBlank (h.behind x hx)
  have whole := value.prepend front
  simpa [Clause.text, Clause.mask] using whole

theorem Clause.Proper.unquoted (h : c.Proper) (calm : Calm mark) (rest : Text) :
    Unquoted (c.text mark ++ rest) := by
  refine .of_calm fun x hx => ?_
  unfold Clause.text at hx
  cases blanks : c.before with
  | nil =>
    rw [blanks] at hx
    obtain rfl : mark = x := by simpa using hx
    exact calm.2
  | cons b more =>
    rw [blanks] at hx
    obtain rfl : b = x := by simpa using hx
    exact Scan.blank_not_mem_signals (h.before b (by simp [blanks]))

theorem calm_star : Calm '*' := ⟨by decide, by decide⟩

theorem calm_replicate (stars : Nat) : ∀ x ∈ List.replicate stars '*', Calm x := by
  intro x hx
  rw [List.eq_of_mem_replicate hx]
  exact calm_star

/-- What stands behind the name, if there is an annotation or a default. -/
theorem sound_clause {mark : Char} {clause : Option Clause} (h : ∀ c ∈ clause, c.Proper)
    (calm : Calm mark) : Sound (clause.elim [] (Clause.text mark)) ∧
      maskIndent (clause.elim [] (Clause.text mark)) = clause.elim [] (Clause.mask mark) := by
  cases clause with
  | none => exact ⟨sound_nil, rfl⟩
  | some c => exact (h c rfl).sound calm

/-- The mask of a parameter is that of its values. -/
theorem sound_parameter {stars : Nat} {name : Text} {type? default : Option Clause}
    (words : ∀ c ∈ name, Text.isWord c = true) (ha : ∀ c ∈ type?, c.Proper)
    (hd : ∀ c ∈ default, c.Proper) :
    Sound (Item.parameter stars name type? default).text ∧
      maskIndent (Item.parameter stars name type? default).text =
        List.replicate stars '*' ++ (name ++ (type?.elim [] (Clause.mask ':') ++
          default.elim [] (Clause.mask '='))) := by
  have colon : Calm ':' := ⟨by decide, by decide⟩
  have equals : Calm '=' := ⟨by decide, by decide⟩
  obtain ⟨annotated, amask⟩ := sound_clause ha colon
  obtain ⟨assigned, dmask⟩ := sound_clause hd equals
  have quiet : Unquoted (default.elim [] (Clause.text '=')) := by
    cases default with
    | none => exact fun _ hc => nomatch hc
    | some c => simpa using (hd c rfl).unquoted equals []
  obtain ⟨values, vmask⟩ := annotated.append assigned quiet
  obtain ⟨named, nmask⟩ := values.prepend fun c hc => calm_of_isWord (words c hc)
  obtain ⟨all, mask⟩ := named.prepend (calm_replicate stars)
  exact ⟨all, by rw [Item.text, mask, nmask, vmask, amask, dmask]⟩

theorem Clause.Proper.closes (h : c.Proper) :
    Closes (fun x => Text.isBlank x = false) (c.text mark) := by
  have value := (Text.edges_of_trim h.trimmed h.full).2.append (c.before ++ mark :: c.behind)
  simpa [Clause.text] using value

/-- A word alone is its own mask. -/
theorem sound_words {name : Text} (words : ∀ c ∈ name, Text.isWord c = true) : Sound name := by
  simpa using (sound_nil.prepend fun c hc => calm_of_isWord (words c hc)).1

theorem Item.Proper.sound {i : Item} (h : i.Proper) : Sound i.text := by
  cases h with
  | marker hc => rcases hc with rfl | rfl <;> exact ⟨Scan.complete_of_calm (by decide), by decide⟩
  | receiver hn => rcases hn with rfl | rfl <;> exact sound_words (by decide)
  | parameter _ _ words _ ha hd => exact (sound_parameter words ha hd).1

theorem Item.Proper.opens {i : Item} (h : i.Proper) :
    Opens (fun x => Text.isBlank x = false) i.text := by
  cases h with
  | marker hc => rcases hc with rfl | rfl <;> exact ⟨_, _, rfl, by decide⟩
  | receiver hn => rcases hn with rfl | rfl <;> exact ⟨_, _, rfl, by decide⟩
  | @parameter stars name type? default _ full words =>
    have named := ((Text.solid_of_words full words).opens).append
      (type?.elim [] (Clause.text ':') ++ default.elim [] (Clause.text '='))
    cases stars with
    | zero => exact named
    | succ n => exact ⟨'*', _, rfl, by decide⟩

theorem Item.Proper.closes {i : Item} (h : i.Proper) :
    Closes (fun x => Text.isBlank x = false) i.text := by
  cases h with
  | marker hc => rcases hc with rfl | rfl <;> exact ⟨[], _, rfl, by decide⟩
  | receiver hn =>
    rcases hn with rfl | rfl <;> exact (Text.solid_of_words (by decide) (by decide)).closes
  | @parameter stars name type? default _ full words _ ha hd =>
    refine Closes.append ?_ _
    cases default with
    | some c => exact (((hd c rfl).closes).append _).append _
    | none =>
      rw [Option.elim_none, List.append_nil]
      cases type? with
      | some c => exact ((ha c rfl).closes).append _
      | none => simpa using (Text.solid_of_words full words).closes

theorem Item.Proper.piece {i : Item} (h : i.Proper) :
    Piece ',' false i.text (maskIndent i.text) :=
  ⟨(maskIndent_masks i.text).size_eq, h.sound.complete.opens h.opens,
    h.sound.complete.closes (by simp) h.closes, h.sound.nests⟩

/-! ### Reading a piece -/

/-- What a declaration in front of the equals sign declares, with the default behind it. -/
def declare (stars : Nat) (declaration : Text) (default : Option Text) : Option Parameter :=
  let (name, type) := match Text.splitFirst? (· == ':') declaration with
    | some (name, type) => (Text.trim name, some (Text.trim type))
    | none => (Text.trim declaration, none)
  if name = "self".toList ∨ name = "cls".toList ∨ name = [] then none
  else some (assemble stars name type default)

theorem stars_replicate {n : Nat} (le : n ≤ 2) (opens : Opens (· ≠ '*') w) :
    stars (List.replicate n '*' ++ w) = (n, w) := by
  obtain ⟨c, r, rfl, other⟩ := opens
  have none : stars (c :: r) = (0, c :: r) := by simp [stars, other]
  match n with
  | 0 => exact none
  | 1 => simp [stars, other]
  | 2 => rfl
  | n + 3 => omega

theorem size_stars (n : Nat) : Text.size (List.replicate n '*') = n := by
  induction n with
  | zero => rfl
  | succ n ih =>
    have width : '*'.utf8Size = 1 := by decide
    rw [List.replicate_succ, Text.size_cons, ih, width, Nat.add_comm]

/-- A piece that opens with a letter is cut at the equals sign, if its mask has one. -/
theorem parameter?_declare {n : Nat} {raw masked : Text} (le : n ≤ 2)
    (opens : Opens (fun c => Text.isWord c = true) raw) :
    parameter? (List.replicate n '*' ++ raw) (List.replicate n '*' ++ masked) =
      match Text.find? (· == '=') masked with
      | some eq => do
        let declaration ← Text.take? raw eq
        let value ← Text.drop? raw (eq + 1)
        return declare n declaration (some (Text.trim value))
      | none => some (declare n raw none) := by
  have other : Opens (· ≠ '*') raw := opens.mono fun c hc => by
    rintro rfl
    exact absurd hc (by decide)
  have alone : ¬(List.replicate n '*' ++ raw = ['*'] ∨ List.replicate n '*' ++ raw = ['/']) := by
    obtain ⟨c, r, rfl, hc⟩ := opens
    have mem : c ∈ List.replicate n '*' ++ c :: r := by simp
    rintro (same | same) <;> rw [same, List.mem_singleton] at mem <;> rw [mem] at hc <;>
      exact absurd hc (by decide)
  have drop : Text.drop? (List.replicate n '*' ++ masked) n = some masked := by
    have cut := Text.drop?_append (List.replicate n '*') masked
    rwa [size_stars] at cut
  rw [parameter?, if_neg alone, stars_replicate le other]
  simp only [drop, declare, apply_ite some, Option.bind_eq_bind, Option.bind_some, Option.pure_def]
  rfl

theorem not_equals (h : '=' ∉ w) : ∀ c ∈ w, (c == '=') = false := by
  intro c hc
  rw [beq_eq_false_iff_ne]
  rintro rfl
  exact h hc

/-- The first equals sign of the mask parts the declaration from the default. -/
theorem parameter?_equals {n : Nat} {front back masked rest : Text} (le : n ≤ 2)
    (opens : Opens (fun c => Text.isWord c = true) front)
    (size : Text.size masked = Text.size front) (absent : '=' ∉ masked) :
    parameter? (List.replicate n '*' ++ (front ++ '=' :: back))
        (List.replicate n '*' ++ (masked ++ '=' :: rest)) =
      some (declare n front (some (Text.trim back))) := by
  have found : Text.find? (· == '=') (masked ++ '=' :: rest) = some (Text.size front) := by
    rw [Text.find?_append (not_equals absent) (by rfl), size]
  have drop : Text.drop? (front ++ '=' :: back) (Text.size front + 1) = some back := by
    refine Text.drop?_eq_some_iff.mpr ⟨front ++ ['='], by simp, ?_⟩
    rw [Text.size_append]
    rfl
  rw [parameter?_declare le (opens.append _), found]
  simp only [drop, Text.take?_append, Option.bind_eq_bind, Option.bind_some, Option.pure_def]

theorem Clause.Proper.trim_append (h : c.Proper) {gap : Text}
    (blank : ∀ x ∈ gap, Text.isBlank x = true) :
    Text.trim (c.behind ++ (c.value ++ gap)) = c.value := by
  obtain ⟨opens, closes⟩ := Text.edges_of_trim h.trimmed h.full
  exact Text.trim_gaps h.behind blank opens closes

/-- Without an equals sign in front of it, the default is read as it was declared. -/
theorem parameter?_clause {n : Nat} {front masked : Text} {default : Option Clause} (le : n ≤ 2)
    (opens : Opens (fun c => Text.isWord c = true) front)
    (size : Text.size masked = Text.size front) (absent : '=' ∉ masked)
    (hd : ∀ c ∈ default, c.Proper) :
    parameter? (List.replicate n '*' ++ (front ++ default.elim [] (Clause.text '=')))
        (List.replicate n '*' ++ (masked ++ default.elim [] (Clause.mask '='))) =
      some (declare n (front ++ default.elim [] Clause.before) (default.map Clause.value)) := by
  cases default with
  | none =>
    simp only [Option.elim_none, List.append_nil, Option.map_none]
    rw [parameter?_declare le opens, Text.find?_eq_none (not_equals absent)]
  | some c =>
    have proper := hd c rfl
    have blanks : '=' ∉ c.before := Text.not_mem_of_blank proper.before (by decide)
    have cut := @parameter?_equals n (front ++ c.before) (c.behind ++ c.value) (masked ++ c.before)
      (c.behind ++ maskIndent c.value) le (opens.append _)
      (by rw [Text.size_append, Text.size_append, size]) (by simp [absent, blanks])
    have value : Text.trim (c.behind ++ c.value) = c.value := by
      simpa using @Clause.Proper.trim_append c proper [] (by simp)
    rw [value] at cut
    simpa [Clause.text, Clause.mask] using cut

variable {n : Nat} {name gap : Text} {default : Option Text}

theorem opens_words (full : name ≠ []) (words : ∀ c ∈ name, Text.isWord c = true) :
    Opens (fun c => Text.isWord c = true) name := by
  obtain ⟨c, r, rfl⟩ := List.exists_cons_of_ne_nil full
  exact ⟨c, r, rfl, words c (by simp)⟩

theorem not_colon {gap : Text} (words : ∀ c ∈ name, Text.isWord c = true)
    (blank : ∀ c ∈ gap, Text.isBlank c = true) : ∀ c ∈ name ++ gap, (c == ':') = false := by
  intro c hc
  rw [beq_eq_false_iff_ne]
  rintro rfl
  rcases List.mem_append.mp hc with hc | hc
  · exact absurd (words _ hc) (by decide)
  · exact absurd (blank _ hc) (by decide)

theorem trim_name (full : name ≠ []) (words : ∀ c ∈ name, Text.isWord c = true)
    (blank : ∀ c ∈ gap, Text.isBlank c = true) : Text.trim (name ++ gap) = name := by
  have solid := Text.solid_of_words full words
  simpa using Text.trim_gaps (g := []) (by simp) blank solid.opens solid.closes

theorem declare_name (full : name ≠ []) (words : ∀ c ∈ name, Text.isWord c = true)
    (other : ¬(name = "self".toList ∨ name = "cls".toList))
    (blank : ∀ c ∈ gap, Text.isBlank c = true) :
    declare n (name ++ gap) default = some (assemble n name none default) := by
  rw [declare, Text.splitFirst?_eq_none (not_colon words blank)]
  dsimp only
  rw [trim_name full words blank, if_neg]
  rintro (self | cls | nil)
  · exact other (.inl self)
  · exact other (.inr cls)
  · exact full nil

theorem declare_annotated (full : name ≠ []) (words : ∀ c ∈ name, Text.isWord c = true)
    (other : ¬(name = "self".toList ∨ name = "cls".toList))
    (blank : ∀ c ∈ gap, Text.isBlank c = true) (t : Text) :
    declare n (name ++ (gap ++ ':' :: t)) default =
      some (assemble n name (some (Text.trim t)) default) := by
  rw [← List.append_assoc, declare, Text.splitFirst?_append (not_colon words blank) (by rfl)]
  dsimp only
  rw [trim_name full words blank, if_neg]
  rintro (self | cls | nil)
  · exact other (.inl self)
  · exact other (.inr cls)
  · exact full nil

/-- A first equals sign in the annotation parts the annotation. -/
theorem parameter?_garbled {a : Clause} {default : Option Clause} (le : n ≤ 2) (full : name ≠ [])
    (words : ∀ c ∈ name, Text.isWord c = true)
    (other : ¬(name = "self".toList ∨ name = "cls".toList)) (ha : a.Proper)
    (mem : '=' ∈ maskIndent a.value) :
    ∃ type back,
      parameter? (Item.parameter n name (some a) default).text
          (List.replicate n '*' ++ (name ++ (a.mask ':' ++ default.elim [] (Clause.mask '=')))) =
        some (some (assemble n name (some type) (some back))) ∧ type.length < a.value.length := by
  obtain ⟨p, q, mask, first⟩ := List.eq_append_cons_of_mem mem
  obtain ⟨p', q', value, hp, -⟩ := Masks.kept (mask ▸ maskIndent_masks a.value) (by decide)
  refine ⟨Text.trim p', Text.trim (q' ++ default.elim [] (Clause.text '=')), ?_, ?_⟩
  · have opens := opens_words full words
    have absent : '=' ∉ name ++ (a.before ++ ':' :: (a.behind ++ p)) := by
      have nameless : '=' ∉ name := fun mem => absurd (words '=' mem) (by decide)
      have before : '=' ∉ a.before := Text.not_mem_of_blank ha.before (by decide)
      have behind : '=' ∉ a.behind := Text.not_mem_of_blank ha.behind (by decide)
      simp [nameless, before, behind, first]
    have size : Text.size (name ++ (a.before ++ ':' :: (a.behind ++ p))) =
        Text.size (name ++ (a.before ++ ':' :: (a.behind ++ p'))) := by
      simp only [Text.size_append, Text.size_cons, hp.size_eq]
    have read := @parameter?_equals n (name ++ (a.before ++ ':' :: (a.behind ++ p')))
      (q' ++ default.elim [] (Clause.text '=')) (name ++ (a.before ++ ':' :: (a.behind ++ p)))
      (q ++ default.elim [] (Clause.mask '=')) le (opens.append _) size absent
    have type : Text.trim (a.behind ++ p') = Text.trim p' := by
      rw [Text.trim, Text.trimStart_blank ha.behind]
      rfl
    rw [declare_annotated full words other ha.before, type] at read
    rw [Clause.mask, mask]
    simpa [Item.text, Clause.text, value] using read
  · obtain ⟨lead, tail, split, -⟩ := Text.trim_split p'
    have length := congrArg List.length split
    simp only [List.length_append] at length
    rw [value, List.length_append, List.length_cons]
    omega

/-- A parameter is read for a parameter, and as it was declared exactly if it is clear. -/
theorem parameter?_iff {type? : Option Clause} {default : Option Clause} (le : n ≤ 2)
    (full : name ≠ []) (words : ∀ c ∈ name, Text.isWord c = true)
    (other : ¬(name = "self".toList ∨ name = "cls".toList)) (ha : ∀ c ∈ type?, c.Proper)
    (hd : ∀ c ∈ default, c.Proper) :
    ∃ p, parameter? (Item.parameter n name type? default).text
        (maskIndent (Item.parameter n name type? default).text) = some (some p) ∧
      (some p = (Item.parameter n name type? default).declared? ↔
        (Item.parameter n name type? default).Clear) := by
  have blank : ∀ c ∈ default.elim [] Clause.before, Text.isBlank c = true := by
    cases default with
    | none => simp
    | some c => exact (hd c rfl).before
  have opens := opens_words full words
  have nameless : '=' ∉ name := fun mem => absurd (words '=' mem) (by decide)
  rw [(sound_parameter words ha hd).2]
  cases type? with
  | none =>
    refine ⟨assemble n name none (default.map Clause.value), ?_, by simp [Item.declared?, Item.Clear]⟩
    simp only [Item.text, Option.elim_none, List.nil_append]
    rw [parameter?_clause le opens rfl nameless hd, declare_name full words other blank]
  | some a =>
    have proper := ha a rfl
    by_cases mem : '=' ∈ maskIndent a.value
    · obtain ⟨type, back, read, shorter⟩ := @parameter?_garbled n name a default le full words other
        proper mem
      refine ⟨_, read, iff_of_false ?_ (fun clear => clear mem)⟩
      intro same
      have types : some (String.ofList type) = some (String.ofList a.value) :=
        congrArg Parameter.type (Option.some.inj same)
      have equal := congrArg String.toList (Option.some.inj types)
      rw [String.toList_ofList, String.toList_ofList] at equal
      rw [equal] at shorter
      exact Nat.lt_irrefl _ shorter
    · refine ⟨assemble n name (some a.value) (default.map Clause.value), ?_, iff_of_true rfl mem⟩
      have size : Text.size (name ++ a.mask ':') = Text.size (name ++ a.text ':') := by
        simp [Clause.mask, Clause.text, Text.size_append, (maskIndent_masks a.value).size_eq]
      have absent : '=' ∉ name ++ a.mask ':' := by
        have before : '=' ∉ a.before := Text.not_mem_of_blank proper.before (by decide)
        have behind : '=' ∉ a.behind := Text.not_mem_of_blank proper.behind (by decide)
        simp [Clause.mask, nameless, before, behind, mem]
      have read := parameter?_clause le (opens.append (a.text ':')) size absent hd
      have declared := @declare_annotated n name a.before (default.map Clause.value) full words other
        proper.before (a.behind ++ (a.value ++ default.elim [] Clause.before))
      rw [proper.trim_append blank] at declared
      simp only [Item.text, Clause.text, Option.elim_some, List.append_assoc, List.cons_append]
        at read declared ⊢
      rw [read, declared]

/-- What is read of an item. -/
def Item.read (i : Item) : Option Parameter := (parameter? i.text (maskIndent i.text)).join

/-- An item declares a parameter exactly if one is read of it, and the same one exactly if the item
is clear. -/
theorem Item.Proper.read {i : Item} (h : i.Proper) :
    parameter? i.text (maskIndent i.text) = some i.read ∧
      i.read.isSome = i.declared?.isSome ∧ (i.read = i.declared? ↔ i.Clear) := by
  have of_read {r : Option Parameter} (found : parameter? i.text (maskIndent i.text) = some r) :
      i.read = r := by
    rw [Item.read, found]
    rfl
  cases h with
  | marker hc => rcases hc with rfl | rfl <;> exact ⟨rfl, rfl, iff_of_true rfl trivial⟩
  | receiver hn => rcases hn with rfl | rfl <;> exact ⟨rfl, rfl, iff_of_true rfl trivial⟩
  | parameter le full words other ha hd =>
    obtain ⟨p, found, iff⟩ := parameter?_iff le full words other ha hd
    rw [of_read found]
    exact ⟨found, rfl, iff⟩

theorem filterMap_eq_iff {α β : Type} {f g : α → Option β} {xs : List α}
    (alike : ∀ x ∈ xs, (f x).isSome = (g x).isSome) :
    xs.filterMap f = xs.filterMap g ↔ ∀ x ∈ xs, f x = g x := by
  induction xs with
  | nil => simp
  | cons x xs ih =>
    have here := alike x (by simp)
    have later := ih fun y hy => alike y (by simp [hy])
    rw [List.forall_mem_cons, ← later, List.filterMap_cons, List.filterMap_cons]
    cases hf : f x <;> cases hg : g x <;> simp_all

/-- A list of parameters, markers and receivers is read as it was declared exactly if no annotation
has an equals sign in its code. -/
theorem parameters?_iff_clear {items : List Item} {list : Text} (proper : ∀ i ∈ items, i.Proper)
    (h : Joined ',' (items.map Item.text) list) :
    parameters? list (maskIndent list) = some (items.filterMap Item.declared?) ↔
      ∀ i ∈ items, i.Clear := by
  have complete : ∀ p ∈ (items.map Item.text).map (fun w => (w, w)), Complete .code p.1 := by
    simpa using fun i hi => (proper i hi).sound.complete
  have masked := Listed.masked h (by decide) complete
  rw [List.map_map, List.map_map] at masked
  have found := masked.splitTopLevel (Scan.comma_separates false)
    (by simpa using fun i hi => (proper i hi).piece)
  rw [List.forall₂_map_left_iff] at found
  have read := Scan.mapM_of_forall₂ (g := Item.read)
    (f := fun piece => (Text.slice? list piece.start piece.stop).bind fun raw =>
      parameter? raw piece.text) found fun i hi piece ⟨text, slice⟩ => by
        dsimp only [Function.comp_apply] at text slice
        rw [slice, Option.bind_some, text]
        exact (proper i hi).read.1
  rw [parameters?]
  simp only [Option.bind_eq_bind, read, Option.bind_some, Option.pure_def, Option.some.injEq]
  rw [List.filterMap_map, Function.id_comp, filterMap_eq_iff fun i hi => (proper i hi).read.2.1]
  exact forall₂_congr fun i hi => (proper i hi).read.2.2

/-- The parameters of the list `self, x: int = 3, *, key: str = "x, y", **rest`. -/
theorem parameters?_keywords :
    parameters? "self, x: int = 3, *, key: str = \"x, y\", **rest".toList
        (maskIndent "self, x: int = 3, *, key: str = \"x, y\", **rest".toList) =
      some [{ name := "x", type := some "int", defaultValue := some "3", optional := true },
        { name := "key", type := some "str", defaultValue := some "\"x, y\"", optional := true },
        { name := "rest", optional := true, variadic := true }] := by
  have proper : ∀ i ∈ [Item.receiver "self".toList,
      .parameter 0 "x".toList (some ⟨[], [' '], "int".toList⟩) (some ⟨[' '], [' '], "3".toList⟩),
      .marker '*', .parameter 0 "key".toList (some ⟨[], [' '], "str".toList⟩)
        (some ⟨[' '], [' '], "\"x, y\"".toList⟩),
      .parameter 2 "rest".toList none none], i.Proper := by
    have clause {c : Clause} (h : c.Proper) : ∀ d ∈ some c, d.Proper := by
      rintro d ⟨⟩
      exact h
    simp only [List.forall_mem_cons, List.not_mem_nil, false_imp_iff, implies_true, and_true]
    refine ⟨.receiver (.inl rfl),
      .parameter (by decide) (by decide) (by decide) (by decide) (clause ?_) (clause ?_),
      .marker (.inl rfl),
      .parameter (by decide) (by decide) (by decide) (by decide) (clause ?_) (clause ?_),
      .parameter (by decide) (by decide) (by decide) (by decide) (by simp) (by simp)⟩
    all_goals exact ⟨by decide, by decide, by decide, by decide, by decide, by decide⟩
  exact (parameters?_iff_clear proper (Scan.joined_intercalate (u := [' ']) (by decide) _)).mpr
    (by decide)

/-- An annotation with a call that has a keyword. -/
def calledItem : Item :=
  .parameter 0 "x".toList (some ⟨[], [' '], "Annotated[int, Field(gt=0)]".toList⟩) none

/-- The equals sign of the call is taken for that of a default, although it stands in brackets. -/
theorem parameters?_called :
    calledItem.Proper ∧
      Nests (counted false) (fun c => c != ',' && c != '=')
        (maskIndent "Annotated[int, Field(gt=0)]".toList) ∧
      calledItem.declared? =
        some { name := "x", type := some "Annotated[int, Field(gt=0)]" } ∧
      parameters? "x: Annotated[int, Field(gt=0)]".toList
          (maskIndent "x: Annotated[int, Field(gt=0)]".toList) =
        some [{ name := "x", type := some "Annotated[int, Field(gt", defaultValue := some "0)]",
                optional := true }] := by
  refine ⟨.parameter (by decide) (by decide) (by decide) (by decide) ?_ (by simp), by decide, rfl, rfl⟩
  rintro c ⟨⟩
  exact ⟨by decide, by decide, by decide, by decide, by decide, by decide⟩

end SourceTree.Python
