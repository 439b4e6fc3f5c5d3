import Mathlib.Data.Option.Basic
import SourceTree.Proofs.Pattern.Choice
import SourceTree.Proofs.Pattern.Word
import SourceTree.Python.Pattern

/-!
The strings that a text lists. A string ends with a quotation mark, so text without such marks can
follow without adding to them.
-/

namespace SourceTree.Python

open Pattern
open Text (Opens)

variable {c c' d : Cursor} {m : Match} {x x' y y' : Char} {w w' rest rest' tail : Text}

def isQuote (c : Char) : Bool := c == '\x27' || c == '\x22'

/-- A string behind the cursor: what it holds, the quotation marks around it and what follows. -/
structure Literal (c : Cursor) (x : Char) (w : Text) (y : Char) (rest : Text) : Prop where
  rest_eq : c.rest = x :: (w ++ y :: rest)
  opens : isQuote x = true
  closes : isQuote y = true
  full : w ≠ []
  inside : ∀ z ∈ w, isQuote z = false

theorem not_contains_quotes {z : Char} :
    (!(['\x27', '\x22'].contains z)) = true ↔ isQuote z = false := by
  simp [isQuote]

theorem next?_some (h : searchFrom?.next? stringLiteral c = some (m, d)) :
    ∃ x w y, Literal c x w y d.rest ∧ m.groupText 1 = w := by
  obtain ⟨⟨e, gs⟩, found, same⟩ := Option.map_eq_some_iff.mp h
  obtain ⟨rfl, rfl⟩ := Prod.mk.inj same
  obtain ⟨t, g, e', ht, -, takes, hk⟩ := run_takes found
  obtain ⟨rfl, rfl⟩ : e' = e ∧ g = gs := by simpa using hk
  obtain ⟨_, _, _, _, rfl, rfl, ⟨_, _, _, _, rfl, rfl, first, second⟩, third⟩ := takes
  obtain ⟨x, rfl, opens, rfl⟩ := first
  obtain ⟨y, rfl, closes, rfl⟩ := third
  obtain ⟨inner, rfl, held⟩ := second
  obtain ⟨full, inside, rfl⟩ := takes_plus_one held
  refine ⟨x, _, y, ⟨by simpa using ht, opens, closes, full, fun z hz => ?_⟩, rfl⟩
  exact not_contains_quotes.mp (inside z hz)

theorem Literal.found (h : Literal c x w y rest) :
    (searchFrom?.next? stringLiteral c).isSome = true := by
  obtain ⟨hc, opens, closes, full, inside⟩ := h
  obtain ⟨z, w, rfl⟩ := List.exists_cons_of_ne_nil full
  have held (u : Char) (hu : u ∈ z :: w) : (!(['\x27', '\x22'].contains u)) = true :=
    not_contains_quotes.mpr (inside u hu)
  have second : (c.past [x]).rest = z :: (w ++ y :: rest) := Cursor.rest_past (u := [x]) hc
  have third : ((c.past [x]).past [z]).rest = w ++ y :: rest := Cursor.rest_past (u := [z]) second
  rw [searchFrom?.next?, Option.isSome_map]
  change (run (one isQuote) c [] fun d hs => run (noneOf ['\x27', '\x22']) d hs fun e hs =>
    run (many true (noneOf ['\x27', '\x22'])) e hs fun f hs =>
      run (one isQuote) f ((1, d.spanTo f) :: hs) fun g hs => some (g, hs)).isSome = true
  unfold noneOf
  rw [run_one_cons hc, if_pos opens, run_one_cons second, if_pos (held z (by simp))]
  refine run_many_one_isSome w (y :: rest) third (fun u hu => held u (by simp [hu])) ?_
  rw [run_one_cons (Cursor.rest_past third), if_pos closes]
  rfl

/-- Longer text has the same string at its front. -/
theorem Literal.longer (h : Literal c x w y rest) (h' : Literal c' x' w' y' rest')
    (more : c'.rest = c.rest ++ tail) : w = w' ∧ rest' = rest ++ tail := by
  have whole := h'.rest_eq
  rw [more, h.rest_eq] at whole
  simp only [List.cons_append, List.append_assoc, List.cons.injEq] at whole
  have stops {y : Char} (r : Text) (hy : isQuote y = true) : Opens (fun z => (!isQuote z) = false)
      (y :: r) := ⟨y, r, rfl, by simp [hy]⟩
  obtain ⟨same, behind⟩ := Text.span_unique (p := fun z => !isQuote z) whole.2
    (fun z hz => by simp [h.inside z hz]) (fun z hz => by simp [h'.inside z hz])
    (stops _ h.closes) (stops _ h'.closes)
  exact ⟨same, (List.cons.inj behind).2.symm⟩

theorem stringLiteral_starts : Starts (fun z => isQuote z = true) stringLiteral :=
  ((starts_one fun _ h => h).append).append

/-- Where the search goes on, less is left than where it began. -/
theorem searchFrom?_shrinks {before : Option Char} {offset : Nat} {cs : Text} {r : Match × Cursor}
    (found : searchFrom? stringLiteral before offset cs = some r) :
    r.1.whole.text ≠ [] ∧ r.2.rest.length < cs.length := by
  obtain ⟨front, whole, -, -, takes⟩ := searchFrom?_takes (m := r.1) (d := r.2) found
  obtain ⟨x, more, text, -⟩ := takes.opens stringLiteral_starts
  constructor
  · simp [text]
  · simp only [whole, text, List.length_append, List.length_cons]
    omega

/-- Each string is followed by those behind it. -/
theorem findAllFrom_succ (fuel : Nat) (c : Cursor) :
    findAllFrom stringLiteral (fuel + 1) c =
      match searchFrom? stringLiteral c.before c.offset c.rest with
      | none => []
      | some r => r.1 :: findAllFrom stringLiteral fuel r.2 := by
  rw [findAllFrom]
  cases found : searchFrom? stringLiteral c.before c.offset c.rest with
  | none => rfl
  | some r =>
    have full := (searchFrom?_shrinks found).1
    simp [full]

/-- The matches found the same string, and the second has the tail behind what the first has. -/
def Agree (tail : Text) (r r' : Match × Cursor) : Prop :=
  r.1.groupText 1 = r'.1.groupText 1 ∧ r'.2.rest = r.2.rest ++ tail

section Tail

variable (plain : ∀ z ∈ tail, isQuote z = false)
include plain

/-- A string at the front of a text that goes on without quotation marks ends before that. -/
theorem Literal.shorter (h : Literal c' x w y rest') (more : c'.rest = c.rest ++ tail) :
    ∃ rest, Literal c x w y rest := by
  have whole : (x :: w ++ [y]) ++ rest' = c.rest ++ tail := by
    rw [← more, h.rest_eq]
    simp
  rcases List.append_eq_append_iff.mp whole with ⟨more', hrest, -⟩ | ⟨less, hlit, htail⟩
  · exact ⟨more', by simpa using hrest, h.opens, h.closes, h.full, h.inside⟩
  · rcases List.eq_nil_or_concat less with rfl | ⟨front, z, rfl⟩
    · refine ⟨[], ?_, h.opens, h.closes, h.full, h.inside⟩
      simpa using hlit.symm
    · -- The tail would begin with the closing quotation mark.
      rw [List.concat_eq_append, ← List.append_assoc] at hlit
      obtain ⟨-, closing⟩ := List.append_inj' hlit rfl
      obtain rfl : y = z := by simpa using closing
      have mark := plain y (by simp [htail])
      exact absurd h.closes (by simp [mark])

theorem next?_longer (more : c'.rest = c.rest ++ tail) :
    Option.Rel (Agree tail) (searchFrom?.next? stringLiteral c)
      (searchFrom?.next? stringLiteral c') := by
  cases found : searchFrom?.next? stringLiteral c with
  | some r =>
    obtain ⟨x, w, y, lit, text⟩ := next?_some (m := r.1) (d := r.2) found
    have lit' : Literal c' x w y (r.2.rest ++ tail) := by
      refine ⟨?_, lit.opens, lit.closes, lit.full, lit.inside⟩
      rw [more, lit.rest_eq]
      simp
    obtain ⟨r', found'⟩ := Option.isSome_iff_exists.mp lit'.found
    obtain ⟨x', w', y', lit'', text'⟩ := next?_some (m := r'.1) (d := r'.2) found'
    obtain ⟨same, behind⟩ := lit.longer lit'' more
    rw [found']
    exact .some ⟨by rw [text, text', same], behind⟩
  | none =>
    cases found' : searchFrom?.next? stringLiteral c' with
    | none => exact .none
    | some r' =>
      obtain ⟨x, w, y, lit', -⟩ := next?_some (m := r'.1) (d := r'.2) found'
      obtain ⟨rest, lit⟩ := lit'.shorter plain more
      have some := lit.found
      simp [found] at some

theorem searchFrom?_longer (before before' : Option Char) (offset offset' : Nat) (cs : Text) :
    Option.Rel (Agree tail) (searchFrom? stringLiteral before offset cs)
      (searchFrom? stringLiteral before' offset' (cs ++ tail)) := by
  induction cs generalizing before before' offset offset' with
  | nil =>
    have nothing : searchFrom? stringLiteral before offset [] = none := by
      cases found : searchFrom? stringLiteral before offset [] with
      | none => rfl
      | some r =>
        obtain ⟨x, w, y, lit, -⟩ := next?_some (m := r.1) (d := r.2) found
        have empty := lit.rest_eq
        simp at empty
    have nothing' : searchFrom? stringLiteral before' offset' tail = none := by
      cases found : searchFrom? stringLiteral before' offset' tail with
      | none => rfl
      | some r =>
        obtain ⟨front, whole, -, -, takes⟩ := searchFrom?_takes (m := r.1) (d := r.2) found
        obtain ⟨x, more, text, opens⟩ := takes.opens stringLiteral_starts
        have mark := plain x (by simp [whole, text])
        simp [mark] at opens
    rw [nothing, List.nil_append, nothing']
    exact .none
  | cons x cs ih =>
    rw [List.cons_append, searchFrom?, searchFrom?]
    have more : (⟨before', offset', x :: (cs ++ tail)⟩ : Cursor).rest =
        (⟨before, offset, x :: cs⟩ : Cursor).rest ++ tail := rfl
    have here := next?_longer plain more
    generalize searchFrom?.next? stringLiteral ⟨before, offset, x :: cs⟩ = r,
      searchFrom?.next? stringLiteral ⟨before', offset', x :: (cs ++ tail)⟩ = r' at here ⊢
    cases here with
    | none => exact ih _ _ _ _
    | some agree => exact .some agree

/-- The fuel of either search is enough for the text that it has left. -/
theorem findAllFrom_longer (fuel fuel' : Nat) (more : c'.rest = c.rest ++ tail)
    (enough : c.rest.length < fuel) (enough' : c'.rest.length < fuel') :
    (findAllFrom stringLiteral fuel' c').map (fun m => m.groupText 1) =
      (findAllFrom stringLiteral fuel c).map fun m => m.groupText 1 := by
  induction fuel generalizing fuel' c c' with
  | zero => omega
  | succ fuel ih =>
    cases fuel' with
    | zero => omega
    | succ fuel' =>
      rw [findAllFrom_succ, findAllFrom_succ, more]
      have here := searchFrom?_longer plain c.before c'.before c.offset c'.offset c.rest
      generalize found : searchFrom? stringLiteral c.before c.offset c.rest = r,
        found' : searchFrom? stringLiteral c'.before c'.offset (c.rest ++ tail) = r' at here ⊢
      cases here with
      | none => rfl
      | some agree =>
        have shrinks := (searchFrom?_shrinks found).2
        have shrinks' := (searchFrom?_shrinks found').2
        rw [← more] at shrinks'
        dsimp only
        rw [List.map_cons, List.map_cons, agree.1, ih fuel' agree.2 (by omega) (by omega)]

theorem listedStrings_append (value : Text) :
    listedStrings (value ++ tail) = listedStrings value :=
  findAllFrom_longer plain _ _ rfl (Nat.lt_succ_self _) (Nat.lt_succ_self _)

end Tail

theorem assignedValue_cons (z : Char) (text : Text) :
    assignedValue (z :: text) = if z = '=' then text else assignedValue text := by
  by_cases here : z = '='
  · simp [assignedValue, Text.splitFirst?, here]
  · simp [assignedValue, Text.splitFirst?, here]
    rfl

/-- What is behind a statement belongs to its value, or else the value begins there. -/
theorem assignedValue_append (statement tail : Text) :
    assignedValue (statement ++ tail) = assignedValue statement ++ tail ∨
      assignedValue statement = [] ∧ assignedValue (statement ++ tail) = assignedValue tail := by
  induction statement with
  | nil => exact .inr ⟨rfl, rfl⟩
  | cons z statement ih =>
    rw [List.cons_append, assignedValue_cons, assignedValue_cons]
    by_cases here : z = '='
    · rw [if_pos here, if_pos here]
      exact .inl rfl
    · rw [if_neg here, if_neg here]
      exact ih

theorem mem_of_mem_assignedValue {z : Char} {text : Text} (h : z ∈ assignedValue text) : z ∈ text := by
  induction text with
  | nil => simp [assignedValue, Text.splitFirst?] at h
  | cons y text ih =>
    rw [assignedValue_cons] at h
    split at h
    next => exact List.mem_cons_of_mem y h
    next => exact List.mem_cons_of_mem y (ih h)

/-- Text behind a statement adds no names to it unless something is quoted there. -/
theorem listedStrings_statement (plain : ∀ z ∈ tail, isQuote z = false) (statement : Text) :
    listedStrings (assignedValue (statement ++ tail)) = listedStrings (assignedValue statement) := by
  rcases assignedValue_append statement tail with value | ⟨empty, value⟩
  · rw [value, listedStrings_append plain]
  · have plain' (z : Char) (hz : z ∈ assignedValue tail) : isQuote z = false :=
      plain z (mem_of_mem_assignedValue hz)
    rw [value, empty]
    exact listedStrings_append plain' []

end SourceTree.Python
