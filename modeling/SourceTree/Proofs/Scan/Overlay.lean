import Mathlib.Data.List.Forall2
import SourceTree.Proofs.Scan.Block
import SourceTree.Proofs.Scan.Piece
import SourceTree.Proofs.Text.Bytes

/-!
A mask byte by byte. In the UTF-8 form a mask lies over its source like a stencil: it is as long, every
byte of it is that of the source or a space, and newlines show through and nothing else becomes one.
Offsets of the source between characters are such offsets of the mask; the other way round this holds
next to characters that show through. Main statement: `masks_overlay`.
-/

namespace SourceTree

namespace Scan

open Text (Boundary bytes)

/-- What a byte of a mask may be, given the byte of the source: the same, or a space that hides no
newline. -/
def Shows (source mask : UInt8) : Prop := mask = source ∨ mask = 32 ∧ source ≠ 10

theorem shows_refl (bs : List UInt8) : List.Forall₂ Shows bs bs :=
  List.forall₂_same.mpr fun _ _ => .inl rfl

theorem shows_blank (c : Char) :
    List.Forall₂ Shows (String.utf8EncodeChar c) (bytes (blank c)) := by
  unfold blank
  split
  next newline =>
    subst newline
    exact shows_refl _
  next ne =>
    have hides : ∀ b ∈ String.utf8EncodeChar c, Shows b 32 := by
      intro b hb
      refine .inr ⟨rfl, ?_⟩
      rintro rfl
      exact ne (Text.eq_of_mem_utf8EncodeChar (c := '\n') (by decide) hb)
    rw [Text.bytes_spaces, ← String.length_utf8EncodeChar]
    generalize String.utf8EncodeChar c = bs at hides
    induction bs with
    | nil => exact .nil
    | cons b bs ih =>
      exact .cons (hides b List.mem_cons_self) (ih fun x hx => hides x (List.mem_cons_of_mem _ hx))

/-- Character by character a mask shows the bytes of its source or hides them. -/
theorem Masks.shows {source mask : Text} (h : Masks source mask) :
    List.Forall₂ Shows (bytes source) (bytes mask) := by
  induction h with
  | nil => exact .nil
  | keep c _ ih =>
    rw [Text.bytes_cons, Text.bytes_cons]
    exact List.rel_append (shows_refl _) ih
  | blank c _ _ ih =>
    rw [Text.bytes_cons, Text.bytes_append]
    exact List.rel_append (shows_blank c) ih

theorem getElem?_of_forall₂ {α β : Type} {R : α → β → Prop} {xs : List α} {ys : List β}
    (h : List.Forall₂ R xs ys) (n : Nat) :
    xs[n]? = none ∧ ys[n]? = none ∨ ∃ x y, xs[n]? = some x ∧ ys[n]? = some y ∧ R x y := by
  induction h generalizing n with
  | nil => exact .inl ⟨rfl, rfl⟩
  | cons first _ ih =>
    cases n with
    | zero => exact .inr ⟨_, _, rfl, rfl, first⟩
    | succ n => exact ih n

/-- A text that lies over another: equally long, with nothing but spaces where its bytes are not those
of the other, and with the same newlines. Each character of the other shows or is hidden as a whole.
It may be cut wherever the other may be cut, and next to a character that is no space the other holds
the same character and may be cut too. -/
structure Overlay (source mask : Text) : Prop where
  length : (bytes mask).length = (bytes source).length
  agrees : ∀ n : Nat, (bytes mask)[n]? ≠ some 32 → (bytes mask)[n]? = (bytes source)[n]?
  newlines : ∀ n : Nat, (bytes mask)[n]? = some 10 ↔ (bytes source)[n]? = some 10
  whole : ∀ front c back, source = front ++ c :: back → ∃ w, (w = [c] ∨ w = blank c) ∧
    Text.slice? mask (Text.size front) (Text.size front + c.utf8Size) = some w
  boundaries : ∀ n, Boundary source n → Boundary mask n
  shown : ∀ n c, Text.at? mask n = some c → c ≠ ' ' →
    Text.at? source n = some c ∧ Boundary source n ∧ Boundary source (n + c.utf8Size)

theorem Masks.overlay {source mask : Text} (h : Masks source mask) : Overlay source mask where
  length := by rw [Text.length_bytes, Text.length_bytes, h.size_eq]
  agrees n kept := by
    obtain ⟨none, none'⟩ | ⟨b, b', at_source, at_mask, same | ⟨rfl, -⟩⟩ := getElem?_of_forall₂ h.shows n
    · rw [none, none']
    · rw [at_source, at_mask, same]
    · exact absurd at_mask kept
  newlines n := by
    obtain ⟨none, none'⟩ | ⟨b, b', at_source, at_mask, rfl | ⟨rfl, ne⟩⟩ := getElem?_of_forall₂ h.shows n
    · simp [none, none']
    · rw [at_source, at_mask]
    · rw [at_source, at_mask]
      simpa using ne
  whole front c back split := by
    obtain ⟨front', rest, rfl, before, behind⟩ := (split ▸ h).split
    cases behind with
    | @keep _ _ m behind =>
      refine ⟨[c], .inl rfl, Text.slice?_eq_some_iff.mpr ⟨front', m, ?_, before.size_eq, ?_⟩⟩
      · rw [List.append_assoc, List.singleton_append]
      · rw [Text.size_cons, Text.size_nil, Nat.add_zero]
    | @blank _ _ m _ behind =>
      refine ⟨Scan.blank c, .inr rfl, Text.slice?_eq_some_iff.mpr ⟨front', m, ?_, before.size_eq, ?_⟩⟩
      · rw [List.append_assoc]
      · rw [size_blank]
  boundaries _ := h.boundary
  shown n c found inked := by
    obtain ⟨front, back, rfl, rfl⟩ := Text.at?_eq_some found
    obtain ⟨front', back', rfl, before, -⟩ := h.kept inked
    rw [before.size_eq]
    exact ⟨at?_append front' back' c, Text.boundary_append front' (c :: back'),
      Text.boundary_behind front' c back'⟩

/-- Both masks of a source lie over it. -/
theorem masks_overlay (source : Text) :
    Overlay source (maskBrace source) ∧ Overlay source (maskIndent source) :=
  ⟨(maskBrace_masks source).overlay, (maskIndent_masks source).overlay⟩

end Scan

end SourceTree
