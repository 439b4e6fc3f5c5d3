import SourceTree.Builder
import SourceTree.Proofs.Metadata

/-!
What a note changes of a draft: the metadata under one key, and nothing else. The keys of the metadata
ascend all the while.
-/

namespace SourceTree

namespace Draft

variable {d e : Draft} {key : String}

/-- The keys of the draft's metadata ascend. -/
def Ordered (d : Draft) : Prop := d.metadata.Ascending

theorem ordered_named (name : Text) : (named name).Ordered := Metadata.ascending_nil

namespace Ordered

variable {v : Value} {t : Text}

theorem note (h : d.Ordered) : (d.note key v).Ordered := Metadata.Ascending.insert h key v

theorem noteText (h : d.Ordered) : (d.noteText key t).Ordered := h.note

theorem noteText? {t : Option Text} (h : d.Ordered) : (d.noteText? key t).Ordered := by
  cases t with
  | none => exact h
  | some t => exact h.noteText

theorem noteIf {condition : Bool} (h : d.Ordered) : (d.noteIf condition key).Ordered := by
  unfold Draft.noteIf
  split
  · exact h.note
  · exact h

theorem noteTexts {ts : List Text} (h : d.Ordered) : (d.noteTexts key ts).Ordered := by
  unfold Draft.noteTexts
  split
  · exact h
  · exact h.note

/-- A text that is noted under a condition. -/
theorem ite_noteText {c : Prop} [Decidable c] (h : d.Ordered) :
    (if c then d.noteText key t else d).Ordered := by
  split
  · exact h.noteText
  · exact h

theorem withChildren {children : List Node} (h : d.Ordered) : (d.withChildren children).Ordered := h

end Ordered

/-- The second draft is the first but for what it notes under the key. -/
structure Notes (key : String) (d e : Draft) : Prop where
  name : e.name = d.name
  children : e.children = d.children
  others : ∀ key', key' ≠ key → e.metadata.get? key' = d.metadata.get? key'
  ordered : d.Ordered → e.Ordered

namespace Notes

theorem refl (key : String) (d : Draft) : Notes key d d := ⟨rfl, rfl, fun _ _ => rfl, id⟩

theorem note (key : String) (d : Draft) (v : Value) : Notes key d (d.note key v) := by
  refine ⟨rfl, rfl, fun key' other => ?_, Ordered.note⟩
  rw [Draft.note, Metadata.get?_insert, if_neg other]

theorem noteText? (key : String) (d : Draft) (t : Option Text) : Notes key d (d.noteText? key t) := by
  cases t with
  | none => exact refl key d
  | some t => exact note key d _

theorem noteTexts (key : String) (d : Draft) (ts : List Text) : Notes key d (d.noteTexts key ts) := by
  unfold Draft.noteTexts
  split
  next => exact refl key d
  next => exact note key d _

theorem noteIf (key : String) (d : Draft) (condition : Bool) :
    Notes key d (d.noteIf condition key) := by
  unfold Draft.noteIf
  split
  next => exact note key d _
  next => exact refl key d

end Notes

theorem get?_note (d : Draft) (key : String) (v : Value) :
    (d.note key v).metadata.get? key = some v := by
  rw [note, Metadata.get?_insert, if_pos rfl]

end Draft

end SourceTree
