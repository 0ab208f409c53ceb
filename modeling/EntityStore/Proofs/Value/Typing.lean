import EntityStore.Mapping.Column
import EntityStore.Proofs.Outcome
import EntityStore.Value.Typing

/-!
Values of a type, and the cells that columns of the type hold for them.
-/

set_option autoImplicit false

namespace EntityStore

namespace FieldType

theorem narrow_ok {type : FieldType} {v w : Value} (h : type.narrow v = .ok w)
    (hv : v.type? = some type ∨ v.type? = some type.widened) : w.type? = some type := by
  unfold narrow at h
  split at h
  · split at h
    · cases h
      rfl
    · cases h
  · split at h
    · cases h
    · cases h
      rfl
  · next hint hfloat =>
    cases h
    rcases hv with hv | hv
    · exact hv
    · cases type with
      | int => cases v <;> cases hv; exact (hint _ rfl rfl).elim
      | float => cases v <;> cases hv; exact (hfloat _ rfl rfl).elim
      | _ => exact hv

/-- What fits a type other than list and map has that type. -/
theorem fit_ok {type : FieldType} {v w : Value} (hcontainer : ¬type.isContainer)
    (h : type.fit v = .ok w) :
    w.type? = some type := by
  unfold fit at h
  split at h
  · cases h
  · next attempted hattempted =>
    split at h
    · next htakes =>
      refine narrow_ok (Except.mapError_eq_ok.mp h) ?_
      simpa [takes, hcontainer, hattempted] using htakes
    · cases h

/-- A value that a field of the type takes: nothing, one of the type, and for a list or map
anything. -/
def Holds (t : FieldType) (v : Value) : Prop :=
  v.isNull ∨ t.isContainer ∨ v.type? = some t

theorem holds_of_fit {type : FieldType} {v w : Value} (h : type.fit v = .ok w) : type.Holds w := by
  by_cases hcontainer : type.isContainer
  · exact .inr (.inl hcontainer)
  · exact .inr (.inr (fit_ok hcontainer h))

/-- What a column of the type keeps of a value: an undefined number is null, and zero has no
sign. -/
def cell (t : FieldType) (v : Value) : Cell :=
  match (t.column v).cell with
  | .real x => .real x.plainZero
  | c => c

theorem cell_container {t : FieldType} (ht : t.isContainer) (v : Value) :
    t.cell v = (t.column v).cell := by
  unfold cell column
  by_cases hnull : v.isNull
  · rw [if_pos hnull]
    rfl
  · rw [if_neg hnull, if_pos ht]
    rfl

theorem stored_ofBinary (x : Binary) : (Cell.ofBinary x).stored .real = match Cell.ofBinary x with
    | .real x => .real x.plainZero
    | c => c := by
  unfold Cell.ofBinary
  cases x.isNaN <;> rfl

/-- The declared type of its column changes nothing but the sign of zero. -/
theorem stored_column {t : FieldType} {v : Value} (h : t.Holds v) :
    (t.column v).cell.stored t.affinity = t.cell v := by
  unfold cell
  rcases h with hnull | hcontainer | htype
  · rw [column, if_pos hnull]
    cases t <;> rfl
  · have htext : t.affinity = .text := by cases t <;> first | rfl | cases hcontainer
    rw [column, htext]
    split <;> rfl
  · cases v <;> cases htype <;> first | rfl | exact stored_ofBinary _

end FieldType

end EntityStore
