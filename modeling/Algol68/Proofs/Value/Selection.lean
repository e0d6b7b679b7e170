import Algol68.Proofs.Value.Slice
import Mathlib.Data.List.Forall2

/-! Fields selected through names and fields of values. For structures the two agree. For rows they do
not: the field of a row is the row of the fields of its elements, but the name that is selected from
the name of a row leads nowhere. -/

namespace Algol68

namespace Value

variable {s : Store} {n : Name} {fields : Array Value} {r : Row Value} {i : Nat}

theorem field_struct (i : Nat) (fields : Array Value) :
    field i (.struct fields) = (Value.struct fields).stepInto (.field i) := by
  cases hi : fields[i]? with
  | none => rw [field, stepInto, hi]
  | some v => rw [field, stepInto, hi]

theorem field_name (i : Nat) (n : Name) : field i (.name n) = .ok (.name (n.field i)) := by
  simp only [field]

theorem get_field (s : Store) (n : Name) (i : Nat) :
    s.get (n.field i) = (do (← s.get n).stepInto (.field i)) := Store.get_extend s n (.field i)

theorem field_name_referent (h : s.get n = .ok (.struct fields)) :
    (field i (.name n) >>= referent s) = field i (.struct fields) := by
  rw [field_name, field_struct]
  change s.get (n.field i) = _
  rw [get_field, h]
  rfl

theorem fieldOfEach_eq_ok_iff {vs parts : List Value} :
    fieldOfEach i vs = .ok parts ↔ List.Forall₂ (fun v part => field i v = .ok part) vs parts := by
  induction vs generalizing parts with
  | nil =>
    rw [List.forall₂_nil_left_iff, fieldOfEach]
    constructor
    · intro h
      cases h
      rfl
    · rintro rfl
      rfl
  | cons v vs ih =>
    rw [List.forall₂_cons_left_iff, fieldOfEach]
    constructor
    · intro h
      cases hv : field i v with
      | error f =>
        rw [hv] at h
        cases h
      | ok part =>
        rw [hv] at h
        cases hvs : fieldOfEach i vs with
        | error f =>
          rw [hvs] at h
          cases h
        | ok rest =>
          rw [hvs] at h
          cases h
          exact ⟨part, rest, rfl, ih.mp hvs, rfl⟩
    · rintro ⟨part, rest, hv, hvs, rfl⟩
      rw [hv, ih.mpr hvs]
      rfl

/-- The field of a row is the row, under the same bounds, of the fields of its elements. -/
theorem field_row_eq_ok_iff {w : Value} :
    field i (.row r) = .ok w ↔ ∃ parts : Array Value, w = .row ⟨r.dims, parts⟩ ∧
      List.Forall₂ (fun v part => field i v = .ok part) r.elements.toList parts.toList := by
  obtain ⟨dims, ⟨elements⟩⟩ := r
  rw [field]
  constructor
  · intro h
    cases hp : fieldOfEach i elements with
    | error f =>
      rw [hp] at h
      cases h
    | ok parts =>
      rw [hp] at h
      cases h
      exact ⟨parts.toArray, rfl, fieldOfEach_eq_ok_iff.mp hp⟩
  · rintro ⟨⟨parts⟩, rfl, hp⟩
    rw [fieldOfEach_eq_ok_iff.mpr hp]
    rfl

theorem get_field_of_row (h : s.get n = .ok (.row r)) (i : Nat) :
    s.get (n.field i) = mismatch "structure or row" (.row r) := by
  rw [get_field, h]
  rfl

theorem set_field_of_row (h : s.get n = .ok (.row r)) (i : Nat) (new : Value) :
    s.set (n.field i) new = mismatch "structure or row" (.row r) := by
  rw [Name.field, Store.set_extend new _ h]
  rfl

end Value

open Value in
/-- Selecting from the name of a structure and reading the name of the field is selecting from the
structure, with the same fault where there is no such field. From a row of structures a selection
makes the row of the fields, under the same bounds, when each element has the field; from the name of
a row it makes a name that can be neither read nor assigned to. -/
theorem select_through_name (s : Store) (n : Name) (i : Nat) :
    (∀ fields, s.get n = .ok (.struct fields) →
      (field i (.name n) >>= referent s) = field i (.struct fields)) ∧
    (∀ r : Row Value, s.get n = .ok (.row r) →
      (∀ w, field i (.row r) = .ok w ↔ ∃ parts : Array Value, w = .row ⟨r.dims, parts⟩ ∧
        List.Forall₂ (fun v part => field i v = .ok part) r.elements.toList parts.toList) ∧
      field i (.name n) = .ok (.name (n.field i)) ∧
      s.get (n.field i) = mismatch "structure or row" (.row r) ∧
      ∀ new, s.set (n.field i) new = mismatch "structure or row" (.row r)) := by
  constructor
  · intro fields h
    exact field_name_referent h
  · intro r h
    refine ⟨fun w => field_row_eq_ok_iff, field_name i n, get_field_of_row h i, ?_⟩
    intro new
    exact set_field_of_row h i new

/-- A store of two points in a row and of a point on its own, in this order. -/
def points : Store :=
  ⟨#[.row ⟨[⟨1, 2⟩], #[.struct #[.int 3, .int 4], .struct #[.int 5, .int 6]]⟩,
    .struct #[.int 7, .int 8]]⟩

theorem select_through_points :
    points.get ⟨1, []⟩ = .ok (.struct #[.int 7, .int 8]) ∧
    (Value.field 1 (.name ⟨1, []⟩) >>= Value.referent points) = .ok (.int 8) ∧
    (Value.field 2 (.name ⟨1, []⟩) >>= Value.referent points) =
      fault (.valueMismatch "structure field" .struct) := by
  have point : points.get ⟨1, []⟩ = .ok (.struct #[.int 7, .int 8]) := rfl
  refine ⟨point, ?_, ?_⟩
  · rw [(select_through_name points ⟨1, []⟩ 1).1 _ point, Value.field_struct]
    rfl
  · rw [(select_through_name points ⟨1, []⟩ 2).1 _ point, Value.field_struct]
    rfl

/-- The first fields of the two points are selected from the row of them, but not through its name. -/
theorem row_field_through_name :
    points.get ⟨0, []⟩ =
      .ok (.row ⟨[⟨1, 2⟩], #[.struct #[.int 3, .int 4], .struct #[.int 5, .int 6]]⟩) ∧
    Value.field 0 (.row ⟨[⟨1, 2⟩], #[.struct #[.int 3, .int 4], .struct #[.int 5, .int 6]]⟩) =
      .ok (.row ⟨[⟨1, 2⟩], #[.int 3, .int 5]⟩) ∧
    (Value.field 0 (.name ⟨0, []⟩) >>= Value.referent points) =
      fault (.valueMismatch "structure or row" .row) := by
  refine ⟨rfl, ?_, rfl⟩
  rw [Value.field_row_eq_ok_iff]
  refine ⟨#[.int 3, .int 5], rfl, ?_⟩
  simp [Value.field_struct, Value.stepInto]

end Algol68
