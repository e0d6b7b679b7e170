import Algol68.Value.Store
import Mathlib.Tactic.ByContra

/-! Reading and assigning along paths. What a longer path leads to is found in what its beginning leads
to, and an assignment to a part is one to the whole with that part replaced. -/

namespace Algol68

theorem forall_mem_setIfInBounds {α : Type} {P : α → Prop} {xs : Array α} (h : ∀ x ∈ xs, P x) (i : Nat)
    {y : α} (hy : P y) : ∀ x ∈ xs.setIfInBounds i y, P x := by
  intro x hx
  rcases Array.mem_or_eq_of_mem_setIfInBounds hx with hx | rfl
  · exact h x hx
  · exact hy

namespace Value

variable {v part : Value} {path rest : List Step}

theorem read_append : ∀ (v : Value) (path rest : List Step),
    v.read (path ++ rest) = (do (← v.read path).read rest)
  | _, [], _ => rfl
  | v, s :: path, rest => by
    simp only [List.cons_append, read]
    cases h : v.stepInto s with
    | error f => rfl
    | ok w => exact read_append w path rest

theorem stepInto_field {fields : Array Value} {i : Nat} {w : Value}
    (h : (Value.struct fields).stepInto (.field i) = .ok w) : fields[i]? = some w := by
  simp only [stepInto] at h
  split at h
  · next x hx =>
    cases h
    exact hx
  · cases h

theorem stepInto_element {r : Row Value} {k : Nat} {w : Value}
    (h : (Value.row r).stepInto (.element k) = .ok w) : r.elements[k]? = some w := by
  simp only [stepInto, Row.elementAt] at h
  split at h
  · next x hx =>
    cases h
    exact hx
  · cases h

/-- The two ways a step can lead into a value. -/
theorem stepInto_cases {s : Step} {w : Value} (h : v.stepInto s = .ok w) :
    (∃ fields i, v = .struct fields ∧ s = .field i ∧ fields[i]? = some w) ∨
    ∃ r k, v = .row r ∧ s = .element k ∧ r.elements[k]? = some w := by
  cases v with
  | struct fields =>
    cases s with
    | field i => exact .inl ⟨fields, i, rfl, rfl, stepInto_field h⟩
    | element k => cases h
  | row r =>
    cases s with
    | field i => cases h
    | element k => exact .inr ⟨r, k, rfl, rfl, stepInto_element h⟩
  | _ => cases h

/-- A part that can be read can be replaced, and then what it was replaced by is read there. -/
theorem write_of_read (new : Value) (h : v.read path = .ok part) :
    ∃ w, write new v path = .ok w ∧ w.read path = .ok new := by
  induction path generalizing v with
  | nil => exact ⟨new, rfl, rfl⟩
  | cons s path ih =>
    simp only [read] at h
    cases hs : v.stepInto s with
    | error f =>
      rw [hs] at h
      cases h
    | ok x =>
      rw [hs] at h
      obtain ⟨y, hy, hr⟩ := ih h
      rcases stepInto_cases hs with ⟨fields, i, rfl, rfl, hx⟩ | ⟨r, k, rfl, rfl, hx⟩
      · have hi : i < fields.size := (Array.getElem?_eq_some_iff.mp hx).1
        refine ⟨.struct (fields.setIfInBounds i y), ?_, ?_⟩
        · simp only [write, hx, hy]
          rfl
        · simp only [read, stepInto, Array.getElem?_setIfInBounds_self_of_lt hi]
          exact hr
      · have hk : k < r.elements.size := (Array.getElem?_eq_some_iff.mp hx).1
        refine ⟨.row ⟨r.dims, r.elements.setIfInBounds k y⟩, ?_, ?_⟩
        · simp only [write, Row.elementAt, hx]
          simp only [Bind.bind, Except.bind, hy]
          rfl
        · simp only [read, stepInto, Row.elementAt, Array.getElem?_setIfInBounds_self_of_lt hk]
          exact hr

/-- To replace a part of a part is to replace the part by itself with that part replaced. -/
theorem write_append (new : Value) (h : v.read path = .ok part) :
    write new v (path ++ rest) = (do write (← write new part rest) v path) := by
  induction path generalizing v with
  | nil =>
    cases h
    exact (bind_pure (write new part rest)).symm
  | cons s path ih =>
    simp only [read] at h
    cases hs : v.stepInto s with
    | error f =>
      rw [hs] at h
      cases h
    | ok x =>
      rw [hs] at h
      have inner := ih h
      rcases stepInto_cases hs with ⟨fields, i, rfl, rfl, hx⟩ | ⟨r, k, rfl, rfl, hx⟩
      · simp only [List.cons_append, write, hx, inner]
        cases write new part rest <;> rfl
      · simp only [List.cons_append, write, Row.elementAt, hx, Bind.bind, Except.bind] at inner ⊢
        rw [inner]
        cases write new part rest <;> rfl

end Value

namespace Store

variable {s : Store} {n : Name} {v : Value}

theorem get_extend (s : Store) (n : Name) (step : Step) :
    s.get (n.extend step) = (do (← s.get n).stepInto step) := by
  simp only [get, Name.extend, Value.read_append]
  cases (s.cell n.cell).read n.path with
  | error f => rfl
  | ok w =>
    simp only [Bind.bind, Except.bind, Value.read]
    cases w.stepInto step <;> rfl

/-- What can be read other than nothing lies in one of the locations. -/
theorem cell_lt (h : s.get n = .ok v) (hv : v ≠ .void) : n.cell < s.cells.size := by
  by_contra hn
  have outside : s.cell n.cell = .void := by
    simp [cell, Array.getD_eq_getD_getElem?, Array.getElem?_eq_none (Nat.le_of_not_lt hn)]
  rw [get, outside] at h
  cases hp : n.path with
  | nil =>
    rw [hp] at h
    cases h
    exact hv rfl
  | cons step path =>
    rw [hp] at h
    cases h

/-- A name whose value can be read can be assigned to, and then has the value assigned. -/
theorem set_of_get (new : Value) (h : s.get n = .ok v) (hv : v ≠ .void) :
    ∃ s', s.set n new = .ok s' ∧ s'.get n = .ok new := by
  obtain ⟨w, hw, hr⟩ := Value.write_of_read new h
  refine ⟨s.put n.cell w, ?_, ?_⟩
  · simp only [set, assigned, hw]
    rfl
  · have hlt : n.cell < s.cells.size := cell_lt h hv
    simp only [get, cell, put, Array.getD_eq_getD_getElem?,
      Array.getElem?_setIfInBounds_self_of_lt hlt, Option.getD_some]
    exact hr

/-- An assignment to a part of what a name refers to. -/
theorem set_extend (new : Value) (step : Step) (h : s.get n = .ok v) :
    s.set (n.extend step) new = (do s.set n (← Value.write new v [step])) := by
  simp only [set, assigned, Name.extend, Value.write_append new h]
  cases Value.write new v [step] <;> rfl

/-- An assignment to an element assigns the row with that element replaced. -/
theorem set_element {r : Row Value} {k : Nat} (new : Value) (h : s.get n = .ok (.row r))
    (hk : k < r.size) :
    s.set (n.element k) new = s.set n (.row ⟨r.dims, r.elements.setIfInBounds k new⟩) := by
  have there : r.elements[k]? = some r.elements[k] := Array.getElem?_eq_getElem hk
  rw [Name.element, set_extend new _ h]
  simp only [Value.write, Row.elementAt, there]
  rfl

end Store

end Algol68
