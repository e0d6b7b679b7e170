import Algol68.Proofs.Machine.Outcome
import Algol68.Proofs.Value.Path

/-! Names obey the laws of a store. Reading and assigning go the same way along a path, so one succeeds
where the other does; an assignment is seen at its own path and nowhere beside it; and assignments to
places beside each other may be made in either order. -/

namespace Algol68

/-- Neither path is a beginning of the other. -/
def Beside (p q : List Step) : Prop := ¬ p <+: q ∧ ¬ q <+: p

theorem beside_cons_cons {s t : Step} {p q : List Step} :
    Beside (s :: p) (t :: q) ↔ s ≠ t ∨ Beside p q := by
  simp only [Beside, List.cons_prefix_cons, eq_comm (a := t)]
  by_cases h : s = t <;> simp [h]

theorem not_beside_nil (p : List Step) : ¬ Beside [] p := fun h => h.1 (List.nil_prefix)

theorem Beside.symm {p q : List Step} (h : Beside p q) : Beside q p := ⟨h.2, h.1⟩

theorem setIfInBounds_getElem? {α : Type} {xs : Array α} {i : Nat} {x : α} (h : xs[i]? = some x) :
    xs.setIfInBounds i x = xs := by
  apply Array.ext_getElem?
  intro k
  rw [Array.getElem?_setIfInBounds]
  split
  · next hk =>
    subst hk
    rw [if_pos (Array.getElem?_eq_some_iff.mp h).1, h]
  · rfl

namespace Value

variable {v w x : Value} {s t : Step} {p q : List Step} {f g : Fault}

/-- The value with the part that a step leads to replaced. -/
def replace : Value → Step → Value → Value
  | .struct fields, .field i, part => .struct (fields.setIfInBounds i part)
  | .row r, .element k, part => .row ⟨r.dims, r.elements.setIfInBounds k part⟩
  | v, _, _ => v

/-- The fault of an assignment to a part that is not there. -/
def refusal : Value → Step → Fault
  | .struct fields, .field i =>
    .of (.indexOutOfBounds (Int64.ofNat i) 0 (Int64.ofInt ((fields.size : Int) - 1)))
  | .row r, .element k =>
    .of (.indexOutOfBounds (Int64.ofNat k) 0 (Int64.ofInt ((r.size : Int) - 1)))
  | .nil, _ => .of .nilAccess
  | .undefined _, _ => .of (.undefinedValue "structure or row")
  | v, _ => .of (.valueMismatch "structure or row" v.shape)

/-- An assignment below a step is one to the part that the step leads to. -/
theorem write_cons_of_ok (new : Value) (h : v.stepInto s = .ok x) :
    write new v (s :: p) = (do return v.replace s (← write new x p)) := by
  rcases stepInto_cases h with ⟨fields, i, rfl, rfl, hx⟩ | ⟨r, k, rfl, rfl, hx⟩
  · simp only [write, hx, replace]
  · simp only [write, Row.elementAt, hx, replace]
    rfl

theorem write_cons_of_error (new : Value) (h : v.stepInto s = .error f) :
    write new v (s :: p) = .error (v.refusal s) := by
  cases v with
  | struct fields =>
    cases s with
    | field i =>
      cases hi : fields[i]? with
      | some y => simp [stepInto, hi] at h
      | none =>
        simp only [write, hi]
        rfl
    | element k => rfl
  | row r =>
    cases s with
    | field i => rfl
    | element k =>
      cases hk : r.elements[k]? with
      | some y => simp [stepInto, Row.elementAt, hk] at h
      | none =>
        simp only [write, Row.elementAt, hk]
        rfl
  | _ => cases s <;> rfl

/-! One step: what replacing the part it leads to does to the value. -/

theorem stepInto_replace (h : v.stepInto s = .ok x) (part : Value) :
    (v.replace s part).stepInto s = .ok part := by
  rcases stepInto_cases h with ⟨fields, i, rfl, rfl, hx⟩ | ⟨r, k, rfl, rfl, hx⟩
  · have hi : i < fields.size := (Array.getElem?_eq_some_iff.mp hx).1
    simp only [replace, stepInto, Array.getElem?_setIfInBounds_self_of_lt hi]
  · have hk : k < r.elements.size := (Array.getElem?_eq_some_iff.mp hx).1
    simp only [replace, stepInto, Row.elementAt, Array.getElem?_setIfInBounds_self_of_lt hk]

theorem stepInto_replace_of_ne (h : s ≠ t) (v part : Value) :
    (v.replace s part).stepInto t = v.stepInto t := by
  cases v with
  | struct fields =>
    cases s with
    | element k => rfl
    | field i =>
      cases t with
      | element k => rfl
      | field j =>
        have hij : i ≠ j := fun hij => h (congrArg Step.field hij)
        simp only [replace, stepInto, Array.getElem?_setIfInBounds_ne hij]
        rfl
  | row r =>
    cases s with
    | field i => rfl
    | element k =>
      cases t with
      | field i => rfl
      | element l =>
        have hkl : k ≠ l := fun hkl => h (congrArg Step.element hkl)
        simp only [replace, stepInto, Row.elementAt, Array.getElem?_setIfInBounds_ne hkl, Row.size,
          Array.size_setIfInBounds]
  | _ => rfl

theorem replace_self (h : v.stepInto s = .ok x) : v.replace s x = v := by
  rcases stepInto_cases h with ⟨fields, i, rfl, rfl, hx⟩ | ⟨r, k, rfl, rfl, hx⟩
  · exact congrArg Value.struct (setIfInBounds_getElem? hx)
  · exact congrArg (fun elements => Value.row ⟨r.dims, elements⟩) (setIfInBounds_getElem? hx)

theorem replace_replace (v a b : Value) (s : Step) :
    (v.replace s a).replace s b = v.replace s b := by
  cases v with
  | struct fields => cases s <;> simp [replace]
  | row r => cases s <;> simp [replace]
  | _ => rfl

theorem replace_comm (h : s ≠ t) (v a b : Value) :
    (v.replace s a).replace t b = (v.replace t b).replace s a := by
  cases v with
  | struct fields =>
    cases s with
    | element k => cases t <;> rfl
    | field i =>
      cases t with
      | element k => rfl
      | field j =>
        have hij : i ≠ j := fun hij => h (congrArg Step.field hij)
        simp only [replace, Array.setIfInBounds_comm _ _ hij]
  | row r =>
    cases s with
    | field i => cases t <;> rfl
    | element k =>
      cases t with
      | field i => rfl
      | element l =>
        have hkl : k ≠ l := fun hkl => h (congrArg Step.element hkl)
        simp only [replace, Array.setIfInBounds_comm _ _ hkl]
  | _ => rfl

/-- Why an assignment fails does not depend on what the parts are. -/
theorem refusal_replace (v part : Value) (s t : Step) : (v.replace s part).refusal t = v.refusal t := by
  cases v with
  | struct fields => cases s <;> cases t <;> simp [replace, refusal, shape]
  | row r => cases s <;> cases t <;> simp [replace, refusal, shape, Row.size]
  | _ => rfl

/-! Paths. -/

/-- A part can be assigned to exactly if it can be read. -/
theorem write_ok_iff (new : Value) : (∃ w, write new v p = .ok w) ↔ ∃ x, v.read p = .ok x := by
  constructor
  · rintro ⟨w, hw⟩
    induction p generalizing v w with
    | nil => exact ⟨v, rfl⟩
    | cons s p ih =>
      cases hs : v.stepInto s with
      | error f =>
        rw [write_cons_of_error new hs] at hw
        cases hw
      | ok y =>
        rw [write_cons_of_ok new hs] at hw
        cases hy : write new y p with
        | error f =>
          rw [hy] at hw
          cases hw
        | ok z =>
          obtain ⟨x, hx⟩ := ih z hy
          refine ⟨x, ?_⟩
          simp only [read, hs]
          exact hx
  · rintro ⟨x, hx⟩
    obtain ⟨w, hw, -⟩ := write_of_read new hx
    exact ⟨w, hw⟩

theorem read_write {new : Value} (h : write new v p = .ok w) : w.read p = .ok new := by
  obtain ⟨x, hx⟩ := (write_ok_iff new).mp ⟨w, h⟩
  obtain ⟨w', hw, hr⟩ := write_of_read new hx
  cases h.symm.trans hw
  exact hr

/-- To assign to a part what it is already changes nothing. -/
theorem write_read (h : v.read p = .ok x) : write x v p = .ok v := by
  induction p generalizing v with
  | nil =>
    cases h
    rfl
  | cons s p ih =>
    simp only [read] at h
    cases hs : v.stepInto s with
    | error f =>
      rw [hs] at h
      cases h
    | ok y =>
      rw [hs] at h
      rw [write_cons_of_ok x hs, ih h]
      exact congrArg Except.ok (replace_self hs)

/-- The part of an assignment below a step, from the assignment. -/
theorem exists_of_write_cons {new : Value} (h : write new v (s :: p) = .ok w) :
    ∃ x y, v.stepInto s = .ok x ∧ write new x p = .ok y ∧ w = v.replace s y := by
  cases hs : v.stepInto s with
  | error f =>
    rw [write_cons_of_error new hs] at h
    cases h
  | ok x =>
    rw [write_cons_of_ok new hs] at h
    cases hy : write new x p with
    | error f =>
      rw [hy] at h
      cases h
    | ok y =>
      rw [hy] at h
      cases h
      exact ⟨x, y, rfl, hy, rfl⟩

/-- Where an assignment below a step fails: in the part that the step leads to, or there is none. -/
theorem write_cons_eq_error_iff {new : Value} :
    write new v (s :: p) = .error g ↔
      (∃ x, v.stepInto s = .ok x ∧ write new x p = .error g) ∨
      (∃ f, v.stepInto s = .error f) ∧ v.refusal s = g := by
  cases hs : v.stepInto s with
  | error f =>
    rw [write_cons_of_error new hs]
    simp
  | ok x =>
    rw [write_cons_of_ok new hs]
    cases hy : write new x p <;> simp [hy, bind, Except.bind, pure, Except.pure]

/-- An assignment is not seen beside its path. -/
theorem read_write_of_beside (hpq : Beside p q) {new : Value} (h : write new v p = .ok w) :
    w.read q = v.read q := by
  induction p generalizing q v w with
  | nil => exact absurd hpq (not_beside_nil q)
  | cons s p ih =>
    cases q with
    | nil => exact absurd hpq.symm (not_beside_nil _)
    | cons t q =>
      obtain ⟨x, y, hs, hy, rfl⟩ := exists_of_write_cons h
      simp only [read]
      by_cases hst : s = t
      · subst hst
        have hpq : Beside p q := by simpa using beside_cons_cons.mp hpq
        rw [stepInto_replace hs, hs]
        exact ih hpq hy
      · rw [stepInto_replace_of_ne hst]

/-- Assignments beside each other: the second one goes as if it were the first, and the order does
not matter. -/
theorem write_write_of_beside (hpq : Beside p q) {a b : Value} (h : write a v p = .ok w) :
    (∀ u, write b v q = .ok u → ∃ z, write b w q = .ok z ∧ write a u p = .ok z) ∧
    ∀ g, write b v q = .error g → write b w q = .error g := by
  induction p generalizing q v w with
  | nil => exact absurd hpq (not_beside_nil q)
  | cons s p ih =>
    cases q with
    | nil => exact absurd hpq.symm (not_beside_nil _)
    | cons t q =>
      obtain ⟨x, y, hs, hy, rfl⟩ := exists_of_write_cons h
      by_cases hst : s = t
      · subst hst
        have hpq : Beside p q := by simpa using beside_cons_cons.mp hpq
        obtain ⟨both, fails⟩ := ih hpq hy
        rw [write_cons_of_ok b (stepInto_replace hs y)]
        constructor
        · intro u hu
          obtain ⟨x', y', hs', hy', rfl⟩ := exists_of_write_cons hu
          cases hs.symm.trans hs'
          obtain ⟨z, hz, hz'⟩ := both y' hy'
          refine ⟨v.replace s z, ?_, ?_⟩
          · rw [hz]
            exact congrArg Except.ok (replace_replace ..)
          · rw [write_cons_of_ok a (stepInto_replace hs y'), hz']
            exact congrArg Except.ok (replace_replace ..)
        · intro g hg
          rcases write_cons_eq_error_iff.mp hg with ⟨x', hx', hg⟩ | ⟨⟨f, hf⟩, -⟩
          · cases hs.symm.trans hx'
            rw [fails g hg]
            rfl
          · cases hs.symm.trans hf
      · -- the two steps lead to different parts of `v`
        have ht := stepInto_replace_of_ne hst v y
        constructor
        · intro u hu
          obtain ⟨x', y', hs', hy', rfl⟩ := exists_of_write_cons hu
          refine ⟨(v.replace s y).replace t y', ?_, ?_⟩
          · rw [write_cons_of_ok b (ht.trans hs'), hy']
            rfl
          · rw [write_cons_of_ok a ((stepInto_replace_of_ne (Ne.symm hst) v y').trans hs), hy,
              replace_comm hst]
            rfl
        · intro g hg
          rw [write_cons_eq_error_iff, ht, refusal_replace]
          exact write_cons_eq_error_iff.mp hg

end Value

/-- Neither name is that of a part of the other. -/
def Name.Beside (m n : Name) : Prop := m.cell ≠ n.cell ∨ Algol68.Beside m.path n.path

theorem Name.Beside.symm {m n : Name} (h : m.Beside n) : n.Beside m :=
  h.imp Ne.symm Algol68.Beside.symm

namespace Store

variable {s s' : Store} {m n : Name} {v w : Value} {f : Fault}

/-- An assignment to a name: its outcome, and the store it leaves. -/
def attempt (s : Store) (n : Name) (v : Value) : Checked Unit × Store :=
  match s.set n v with
  | .ok s' => (.ok (), s')
  | .error f => (.error f, s)

theorem attempt_of_ok {c : Value} (h : s.assigned n v = .ok c) :
    s.attempt n v = (.ok (), s.put n.cell c) := by
  simp only [attempt, set, h]
  rfl

theorem attempt_of_error (h : s.assigned n v = .error f) : s.attempt n v = (.error f, s) := by
  simp only [attempt, set, h]
  rfl

theorem attempt_ok_iff : (s.attempt n v).1 = .ok () ↔ ∃ c, s.assigned n v = .ok c := by
  cases h : s.assigned n v with
  | ok c => simp [attempt_of_ok h]
  | error f => simp [attempt_of_error h]

theorem attempt_keeps (h : (s.attempt n v).1 ≠ .ok ()) : (s.attempt n v).2 = s := by
  cases hc : s.assigned n v with
  | ok c => simp [attempt_of_ok hc] at h
  | error f => rw [attempt_of_error hc]

/-! Locations. -/

theorem cell_put_of_ne {k l : Nat} (h : k ≠ l) (s : Store) (v : Value) :
    (s.put k v).cell l = s.cell l := by
  simp only [cell, put, Array.getD_eq_getD_getElem?, Array.getElem?_setIfInBounds_ne h]

theorem cell_put {k : Nat} (h : k < s.cells.size) (v : Value) : (s.put k v).cell k = v := by
  simp only [cell, put, Array.getD_eq_getD_getElem?, Array.getElem?_setIfInBounds_self_of_lt h,
    Option.getD_some]

theorem put_of_le {k : Nat} (h : s.cells.size ≤ k) (v : Value) : s.put k v = s := by
  simp only [put, Array.setIfInBounds_eq_of_size_le h]

theorem put_cell (s : Store) (k : Nat) : s.put k (s.cell k) = s := by
  by_cases h : k < s.cells.size
  · have there : s.cells[k]? = some (s.cell k) := by
      simp [cell, Array.getD_eq_getD_getElem?, Array.getElem?_eq_getElem h]
    simp only [put, setIfInBounds_getElem? there]
  · exact put_of_le (Nat.le_of_not_lt h) _

theorem put_put (s : Store) (k : Nat) (v w : Value) : (s.put k v).put k w = s.put k w := by
  simp [put]

theorem put_comm {k l : Nat} (h : k ≠ l) (s : Store) (v w : Value) :
    (s.put k v).put l w = (s.put l w).put k v := by
  simp only [put, Array.setIfInBounds_comm _ _ h]

/-! Names beside each other. -/

/-- An assignment to a name is not seen through a name beside it. -/
theorem get_attempt_of_beside (h : m.Beside n) (v : Value) : (s.attempt m v).2.get n = s.get n := by
  cases hc : s.assigned m v with
  | error f => rw [attempt_of_error hc]
  | ok c =>
    rw [attempt_of_ok hc, get, get]
    by_cases hcell : m.cell = n.cell
    · rcases Nat.lt_or_ge m.cell s.cells.size with hlt | hle
      · rw [← hcell, cell_put hlt]
        exact Value.read_write_of_beside (h.resolve_left (absurd hcell)) hc
      · rw [put_of_le hle]
    · rw [cell_put_of_ne hcell]

/-- What an assignment makes of the location of a name is the same behind one to a name beside it. -/
theorem assigned_put_of_beside (h : m.Beside n) {c : Value} (hc : s.assigned m v = .ok c) (w : Value) :
    (∀ u, s.assigned n w = .ok u → ∃ a b, (s.put m.cell c).assigned n w = .ok a ∧
      (s.put n.cell u).assigned m v = .ok b ∧
      (s.put m.cell c).put n.cell a = (s.put n.cell u).put m.cell b) ∧
    ∀ f, s.assigned n w = .error f → (s.put m.cell c).assigned n w = .error f := by
  simp only [assigned] at hc ⊢
  by_cases hcell : m.cell = n.cell
  · rcases Nat.lt_or_ge m.cell s.cells.size with hlt | hle
    · rw [hcell] at hc hlt ⊢
      obtain ⟨both, fails⟩ :=
        Value.write_write_of_beside (h.resolve_left (absurd hcell)) (b := w) hc
      simp only [cell_put hlt, put_put]
      refine ⟨fun u hu => ?_, fails⟩
      obtain ⟨z, hz, hz'⟩ := both u hu
      exact ⟨z, z, hz, hz', rfl⟩
    · -- there is no such location, so nothing is put there
      have hle' : s.cells.size ≤ n.cell := hcell ▸ hle
      rw [put_of_le hle]
      refine ⟨fun u hu => ⟨u, c, hu, ?_, ?_⟩, fun f hf => hf⟩
      · rw [put_of_le hle', hc]
      · rw [put_of_le hle', put_of_le hle]
  · simp only [cell_put_of_ne hcell, cell_put_of_ne (Ne.symm hcell)]
    exact ⟨fun u hu => ⟨u, c, hu, hc, put_comm hcell ..⟩, fun f hf => hf⟩

/-- Nor does it change how an assignment to that name ends. -/
theorem outcome_attempt_of_beside (h : m.Beside n) (v w : Value) :
    ((s.attempt m v).2.attempt n w).1 = (s.attempt n w).1 := by
  cases hc : s.assigned m v with
  | error f => rw [attempt_of_error hc]
  | ok c =>
    obtain ⟨both, fails⟩ := assigned_put_of_beside h hc w
    rw [attempt_of_ok hc]
    cases hu : s.assigned n w with
    | error f => rw [attempt_of_error hu, attempt_of_error (fails f hu)]
    | ok u =>
      obtain ⟨a, b, ha, -, -⟩ := both u hu
      rw [attempt_of_ok hu, attempt_of_ok ha]

/-- The order of two such assignments does not matter to the store. -/
theorem attempt_comm_of_beside (h : m.Beside n) (v w : Value) :
    ((s.attempt m v).2.attempt n w).2 = ((s.attempt n w).2.attempt m v).2 := by
  cases hc : s.assigned m v with
  | error f =>
    have still := outcome_attempt_of_beside (s := s) h.symm w v
    rw [attempt_of_error hc] at still ⊢
    exact (attempt_keeps (by simp [still])).symm
  | ok c =>
    cases hu : s.assigned n w with
    | error f =>
      have still := outcome_attempt_of_beside (s := s) h v w
      rw [attempt_of_error hu] at still ⊢
      exact attempt_keeps (by simp [still])
    | ok u =>
      obtain ⟨a, b, ha, hb, heq⟩ := (assigned_put_of_beside h hc w).1 u hu
      rw [attempt_of_ok hc, attempt_of_ok hu, attempt_of_ok ha, attempt_of_ok hb]
      exact heq

/-- Assignments to two names can be made in either order: they end alike and leave the same store. -/
structure Commute (s : Store) (m : Name) (v : Value) (n : Name) (w : Value) : Prop where
  left : ((s.attempt n w).2.attempt m v).1 = (s.attempt m v).1
  right : ((s.attempt m v).2.attempt n w).1 = (s.attempt n w).1
  store : ((s.attempt m v).2.attempt n w).2 = ((s.attempt n w).2.attempt m v).2

theorem Commute.of_beside (h : m.Beside n) (v w : Value) : s.Commute m v n w :=
  ⟨outcome_attempt_of_beside h.symm w v, outcome_attempt_of_beside h v w,
    attempt_comm_of_beside h v w⟩

end Store

/-- One of the names is that of a part of the other one. -/
def Name.Nested (m n : Name) : Prop :=
  m.cell = n.cell ∧ ∃ rest ≠ [], n.path = m.path ++ rest ∨ m.path = n.path ++ rest

theorem Name.beside_or_nested {m n : Name} (h : m ≠ n) : m.Beside n ∨ m.Nested n := by
  have strict {p q : List Step} (hpq : p <+: q) (hne : p ≠ q) : ∃ rest ≠ [], q = p ++ rest := by
    obtain ⟨rest, rfl⟩ := hpq
    exact ⟨rest, fun hr => hne (by simp [hr]), rfl⟩
  by_cases hcell : m.cell = n.cell
  · have hpath : m.path ≠ n.path := fun hp => h (by cases m; cases n; simp_all)
    by_cases hp : m.path <+: n.path
    · obtain ⟨rest, hr, he⟩ := strict hp hpath
      exact .inr ⟨hcell, rest, hr, .inl he⟩
    · by_cases hq : n.path <+: m.path
      · obtain ⟨rest, hr, he⟩ := strict hq (Ne.symm hpath)
        exact .inr ⟨hcell, rest, hr, .inr he⟩
      · exact .inl (.inr ⟨hp, hq⟩)
  · exact .inl (.inl hcell)

/-- Names obey the laws of a store. An assignment to a name goes through exactly where the name can be
read, and one that does not changes nothing. What was assigned is read, and to assign what is read
changes nothing. Beside a name, in its location or in another one, an assignment to it is not seen, and
assignments commute; so of names that are not identical only a name and that of one of its
parts can interfere. The machine assigns in this way. -/
theorem names_lawful (s : Store) (m n : Name) (v w : Value) :
    ((s.attempt m v).1 = .ok () ↔ ∃ x, s.get m = .ok x) ∧
    ((s.attempt m v).1 ≠ .ok () → (s.attempt m v).2 = s) ∧
    (∀ c, s.assigned m v = .ok c → c.read m.path = .ok v) ∧
    (m.cell < s.cells.size → (s.attempt m v).1 = .ok () → (s.attempt m v).2.get m = .ok v) ∧
    (s.get m = .ok v → s.attempt m v = (.ok (), s)) ∧
    (¬ m.path <+: n.path → ¬ n.path <+: m.path →
      (s.attempt m v).2.get n = s.get n ∧ s.Commute m v n w) ∧
    (m.cell ≠ n.cell → (s.attempt m v).2.get n = s.get n ∧ s.Commute m v n w) ∧
    (Exec.sameName (.name m) (.name n) = .ok false →
      (s.attempt m v).2.get n ≠ s.get n ∨ ¬ s.Commute m v n w → m.Nested n) ∧
    (∀ M : Machine, M.store = s → Exec.assign m v M =
      match s.attempt m v with
      | (.ok _, s') => .ok () { M with store := s' }
      | (.error f, _) => .error (.fault f) M) := by
  have beside (h : m.Beside n) : (s.attempt m v).2.get n = s.get n ∧ s.Commute m v n w :=
    ⟨Store.get_attempt_of_beside h v, .of_beside h v w⟩
  refine ⟨?_, Store.attempt_keeps, fun c => Value.read_write, fun hm hok => ?_, fun hg => ?_,
    fun hp hq => beside (.inr ⟨hp, hq⟩), fun hc => beside (.inl hc), fun hne meet => ?_, ?_⟩
  · rw [Store.attempt_ok_iff]
    exact Value.write_ok_iff v
  · obtain ⟨c, hc⟩ := Store.attempt_ok_iff.mp hok
    rw [Store.attempt_of_ok hc, Store.get, Store.cell_put hm]
    exact Value.read_write hc
  · have same : s.assigned m v = .ok (s.cell m.cell) := Value.write_read hg
    rw [Store.attempt_of_ok same, Store.put_cell]
  · have hne : m ≠ n := by simpa [Exec.sameName] using hne
    rcases Name.beside_or_nested hne with h | h
    · exact absurd meet (by simpa using beside h)
    · exact h
  · rintro M rfl
    cases hc : M.store.assigned m v with
    | ok c =>
      rw [Store.attempt_of_ok hc]
      exact Exec.eq_ok_of_wp (by simp [hc])
    | error f =>
      rw [Store.attempt_of_error hc]
      exact Exec.eq_error_of_wp (by simp [hc])

/-- A location that holds a structure of an integer and a row. -/
def pair : Store := ⟨#[.struct #[.int 1, .row ⟨[⟨1, 1⟩], #[.int 2]⟩]]⟩

/-- The fields of `pair` are beside each other; the row and its element are not. -/
theorem pair_lawful :
    (pair.attempt ⟨0, [.field 0]⟩ (.int 5)).2.get ⟨0, [.field 0]⟩ = .ok (.int 5) ∧
    pair.attempt ⟨0, [.field 0]⟩ (.int 1) = (.ok (), pair) ∧
    (pair.attempt ⟨0, [.field 2]⟩ .nil).2 = pair ∧
    pair.Commute ⟨0, [.field 0]⟩ (.int 5) ⟨0, [.field 1, .element 0]⟩ (.int 6) ∧
    (pair.attempt ⟨1, []⟩ .nil).2.get ⟨0, []⟩ = pair.get ⟨0, []⟩ ∧
    Name.Nested ⟨0, [.field 1]⟩ ⟨0, [.field 1, .element 0]⟩ ∧
    Exec.assign ⟨0, [.field 2]⟩ .nil
        ⟨#[], .standard #[], pair, .new 0, [], ⟨false, "", none⟩, none⟩ =
      .error (.fault (.of (.indexOutOfBounds 2 0 1)))
        ⟨#[], .standard #[], pair, .new 0, [], ⟨false, "", none⟩, none⟩ := by
  have fields := names_lawful pair ⟨0, [.field 0]⟩ ⟨0, [.field 1, .element 0]⟩ (.int 5) (.int 6)
  have same := names_lawful pair ⟨0, [.field 0]⟩ ⟨0, []⟩ (.int 1) .nil
  have absent := names_lawful pair ⟨0, [.field 2]⟩ ⟨0, []⟩ .nil .nil
  have elsewhere := names_lawful pair ⟨1, []⟩ ⟨0, []⟩ .nil .nil
  have nested := names_lawful pair ⟨0, [.field 1]⟩ ⟨0, [.field 1, .element 0]⟩ .nil .nil
  refine ⟨fields.2.2.2.1 (by decide) rfl, same.2.2.2.2.1 rfl, absent.2.1 nofun,
    (fields.2.2.2.2.2.1 (by decide) (by decide)).2, (elsewhere.2.2.2.2.2.2.1 (by decide)).1,
    nested.2.2.2.2.2.2.2.1 rfl (.inl nofun), absent.2.2.2.2.2.2.2.2 _ rfl⟩

end Algol68
