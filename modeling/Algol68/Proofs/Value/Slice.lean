import Algol68.Proofs.Value.Path
import Algol68.Value.Parts

/-! Slices through names and slices of values. For rows the two agree; for strings they do not: a
name has no part that is a character, and what a trimmer leaves of a string is a string only where
the string itself was sliced. -/

namespace Algol68

namespace Bounds

theorem offset_lt {b : Bounds} {i : Int64} (h : b.contains i = true) :
    (i.toInt - b.lower.toInt).toNat < b.extent := by
  simp only [contains, Bool.and_eq_true, decide_eq_true_eq, Int64.le_iff_toInt_le] at h
  simp only [extent]
  omega

end Bounds

namespace Row

variable {α : Type}

/-- A row with one element for every full subscript, and no more than can be counted. -/
structure Full (r : Row α) : Prop where
  size : r.size = volume r.dims
  counted : r.size < maxCount

/-- A full subscript within the bounds has its position among those of the elements. -/
theorem positionIn_lt {dims : List Bounds} {subscripts : List Int64} {k : Nat}
    (h : positionIn dims subscripts = .ok k) (hl : subscripts.length = dims.length)
    (hc : volume dims < maxCount) : k < volume dims := by
  induction dims generalizing subscripts k with
  | nil =>
    cases h
    exact Nat.one_pos
  | cons b dims ih =>
    cases subscripts with
    | nil => cases hl
    | cons i subscripts =>
      simp only [positionIn] at h
      split at h
      · next hi =>
        cases hr : positionIn dims subscripts with
        | error f =>
          rw [hr] at h
          cases h
        | ok rest =>
          rw [hr] at h
          have hk : k = (i.toInt - b.lower.toInt).toNat * volume dims + rest :=
            (Except.ok.inj h).symm
          have hv : volume (b :: dims) = b.count * volume dims := rfl
          have hoff := Bounds.offset_lt hi
          have hcount : 0 < b.count := by
            simp only [Bounds.count, maxCount]
            omega
          have hle : volume dims ≤ volume (b :: dims) := by
            rw [hv]
            exact Nat.le_mul_of_pos_left _ hcount
          have hrest : rest < volume dims :=
            ih hr (Nat.succ.inj hl) (Nat.lt_of_le_of_lt hle hc)
          have hb : b.count ≤ volume (b :: dims) := by
            rw [hv]
            exact Nat.le_mul_of_pos_right _ (Nat.zero_lt_of_lt hrest)
          -- the count is the extent, since it is below the greatest one
          have hextent : b.count = b.extent := by
            simp only [Bounds.count] at hb ⊢
            omega
          calc k < ((i.toInt - b.lower.toInt).toNat + 1) * volume dims := by
                rw [hk, Nat.succ_mul]
                omega
            _ ≤ b.count * volume dims := by
                apply Nat.mul_le_mul_right
                omega
      · cases h

theorem position_lt {r : Row α} (full : r.Full) {indexers : List Indexer}
    {subscripts : List Int64} {k : Nat} (hs : r.subscripts indexers = .ok subscripts)
    (hk : r.position subscripts = .ok k) : k < r.size := by
  have hl : subscripts.length = r.dims.length := by
    simp only [Row.subscripts] at hs
    split at hs
    · next h =>
      cases hs
      rw [List.length_map]
      exact h
    · cases hs
  rw [full.size]
  exact positionIn_lt hk hl (full.size ▸ full.counted)

end Row

namespace Value

variable {s : Store} {n : Name} {r : Row Value} {text : String} {indexers : List Indexer}

/-- The value itself, or what it refers to if it is a name. -/
def referent (s : Store) : Value → Checked Value
  | .name n => s.get n
  | v => .ok v

/-- The characters of a string as a row. -/
def characters (text : String) : Row Value := .vector (text.toList.map Value.char).toArray

theorem slice_row (s : Store) (r : Row Value) (indexers : List Indexer) :
    slice s (.row r) indexers = sliceRow r indexers := rfl

theorem slice_name_of_row (h : s.get n = .ok (.row r)) :
    slice s (.name n) indexers =
      if indexers.all Indexer.isSubscript then do
        return .name (n.element (← r.position (← r.subscripts indexers)))
      else do return .row (← r.trim indexers) := by
  simp only [slice, h, asRow]
  rfl

theorem slice_name_of_string (h : s.get n = .ok (.string text)) :
    slice s (.name n) indexers =
      if indexers.all Indexer.isSubscript then do
        return .name (n.element
          (← (characters text).position (← (characters text).subscripts indexers)))
      else do return .row (← (characters text).trim indexers) := by
  simp only [slice, h, asRow]
  rfl

/-- A part of the name of a row is read where the row has its element. -/
theorem get_element (h : s.get n = .ok (.row r)) (k : Nat) :
    s.get (n.element k) = r.elementAt k := by
  rw [Name.element, Store.get_extend, h]
  rfl

/-- Reading what a slice of the name of a row gives is slicing the row. -/
theorem slice_name_referent (h : s.get n = .ok (.row r)) :
    (slice s (.name n) indexers >>= referent s) = slice s (.row r) indexers := by
  rw [slice_name_of_row h, slice_row, sliceRow]
  split
  · cases r.subscripts indexers with
    | error f => rfl
    | ok subscripts =>
      change ((r.position subscripts >>= fun k => pure (Value.name (n.element k))) >>= referent s)
        = (r.position subscripts >>= r.elementAt)
      cases r.position subscripts with
      | error f => rfl
      | ok k => exact get_element h k
  · cases r.trim indexers <;> rfl

theorem elementAt_of_lt {k : Nat} (hk : k < r.size) : r.elementAt k = .ok r.elements[k] := by
  have there : r.elements[k]? = some r.elements[k] := Array.getElem?_eq_getElem hk
  rw [Row.elementAt, there]

/-- The faults of the two routes are the same: that of a slice of a name is never one of reading the
element it names. -/
theorem slice_name_fault_iff (h : s.get n = .ok (.row r)) (full : r.Full) (f : Fault) :
    slice s (.name n) indexers = .error f ↔ slice s (.row r) indexers = .error f := by
  rw [slice_name_of_row h, slice_row, sliceRow]
  split
  · cases hs : r.subscripts indexers with
    | error g => exact Iff.rfl
    | ok subscripts =>
      change (r.position subscripts >>= fun k => pure (Value.name (n.element k))) = _ ↔
        (r.position subscripts >>= r.elementAt) = _
      cases hp : r.position subscripts with
      | error g => exact Iff.rfl
      | ok k =>
        have there := elementAt_of_lt (Row.position_lt full hs hp)
        change Except.ok _ = _ ↔ r.elementAt k = _
        rw [there]
        constructor <;> intro absurd <;> cases absurd
  · exact Iff.rfl

/-- A slice by subscripts names one of the elements. -/
theorem slice_name_element (h : s.get n = .ok (.row r)) (full : r.Full)
    (hix : indexers.all Indexer.isSubscript = true) {v : Value}
    (hv : slice s (.name n) indexers = .ok v) : ∃ k < r.size, v = .name (n.element k) := by
  rw [slice_name_of_row h, if_pos hix] at hv
  cases hs : r.subscripts indexers with
  | error g =>
    rw [hs] at hv
    cases hv
  | ok subscripts =>
    rw [hs] at hv
    change (r.position subscripts >>= fun k => pure (Value.name (n.element k))) = _ at hv
    cases hp : r.position subscripts with
    | error g =>
      rw [hp] at hv
      cases hv
    | ok k =>
      rw [hp] at hv
      cases hv
      exact ⟨k, Row.position_lt full hs hp, rfl⟩

theorem get_element_of_string (h : s.get n = .ok (.string text)) (k : Nat) :
    s.get (n.element k) = mismatch "structure or row" (.string text) := by
  rw [Name.element, Store.get_extend, h]
  rfl

theorem set_element_of_string (h : s.get n = .ok (.string text)) (k : Nat) (new : Value) :
    s.set (n.element k) new = mismatch "structure or row" (.string text) := by
  rw [Name.element, Store.set_extend new _ h]
  rfl

end Value

open Value in
/-- Slicing through the name of a row is slicing the row: the two routes have the same faults, what
a name gives reads as what the row gives, and an assignment to an element it names assigns the row
with just that element replaced. Through the name of a string the subscripts are checked as they
are for the string, but the name they give can neither be read nor assigned to; and a trimmer leaves
the row of the characters of which the string itself leaves a string. -/
theorem slice_through_name (s : Store) (n : Name) (indexers : List Indexer) :
    (∀ r : Row Value, s.get n = .ok (.row r) →
      (slice s (.name n) indexers >>= referent s) = slice s (.row r) indexers ∧
      (r.Full → ∀ f,
        slice s (.name n) indexers = .error f ↔ slice s (.row r) indexers = .error f) ∧
      (r.Full → indexers.all Indexer.isSubscript = true →
        ∀ v, slice s (.name n) indexers = .ok v → ∃ k < r.size, v = .name (n.element k) ∧
          ∀ new, ∃ s', s.set (n.element k) new = .ok s' ∧ s'.get (n.element k) = .ok new ∧
            s.set n (.row ⟨r.dims, r.elements.setIfInBounds k new⟩) = .ok s')) ∧
    (∀ text, s.get n = .ok (.string text) →
      (indexers.all Indexer.isSubscript = true → ∃ position : Checked Nat,
        slice s (.name n) indexers = (do return .name (n.element (← position))) ∧
        slice s (.string text) indexers = (do (characters text).elementAt (← position)) ∧
        ∀ k, s.get (n.element k) = mismatch "structure or row" (.string text) ∧
          ∀ new, s.set (n.element k) new = mismatch "structure or row" (.string text)) ∧
      (indexers.all Indexer.isSubscript = false → ∃ part : Checked (Row Value),
        slice s (.name n) indexers = (do return .row (← part)) ∧
        slice s (.string text) indexers = (do return ofChars (← part).elements))) := by
  constructor
  · intro r h
    refine ⟨slice_name_referent h, fun full f => slice_name_fault_iff h full f, ?_⟩
    intro full hix v hv
    obtain ⟨k, hk, rfl⟩ := slice_name_element h full hix hv
    refine ⟨k, hk, rfl, fun new => ?_⟩
    have whole := Store.set_element new h hk
    obtain ⟨s', hs', hget⟩ :=
      Store.set_of_get (.row ⟨r.dims, r.elements.setIfInBounds k new⟩) h (by simp)
    refine ⟨s', whole ▸ hs', ?_, hs'⟩
    rw [get_element hget, Row.elementAt, Array.getElem?_setIfInBounds_self_of_lt hk]
  · intro text h
    constructor
    · intro hix
      refine ⟨do (characters text).position (← (characters text).subscripts indexers), ?_, ?_, ?_⟩
      · rw [slice_name_of_string h, if_pos hix]
        cases (characters text).subscripts indexers <;> rfl
      · simp only [slice, asRow, sliceRow, hix, if_true]
        change (do (characters text).select (← (characters text).subscripts indexers)) = _
        cases (characters text).subscripts indexers <;> rfl
      · exact fun k => ⟨get_element_of_string h k, set_element_of_string h k⟩
    · intro hix
      refine ⟨(characters text).trim indexers, ?_, ?_⟩
      · rw [slice_name_of_string h, if_neg (by simp [hix])]
      · simp only [slice, asRow, hix]
        rfl

/-- A store of a row and a string, in this order. -/
def twoKinds : Store := ⟨#[.row ⟨[⟨1, 2⟩], #[.int 7, .int 8]⟩, .string "ab"]⟩

theorem slice_through_twoKinds :
    (∀ f, Value.slice twoKinds (.name ⟨0, []⟩) [.at 3] = .error f ↔
      Value.slice twoKinds (.row ⟨[⟨1, 2⟩], #[.int 7, .int 8]⟩) [.at 3] = .error f) ∧
    ∃ s', twoKinds.set ⟨0, [.element 1]⟩ (.int 9) = .ok s' ∧
      s'.get ⟨0, [.element 1]⟩ = .ok (.int 9) := by
  have rows : twoKinds.get ⟨0, []⟩ = .ok (.row ⟨[⟨1, 2⟩], #[.int 7, .int 8]⟩) := rfl
  have full : Row.Full (⟨[⟨1, 2⟩], #[.int 7, .int 8]⟩ : Row Value) := ⟨rfl, by decide⟩
  constructor
  · exact ((slice_through_name twoKinds ⟨0, []⟩ [.at 3]).1 _ rows).2.1 full
  · obtain ⟨k, -, hk, assigned⟩ :=
      ((slice_through_name twoKinds ⟨0, []⟩ [.at 2]).1 _ rows).2.2 full rfl (.name ⟨0, [.element 1]⟩) rfl
    obtain ⟨s', hs', hget, -⟩ := assigned (.int 9)
    cases hk
    exact ⟨s', hs', hget⟩

/-- The first character of the string is reached by slicing the string, but not by reading what a
slice of its name gives; and only the string's own slice is a string. -/
theorem string_parts_through_name :
    Value.slice twoKinds (.name ⟨1, []⟩) [.at 1] = .ok (.name ⟨1, [.element 0]⟩) ∧
    twoKinds.get ⟨1, [.element 0]⟩ = fault (.valueMismatch "structure or row" .string) ∧
    Value.slice twoKinds (.string "ab") [.at 1] = .ok (.char 'a') ∧
    Value.slice twoKinds (.name ⟨1, []⟩) [.trim none none] =
      .ok (.row ⟨[⟨1, 2⟩], #[.char 'a', .char 'b']⟩) ∧
    Value.slice twoKinds (.string "ab") [.trim none none] = .ok (.string "ab") :=
  ⟨rfl, rfl, rfl, rfl, rfl⟩

end Algol68
