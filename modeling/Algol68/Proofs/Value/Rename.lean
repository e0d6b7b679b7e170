import Algol68.Value.Display
import Algol68.Value.Formula
import Algol68.Value.Parts

/-! Renaming the procedures in values. No operation on values looks into a procedure, so each gives
the renamed result for renamed operands. What holds of all procedures in the operands then holds of
those in the result: a renaming that only changes other procedures leaves it alone. -/

namespace Algol68

namespace Row

variable {α β : Type}

/-- The row with every element replaced. -/
def map (f : α → β) (r : Row α) : Row β := ⟨r.dims, r.elements.map f⟩

@[simp] theorem map_dims (f : α → β) (r : Row α) : (r.map f).dims = r.dims := rfl

@[simp] theorem map_elements (f : α → β) (r : Row α) : (r.map f).elements = r.elements.map f := rfl

@[simp] theorem map_vector (f : α → β) (xs : Array α) :
    (vector xs).map f = vector (xs.map f) := by
  simp [map, vector]

@[simp] theorem map_empty (f : α → β) (dims : Nat) : (empty dims).map f = empty dims := by
  simp [map, empty]

@[simp] theorem map_enclose (f : α → β) (r : Row α) : r.enclose.map f = (r.map f).enclose := rfl

end Row

namespace Value

mutual

/-- The value with every procedure in it replaced. -/
def rename (ρ : Procedure → Procedure) : Value → Value
  | .row ⟨dims, ⟨vs⟩⟩ => .row ⟨dims, ⟨renameAll ρ vs⟩⟩
  | .struct ⟨vs⟩ => .struct ⟨renameAll ρ vs⟩
  | .union m v => .union m (rename ρ v)
  | .procedure p => .procedure (ρ p)
  | v => v

def renameAll (ρ : Procedure → Procedure) : List Value → List Value
  | [] => []
  | v :: vs => rename ρ v :: renameAll ρ vs

end

mutual

/-- The procedures in a value. -/
def procedures : Value → List Procedure
  | .row ⟨_, ⟨vs⟩⟩ => proceduresOfAll vs
  | .struct ⟨vs⟩ => proceduresOfAll vs
  | .union _ v => procedures v
  | .procedure p => [p]
  | _ => []

def proceduresOfAll : List Value → List Procedure
  | [] => []
  | v :: vs => procedures v ++ proceduresOfAll vs

end

variable {ρ σ : Procedure → Procedure}

theorem renameAll_eq (vs : List Value) : renameAll ρ vs = vs.map (rename ρ) := by
  induction vs with
  | nil => rfl
  | cons v vs ih => rw [renameAll, ih, List.map_cons]

@[simp] theorem rename_row (r : Row Value) : (Value.row r).rename ρ = .row (r.map (rename ρ)) := by
  obtain ⟨dims, ⟨vs⟩⟩ := r
  simp [rename, renameAll_eq, Row.map]

@[simp] theorem rename_struct (vs : Array Value) :
    (Value.struct vs).rename ρ = .struct (vs.map (rename ρ)) := by
  obtain ⟨vs⟩ := vs
  simp [rename, renameAll_eq]

@[simp] theorem rename_void : Value.void.rename ρ = .void := rfl

@[simp] theorem rename_int (n : Int64) : (Value.int n).rename ρ = .int n := rfl

@[simp] theorem rename_real (x : Float) : (Value.real x).rename ρ = .real x := rfl

@[simp] theorem rename_bool (b : Bool) : (Value.bool b).rename ρ = .bool b := rfl

@[simp] theorem rename_char (c : Char) : (Value.char c).rename ρ = .char c := rfl

@[simp] theorem rename_string (text : String) : (Value.string text).rename ρ = .string text := rfl

@[simp] theorem rename_format (text : String) : (Value.format text).rename ρ = .format text := rfl

@[simp] theorem rename_nil : Value.nil.rename ρ = .nil := rfl

@[simp] theorem rename_name (n : Name) : (Value.name n).rename ρ = .name n := rfl

@[simp] theorem rename_undefined (m : ModeId) : (Value.undefined m).rename ρ = .undefined m := rfl

@[simp] theorem rename_union (m : ModeId) (v : Value) :
    (Value.union m v).rename ρ = .union m (v.rename ρ) := rfl

@[simp] theorem rename_procedure (p : Procedure) :
    (Value.procedure p).rename ρ = .procedure (ρ p) := rfl

mutual

theorem procedures_rename : ∀ v : Value, (v.rename ρ).procedures = v.procedures.map ρ
  | .row ⟨_, ⟨vs⟩⟩ => by
    rw [rename, procedures, procedures, proceduresOfAll_rename vs]
  | .struct ⟨vs⟩ => by
    rw [rename, procedures, procedures, proceduresOfAll_rename vs]
  | .union _ v => by
    rw [rename, procedures, procedures, procedures_rename v]
  | .procedure _ => rfl
  | .void | .int _ | .real _ | .bool _ | .char _ | .string _ | .format _ | .nil | .name _
  | .undefined _ => rfl

theorem proceduresOfAll_rename : ∀ vs : List Value,
    proceduresOfAll (renameAll ρ vs) = (proceduresOfAll vs).map ρ
  | [] => rfl
  | v :: vs => by
    rw [renameAll, proceduresOfAll, proceduresOfAll, List.map_append, procedures_rename v,
      proceduresOfAll_rename vs]

end

mutual

/-- Renamings that agree on the procedures in a value rename it alike. -/
theorem rename_congr : ∀ {v : Value}, (∀ p ∈ v.procedures, ρ p = σ p) → v.rename ρ = v.rename σ
  | .row ⟨_, ⟨vs⟩⟩, h => by
    rw [rename, rename, @renameAll_congr vs h]
  | .struct ⟨vs⟩, h => by
    rw [rename, rename, @renameAll_congr vs h]
  | .union _ v, h => by
    rw [rename, rename, rename_congr (v := v) h]
  | .procedure p, h => by
    rw [rename, rename, h p (List.mem_singleton_self p)]
  | .void, _ | .int _, _ | .real _, _ | .bool _, _ | .char _, _ | .string _, _ | .format _, _
  | .nil, _ | .name _, _ | .undefined _, _ => rfl

theorem renameAll_congr : ∀ {vs : List Value}, (∀ p ∈ proceduresOfAll vs, ρ p = σ p) →
    renameAll ρ vs = renameAll σ vs
  | [], _ => rfl
  | v :: vs, h => by
    have hv : v.rename ρ = v.rename σ :=
      rename_congr fun p hp => h p (List.mem_append_left _ hp)
    have hvs : renameAll ρ vs = renameAll σ vs :=
      renameAll_congr fun p hp => h p (List.mem_append_right _ hp)
    rw [renameAll, renameAll, hv, hvs]

end

mutual

theorem rename_id : ∀ v : Value, v.rename id = v
  | .row ⟨_, ⟨vs⟩⟩ | .struct ⟨vs⟩ => by rw [rename, renameAll_id vs]
  | .union _ v => by rw [rename, rename_id v]
  | .void | .int _ | .real _ | .bool _ | .char _ | .string _ | .format _ | .nil | .name _
  | .procedure _ | .undefined _ => rfl

theorem renameAll_id : ∀ vs : List Value, renameAll id vs = vs
  | [] => rfl
  | v :: vs => by rw [renameAll, rename_id v, renameAll_id vs]

end

mutual

theorem rename_rename (ρ σ : Procedure → Procedure) : ∀ v : Value,
    (v.rename ρ).rename σ = v.rename (σ ∘ ρ)
  | .row ⟨_, ⟨vs⟩⟩ | .struct ⟨vs⟩ => by
    rw [rename, rename, rename, renameAll_renameAll ρ σ vs]
  | .union _ v => by rw [rename, rename, rename, rename_rename ρ σ v]
  | .void | .int _ | .real _ | .bool _ | .char _ | .string _ | .format _ | .nil | .name _
  | .procedure _ | .undefined _ => rfl

theorem renameAll_renameAll (ρ σ : Procedure → Procedure) : ∀ vs : List Value,
    renameAll σ (renameAll ρ vs) = renameAll (σ ∘ ρ) vs
  | [] => rfl
  | v :: vs => by
    rw [renameAll, renameAll, renameAll, rename_rename ρ σ v, renameAll_renameAll ρ σ vs]

end

/-- Every procedure in the value has a property. -/
def Within (R : Procedure → Prop) (v : Value) : Prop := ∀ p ∈ v.procedures, R p

/-- The renaming that puts `print` in place of every procedure without a property. -/
noncomputable def restrict (R : Procedure → Prop) (p : Procedure) : Procedure :=
  open Classical in if R p then p else .standard .print

variable {R : Procedure → Prop}

theorem within_iff (hR : R (.standard .print)) {v : Value} :
    v.Within R ↔ v.rename (restrict R) = v := by
  have fixed (p : Procedure) : R p ↔ restrict R p = p := by
    unfold restrict
    by_cases h : R p
    · simp [h]
    · simp only [h, if_false, false_iff]
      rintro rfl
      exact h hR
  constructor
  · intro h
    calc v.rename (restrict R) = v.rename id := rename_congr fun p hp => (fixed p).mp (h p hp)
      _ = v := rename_id v
  · intro h p hp
    have hs := procedures_rename (ρ := restrict R) v
    rw [h] at hs
    obtain ⟨k, hk, rfl⟩ := List.mem_iff_getElem.mp hp
    rw [fixed]
    have := congrArg (·[k]?) hs
    simpa [hk] using this.symm

theorem proceduresOfAll_eq (vs : List Value) : proceduresOfAll vs = vs.flatMap procedures := by
  induction vs with
  | nil => rfl
  | cons v vs ih => rw [proceduresOfAll, ih, List.flatMap_cons]

theorem within_row {r : Row Value} : (Value.row r).Within R ↔ ∀ v ∈ r.elements, v.Within R := by
  obtain ⟨dims, ⟨vs⟩⟩ := r
  simp only [Within, procedures, proceduresOfAll_eq, List.mem_flatMap, List.mem_toArray]
  exact ⟨fun h v hv p hp => h p ⟨v, hv, hp⟩, fun h p ⟨v, hv, hp⟩ => h v hv p hp⟩

theorem within_struct {vs : Array Value} :
    (Value.struct vs).Within R ↔ ∀ v ∈ vs, v.Within R := by
  obtain ⟨vs⟩ := vs
  simp only [Within, procedures, proceduresOfAll_eq, List.mem_flatMap, List.mem_toArray]
  exact ⟨fun h v hv p hp => h p ⟨v, hv, hp⟩, fun h p ⟨v, hv, hp⟩ => h v hv p hp⟩

theorem within_union {variant : ModeId} {v : Value} :
    (Value.union variant v).Within R ↔ v.Within R := Iff.rfl

theorem within_procedure {p : Procedure} : (Value.procedure p).Within R ↔ R p := by
  simp [Within, procedures]

theorem Within.mono {S : Procedure → Prop} {v : Value} (h : v.Within R) (hs : ∀ p, R p → S p) :
    v.Within S :=
  fun p hp => hs p (h p hp)

end Value

end Algol68
