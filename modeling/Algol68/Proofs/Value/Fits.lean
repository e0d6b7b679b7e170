import Algol68.Machine.Task
import Algol68.Machine.Gather
import Algol68.Proofs.Row.Shape
import Algol68.Proofs.Value.Path
import Algol68.Value.Formula

/-! The rows and strings in a value. Each operation on values leaves well-formed rows well-formed, and none
but a display makes a row or a string that is larger than its operands and than the largest object that
may be made. -/

namespace Algol68

open Checked (Gives)

namespace Value

mutual

/-- The values that a value is made of, with the value itself. -/
def parts : Value → List Value
  | .row ⟨dims, ⟨vs⟩⟩ => .row ⟨dims, ⟨vs⟩⟩ :: partsOfAll vs
  | .struct ⟨vs⟩ => .struct ⟨vs⟩ :: partsOfAll vs
  | .union m v => .union m v :: parts v
  | v => [v]

def partsOfAll : List Value → List Value
  | [] => []
  | v :: vs => parts v ++ partsOfAll vs

end

/-- A row of at most `N` elements, a string of at most `N` characters, or a value of another kind. -/
def AtMost (N : ℕ∞) : Value → Prop
  | .row r => (r.size : ℕ∞) ≤ N
  | .string text => (text.length : ℕ∞) ≤ N
  | _ => True

/-- A row that is well-formed and has at most `N` elements, or a string of at most `N` characters. -/
def Sized (N : ℕ∞) : Value → Prop
  | .row r => Shaped N r.dims r.size
  | .string text => (text.length : ℕ∞) ≤ N
  | _ => True

/-- All rows and strings in a value are well-formed and have at most `N` elements. -/
def Fits (N : ℕ∞) (v : Value) : Prop := ∀ p ∈ v.parts, p.Sized N

variable {N : ℕ∞} {v : Value}

theorem atMost_top (v : Value) : v.AtMost ⊤ := by
  cases v with
  | row | string => exact le_top
  | _ => trivial

theorem Sized.atMost (h : v.Sized N) : v.AtMost N := by
  cases v with
  | row r => exact h.le
  | string text => exact h
  | _ => trivial

theorem partsOfAll_eq (vs : List Value) : partsOfAll vs = vs.flatMap parts := by
  induction vs with
  | nil => rfl
  | cons v vs ih => rw [partsOfAll, ih, List.flatMap_cons]

theorem fits_row {r : Row Value} : (Value.row r).Fits N ↔ r.Fits N (Fits N) := by
  obtain ⟨dims, ⟨vs⟩⟩ := r
  simp only [Fits, parts, partsOfAll_eq, List.mem_cons, List.mem_flatMap]
  constructor
  · intro h
    refine ⟨h _ (.inl rfl), fun v hv p hp => h p (.inr ⟨v, ?_, hp⟩)⟩
    simpa using hv
  · rintro h p (rfl | ⟨v, hv, hp⟩)
    · exact h.shaped
    · exact h.elements v (by simpa using hv) p hp

theorem fits_struct {vs : Array Value} : (Value.struct vs).Fits N ↔ ∀ v ∈ vs, v.Fits N := by
  obtain ⟨vs⟩ := vs
  simp only [Fits, parts, partsOfAll_eq, List.mem_cons, List.mem_flatMap, List.mem_toArray]
  constructor
  · exact fun h v hv p hp => h p (.inr ⟨v, hv, hp⟩)
  · rintro h p (rfl | ⟨v, hv, hp⟩)
    · trivial
    · exact h v hv p hp

theorem fits_union {m : ModeId} : (Value.union m v).Fits N ↔ v.Fits N := by
  constructor
  · exact fun h p hp => h p (List.mem_cons_of_mem _ hp)
  · intro h p hp
    rcases List.mem_cons.mp hp with rfl | hp
    · trivial
    · exact h p hp

/-- A value with no parts but itself. -/
theorem fits_iff_of_parts (h : v.parts = [v]) : v.Fits N ↔ v.Sized N := by
  rw [Fits, h]
  exact List.forall_mem_singleton

theorem fits_string {text : String} : (Value.string text).Fits N ↔ (text.length : ℕ∞) ≤ N :=
  fits_iff_of_parts rfl

theorem fits_of_parts (h : v.parts = [v]) (hs : v.Sized N) : v.Fits N := (fits_iff_of_parts h).mpr hs

@[simp] theorem fits_void : Value.void.Fits N := fits_of_parts rfl trivial

@[simp] theorem fits_int (n : Int64) : (Value.int n).Fits N := fits_of_parts rfl trivial

@[simp] theorem fits_real (x : Float) : (Value.real x).Fits N := fits_of_parts rfl trivial

@[simp] theorem fits_bool (b : Bool) : (Value.bool b).Fits N := fits_of_parts rfl trivial

@[simp] theorem fits_char (c : Char) : (Value.char c).Fits N := fits_of_parts rfl trivial

@[simp] theorem fits_format (text : String) : (Value.format text).Fits N := fits_of_parts rfl trivial

@[simp] theorem fits_nil : Value.nil.Fits N := fits_of_parts rfl trivial

@[simp] theorem fits_name (n : Name) : (Value.name n).Fits N := fits_of_parts rfl trivial

@[simp] theorem fits_procedure (p : Procedure) : (Value.procedure p).Fits N :=
  fits_of_parts rfl trivial

@[simp] theorem fits_undefined (m : ModeId) : (Value.undefined m).Fits N := fits_of_parts rfl trivial

theorem undefinedTo_fits (modes : ModeTable) (depth : Nat) (m : ModeId) :
    (undefinedTo modes depth m).Fits N := by
  induction depth generalizing m with
  | zero => exact fits_undefined m
  | succ depth ih =>
    rw [undefinedTo]
    split
    · refine fits_struct.mpr fun v hv => ?_
      obtain ⟨f, -, rfl⟩ := List.mem_map.mp (List.mem_toArray.mp hv)
      exact ih f.mode
    · exact fits_row.mpr (.empty _)
    · exact fits_void
    · exact fits_undefined m

theorem undefinedOf_fits (modes : ModeTable) (m : ModeId) : (undefinedOf modes m).Fits N :=
  undefinedTo_fits _ _ _

theorem characters_fits {text : List Char} (h : (text.length : ℕ∞) ≤ N) :
    (Row.vector (text.map Value.char).toArray).Fits N (Fits N) := by
  refine .vector (by simpa using h) fun v hv => ?_
  obtain ⟨c, -, rfl⟩ := List.mem_map.mp (List.mem_toArray.mp hv)
  exact fits_char c

theorem asRow_gives (h : v.Fits N) : Gives (Row.Fits N (Fits N)) v.asRow := by
  cases v with
  | row r => exact .ok (fits_row.mp h)
  | string text =>
    refine .ok (characters_fits ?_)
    rw [String.length_toList]
    exact fits_string.mp h
  | _ => exact .error _

/-! Parts of values. -/

theorem ofChars_fits {vs : Array Value} (h : (vs.size : ℕ∞) ≤ N) : (ofChars vs).Fits N := by
  refine fits_string.mpr (Shaped.le_of_le h ?_)
  simp only [String.length_ofList]
  exact List.length_filterMap_le ..

theorem sliceRow_gives {r : Row Value} (h : r.Fits N (Fits N)) (indexers : List Indexer) :
    Gives (Fits N) (sliceRow r indexers) := by
  rw [sliceRow]
  split
  · exact Gives.bind (P := fun _ => True) (fun _ _ => trivial) fun subscripts _ => h.select subscripts
  · exact (h.trim indexers).bind fun part hpart => .pure (fits_row.mpr hpart)

theorem stepInto_gives (h : v.Fits N) (s : Step) : Gives (Fits N) (v.stepInto s) := by
  cases v with
  | struct fields =>
    cases s with
    | field i =>
      simp only [stepInto]
      split
      · next w hw => exact .ok (fits_struct.mp h w (Array.mem_of_getElem? hw))
      · exact .mismatch _ _
    | element k => exact .error _
  | row r =>
    cases s with
    | field i => exact .error _
    | element k => exact (fits_row.mp h).elementAt k
  | _ => cases s <;> exact .error _

theorem read_gives (h : v.Fits N) (path : List Step) : Gives (Fits N) (v.read path) := by
  induction path generalizing v with
  | nil => exact .ok h
  | cons s path ih => exact (stepInto_gives h s).bind fun w hw => ih hw

theorem write_gives {new : Value} (hn : new.Fits N) (h : v.Fits N) (path : List Step) :
    Gives (Fits N) (write new v path) := by
  induction path generalizing v with
  | nil => exact .ok hn
  | cons s path ih =>
    cases v with
    | struct fields =>
      cases s with
      | field i =>
        simp only [write]
        split
        · next part hpart =>
          have old := fits_struct.mp h part (Array.mem_of_getElem? hpart)
          refine (ih old).bind fun w hw => .pure (fits_struct.mpr ?_)
          exact forall_mem_setIfInBounds (fits_struct.mp h) i hw
        · exact .fault _
      | element k => exact .error _
    | row r =>
      cases s with
      | field i => exact .error _
      | element k =>
        have hr := fits_row.mp h
        simp only [write]
        refine (hr.elementAt k).bind fun part hpart => ?_
        refine (ih hpart).bind fun w hw => .pure (fits_row.mpr ⟨?_, ?_⟩)
        · simpa [Row.size] using hr.shaped
        · exact forall_mem_setIfInBounds hr.elements k hw
    | _ => cases s <;> exact .error _

end Value

/-- All values in the locations of a run fit. -/
def Store.Fits (N : ℕ∞) (s : Store) : Prop := ∀ v ∈ s.cells, v.Fits N

namespace Store.Fits

variable {N : ℕ∞} {s : Store} {v : Value}

theorem cell (h : s.Fits N) (k : Nat) : (s.cell k).Fits N := by
  rw [Store.cell, Array.getD_eq_getD_getElem?]
  cases hk : s.cells[k]? with
  | none => exact Value.fits_void
  | some v => exact h v (Array.mem_of_getElem? hk)

theorem get (h : s.Fits N) (n : Name) : Gives (Value.Fits N) (s.get n) :=
  Value.read_gives (h.cell n.cell) n.path

theorem assigned (h : s.Fits N) (n : Name) (hv : v.Fits N) :
    Gives (Value.Fits N) (s.assigned n v) :=
  Value.write_gives hv (h.cell n.cell) n.path

theorem put (h : s.Fits N) (k : Nat) (hv : v.Fits N) : (s.put k v).Fits N :=
  forall_mem_setIfInBounds h k hv

theorem allocate (h : s.Fits N) (hv : v.Fits N) : (s.allocate v).2.Fits N := by
  intro w hw
  rcases Array.mem_push.mp hw with hw | rfl
  · exact h w hw
  · exact hv

end Store.Fits

namespace Value

variable {N : ℕ∞} {v : Value} {limit : Nat} {modes : ModeTable}

theorem slice_gives {s : Store} (hs : s.Fits N) (h : v.Fits N) (indexers : List Indexer) :
    Gives (Fits N) (slice s v indexers) := by
  cases v with
  | name n =>
    refine (hs.get n).bind fun w hw => (asRow_gives hw).bind fun r hr => ?_
    split
    · refine Gives.bind (P := fun _ => True) (fun _ _ => trivial) fun subscripts _ => ?_
      exact Gives.bind (P := fun _ => True) (fun _ _ => trivial) fun k _ => .pure (fits_name _)
    · exact (hr.trim indexers).bind fun part hpart => .pure (fits_row.mpr hpart)
  | string text =>
    refine (asRow_gives h).bind fun r hr => ?_
    split
    · exact sliceRow_gives hr indexers
    · exact (hr.trim indexers).bind fun part hpart => .pure (ofChars_fits hpart.shaped.le)
  | _ => exact (asRow_gives h).bind fun r hr => sliceRow_gives hr indexers

mutual

theorem field_gives (index : Nat) : ∀ {v : Value}, v.Fits N → Gives (Fits N) (v.field index)
  | .struct fields, h => by
    rw [field]
    split
    · next w hw => exact .ok (fits_struct.mp h w (Array.mem_of_getElem? hw))
    · exact .mismatch _ _
  | .name n, _ => .ok (fits_name _)
  | .row ⟨dims, ⟨vs⟩⟩, h => by
    have hr := fits_row.mp h
    rw [field]
    refine (fieldOfEach_gives index fun v hv => hr.elements v (by simpa using hv)).bind
      fun ws hws => .pure (fits_row.mpr ⟨?_, by simpa using hws.2⟩)
    have hshaped : Shaped N dims vs.length := hr.shaped
    rw [← hws.1] at hshaped
    exact hshaped
  | .nil, _ | .undefined _, _ | .void, _ | .int _, _ | .real _, _ | .bool _, _ | .char _, _
  | .string _, _ | .format _, _ | .union _ _, _ | .procedure _, _ => nofun

theorem fieldOfEach_gives (index : Nat) : ∀ {vs : List Value}, (∀ v ∈ vs, v.Fits N) →
    Gives (fun ws => ws.length = vs.length ∧ ∀ w ∈ ws, w.Fits N) (fieldOfEach index vs)
  | [], _ => .ok ⟨rfl, by simp⟩
  | v :: vs, h => by
    rw [fieldOfEach]
    refine (field_gives index (h v (List.mem_cons_self ..))).bind fun w hw => ?_
    refine (fieldOfEach_gives index fun v hv => h v (List.mem_cons_of_mem _ hv)).bind
      fun ws hws => .pure ⟨by simp [hws.1], ?_⟩
    exact List.forall_mem_cons.mpr ⟨hw, hws.2⟩

end

/-! Values made from other values. -/

theorem rowed_fits (h₁ : 1 ≤ N) (h : v.Fits N) (target : ModeId) : (rowed modes target v).Fits N := by
  have single : (Value.row (.vector #[v])).Fits N :=
    fits_row.mpr (.vector (by simpa using h₁) (by simpa using h))
  unfold rowed
  split
  · exact fits_string.mpr (by simpa using h₁)
  · split
    · exact fits_row.mpr (fits_row.mp h).enclose
    · exact single
  · exact single

theorem foldlM_volume {dims : List Bounds} {n count : Nat}
    (h : dims.foldlM (fun n b => if n * b.count ≤ maxCount then some (n * b.count) else none) n =
      some count) : count = n * volume dims := by
  induction dims generalizing n with
  | nil =>
    cases h
    rw [volume_nil, Nat.mul_one]
  | cons b dims ih =>
    rw [List.foldlM_cons] at h
    split at h
    · rw [ih h, volume_cons, Nat.mul_assoc]
    · cases h

theorem volume?_eq {dims : List Bounds} {count : Nat} (h : volume? dims = some count) :
    count = volume dims := by
  have hv := foldlM_volume h
  rwa [Nat.one_mul] at hv

theorem initial_gives (hl : (limit : ℕ∞) ≤ N) (mode : ModeId) (dims : List Bounds) :
    Gives (Fits N) (initial modes limit mode dims) := by
  unfold initial
  split
  · split
    · split
      · next count hc =>
        obtain ⟨hv, hle⟩ := Option.filter_eq_some_iff.mp hc
        have hle : count ≤ limit := by simpa using hle
        refine .ok (fits_row.mpr ⟨?_, fun w hw => ?_⟩)
        · refine .of_volume ?_ (Shaped.le_of_le hl ?_)
          · simpa [Row.size] using volume?_eq hv
          · simpa [Row.size] using hle
        · rw [Array.eq_of_mem_replicate hw]
          exact undefinedOf_fits _ _
      · exact .fault _
    · exact .ok (undefinedOf_fits _ _)
  · exact .ok (undefinedOf_fits _ _)

/-- Displays of well-formed rows are well-formed, but they may be larger than what they are made of. -/
theorem display_gives (mode : ModeId) {vs : List Value} (h : ∀ v ∈ vs, v.Fits N) :
    Gives (fun w => w.AtMost N → w.Fits N) (display modes mode vs) := by
  unfold display
  split
  · exact .ok fun _ => fits_struct.mpr (by simpa using h)
  · exact .ok fun hN => fits_row.mpr (.vector hN (by simpa using h))
  · have rows (v : Value) (hv : v.Fits N) : Gives (Row.Fits ⊤ (Fits N)) v.asRow :=
      (asRow_gives hv).mono fun _ hr => hr.top
    refine (Row.stack_fits _ rows h).bind fun r hr => .pure fun hN => fits_row.mpr ?_
    exact ⟨hr.shaped.of_le hN, hr.elements⟩
  · exact Gives.bind (P := fun _ => True) (fun _ _ => trivial) fun text _ => .pure fits_string.mpr
  · split
    · next v => exact .ok fun _ => h v (by simp)
    · exact .mismatch _ _

end Value

namespace StandardOperator

open Value (Fits)

variable {N : ℕ∞} {limit : Nat} {op : StandardOperator} {v w : Value}

theorem checked_gives (result : Int) : Gives (Fits N) (op.checked result) := by
  rw [checked]
  split
  · exact .ok (Value.fits_int _)
  · exact .fault _

theorem intPower_gives (a b : Int) : Gives (Fits N) (op.intPower a b) := by
  rw [intPower]
  split
  · exact .fault _
  · split
    · exact checked_gives _
    · split
      · exact .fault _
      · exact checked_gives _

theorem onInts_gives (a b : Int64) : Gives (Fits N) (op.onInts a b) := by
  have divided {x : Checked Value} (hx : Gives (Fits N) x) :
      Gives (Fits N) (if b = 0 then fault .divisionByZero else x) := by
    split
    · exact .fault _
    · exact hx
  cases op with
  | add | sub | mul => exact checked_gives _
  | «over» => exact divided (checked_gives _)
  | mod =>
    refine divided ?_
    split
    · exact .fault _
    · exact checked_gives _
  | div => exact divided (.ok (Value.fits_real _))
  | pow =>
    simp only [onInts]
    split
    · exact .fault _
    · exact intPower_gives _ _
  | _ =>
    simp only [onInts]
    split
    · exact .ok (Value.fits_bool _)
    · exact .mismatch _ _

theorem onReals_gives (x y : Float) : Gives (Fits N) (op.onReals x y) := by
  cases op with
  | add | sub | mul | pow => exact .ok (Value.fits_real _)
  | div =>
    simp only [onReals]
    split
    · exact .fault _
    · exact .ok (Value.fits_real _)
  | _ =>
    simp only [onReals]
    split
    · exact .ok (Value.fits_bool _)
    · exact .mismatch _ _

theorem onBools_gives (a b : Bool) : Gives (Fits N) (op.onBools a b) := by
  cases op with
  | and | or | eq | ne => exact .ok (Value.fits_bool _)
  | _ => exact .mismatch _ _

theorem sized_gives (hl : (limit : ℕ∞) ≤ N) (text : List Char) : Gives (Fits N) (sized limit text) := by
  rw [sized]
  split
  · next h =>
    refine .ok (Value.fits_string.mpr (Shaped.le_of_le hl ?_))
    simpa using h
  · exact .fault _

theorem replicate_gives (hl : (limit : ℕ∞) ≤ N) (text : List Char) (times : Int64) :
    Gives (Fits N) (replicate limit text times) := by
  simp only [replicate]
  split
  · next h =>
    refine .ok (Value.fits_string.mpr (Shaped.le_of_le hl ?_))
    rw [String.length_ofList]
    split
    · exact Nat.zero_le _
    · simpa [Nat.mul_comm] using h
  · exact .fault _

theorem onOthers_gives (hl : (limit : ℕ∞) ≤ N) (v w : Value) :
    Gives (Fits N) (op.onOthers limit v w) := by
  rw [onOthers]
  split
  · next s t _ _ =>
    unfold onTexts
    split
    · exact sized_gives hl _
    · exact sized_gives hl _
    · split
      · exact .ok (Value.fits_bool _)
      · exact .mismatch _ _
  · exact .mismatch _ _

theorem onRow_gives (d : Int64) (h : v.Fits N) : Gives (Fits N) (op.onRow d v) := by
  refine (Value.asRow_gives h).bind fun r hr => ?_
  split
  · exact hr.select _
  · split
    · exact .pure (Value.fits_int _)
    · exact .fault _

/-- The only large objects that operators make are strings, and these are limited. -/
theorem dyadic_gives (hl : (limit : ℕ∞) ≤ N) (hv : v.Fits N) (hw : w.Fits N) :
    Gives (Fits N) (op.dyadic limit v w) := by
  unfold dyadic
  split
  · exact onInts_gives _ _
  · exact onReals_gives _ _
  · exact onReals_gives _ _
  · split
    · exact .ok (Value.fits_real _)
    · exact onReals_gives _ _
  · exact onBools_gives _ _
  · split
    · exact onRow_gives _ hw
    · split
      · exact replicate_gives hl _ _
      · exact onOthers_gives hl _ _
  · split
    · exact replicate_gives hl _ _
    · exact onOthers_gives hl _ _
  · exact onOthers_gives hl _ _

theorem monadic_gives (hv : v.Fits N) : Gives (Fits N) (op.monadic v) := by
  unfold monadic
  split
  · exact checked_gives _
  · exact .ok (Value.fits_real _)
  · exact .ok (Value.fits_int _)
  · exact .ok (Value.fits_real _)
  · exact checked_gives _
  · exact .ok (Value.fits_real _)
  · exact .ok (Value.fits_int _)
  · exact .ok (Value.fits_int _)
  · exact .ok (Value.fits_bool _)
  · exact onRow_gives _ hv
  · exact onRow_gives _ hv
  · exact .mismatch _ _

end StandardOperator

end Algol68
