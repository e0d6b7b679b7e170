import Algol68.Machine.Unit

/-! The faults of operations on values and on locals. Operations on values speak of the values
alone: never of the expression stack, of frames, of locals or of the tree. A local is not found only
for want of a frame or of the local in it. -/

namespace Algol68

/-- Whether an operation on values may fail for this reason. -/
def Cause.ordinary : Cause → Bool
  | .valueMismatch expected _ => expected != "local"
  | .integerOverflow _ | .divisionByZero | .negativeExponent _ | .indexOutOfBounds ..
  | .dimensionMismatch .. | .raggedDisplay | .undefinedValue _ | .nilAccess | .objectTooLarge _ =>
    true
  | .unknownNodeKind _ | .missingFrame _ | .stackImbalance .. | .stackUnderflow | .danglingJump _
  | .assertionFailed | .scopeViolation | .unmatchedConformity | .expressionStackOverflow _
  | .frameDepthExceeded _ => false

/-- The operation fails for no reason other than its values, with nothing to say but the reason. -/
def Ordinary {α : Type} (c : Checked α) : Prop :=
  ∀ f, c = .error f → ∃ k : Cause, f = .of k ∧ k.ordinary = true

namespace Ordinary

variable {α β : Type}

@[simp] theorem ok (a : α) : Ordinary (.ok a : Checked α) := fun _ h => nomatch h

@[simp] theorem pure (a : α) : Ordinary (Pure.pure a : Checked α) := ok a

@[simp] theorem fault_iff (c : Cause) : Ordinary (fault c : Checked α) ↔ c.ordinary = true := by
  constructor
  · intro h
    obtain ⟨k, hk, ho⟩ := h _ rfl
    cases hk
    exact ho
  · rintro h f ⟨⟩
    exact ⟨c, rfl, h⟩

theorem cause {c : Checked α} (h : Ordinary c) {f : Fault} (hf : c = .error f) :
    f.cause.ordinary = true := by
  obtain ⟨k, rfl, hk⟩ := h f hf
  exact hk

@[simp] theorem mismatch_iff (expected : String) (v : Value) :
    Ordinary (Value.mismatch expected v : Checked α) ↔ expected ≠ "local" := by
  simp [Value.mismatch, Cause.ordinary]

theorem bind {x : Checked α} {f : α → Checked β} (hx : Ordinary x) (hf : ∀ a, Ordinary (f a)) :
    Ordinary (x >>= f) := by
  cases x with
  | error e => exact fun g h => hx g (congrArg Except.error (Except.error.inj h))
  | ok a => exact hf a

theorem map {x : Checked α} (hx : Ordinary x) (f : α → β) : Ordinary (f <$> x) := by
  cases x with
  | error e => exact fun g h => hx g (congrArg Except.error (Except.error.inj h))
  | ok a => exact ok _

theorem mapM {f : α → Checked β} (hf : ∀ a, Ordinary (f a)) (as : List α) :
    Ordinary (as.mapM f) := by
  induction as with
  | nil => simp
  | cons a as ih =>
    rw [List.mapM_cons]
    exact (hf a).bind fun _ => ih.bind fun _ => pure _

end Ordinary

open Ordinary

namespace Value

theorem asInt_ordinary (v : Value) : Ordinary v.asInt := by
  unfold asInt
  split <;> simp [Cause.ordinary]

theorem asBool_ordinary (v : Value) : Ordinary v.asBool := by
  unfold asBool
  split <;> simp [Cause.ordinary]

theorem asName_ordinary (v : Value) : Ordinary v.asName := by
  unfold asName
  split <;> simp [Cause.ordinary]

theorem asRow_ordinary (v : Value) : Ordinary v.asRow := by
  unfold asRow
  split <;> simp [Cause.ordinary]

end Value

namespace Row

variable {α β : Type}

theorem elementAt_ordinary (r : Row α) (k : Nat) : Ordinary (r.elementAt k) := by
  unfold elementAt
  split <;> simp [Cause.ordinary]

theorem positionIn_ordinary (dims : List Bounds) (subscripts : List Int64) :
    Ordinary (positionIn dims subscripts) := by
  fun_induction positionIn dims subscripts with
  | case1 b dims i subscripts h ih => exact ih.bind fun _ => pure _
  | case2 => simp [Cause.ordinary]
  | case3 => exact pure _

theorem select_ordinary (r : Row α) (subscripts : List Int64) : Ordinary (r.select subscripts) :=
  (positionIn_ordinary _ _).bind fun k => r.elementAt_ordinary k

theorem subscripts_ordinary (r : Row α) (indexers : List Indexer) :
    Ordinary (r.subscripts indexers) := by
  unfold subscripts
  split <;> simp [Cause.ordinary]

theorem range_ordinary (b : Bounds) (i : Indexer) : Ordinary (i.range b) := by
  cases i with
  | «at» i =>
    simp only [Indexer.range]
    split <;> simp [Cause.ordinary]
  | trim lower upper =>
    simp only [Indexer.range]
    split
    · exact ok _
    · split
      · simp [Cause.ordinary]
      · split <;> simp [Cause.ordinary]

theorem ranges_ordinary (dims : List Bounds) (indexers : List Indexer) :
    Ordinary (ranges dims indexers) := by
  fun_induction ranges dims indexers with
  | case1 b dims i indexers ih => exact (range_ordinary b i).bind fun _ => ih.bind fun _ => pure _
  | case2 => exact pure _

theorem trim_ordinary (r : Row α) (indexers : List Indexer) : Ordinary (r.trim indexers) := by
  unfold trim
  split
  · exact (fault_iff _).mpr rfl
  · refine (ranges_ordinary _ _).bind fun picked => ?_
    dsimp only
    split
    · exact pure _
    · exact (mapM (fun _ => r.select_ordinary _) _).bind fun _ => pure _

theorem diagonal_ordinary (r : Row α) (k : Int64) : Ordinary (r.diagonal k) := by
  unfold diagonal
  split
  · refine (mapM (fun i => r.select_ordinary _) _).bind fun _ => ?_
    split
    · exact (fault_iff _).mpr rfl
    · exact pure _
  · simp [Cause.ordinary]

theorem transpose_ordinary (r : Row α) : Ordinary r.transpose := by
  unfold transpose
  split
  · exact (mapM (fun i => r.elementAt_ordinary _) _).bind fun _ => pure _
  · simp [Cause.ordinary]

theorem asMatrix_ordinary (r : Row α) (k : Int64) (column : Bool) :
    Ordinary (r.asMatrix k column) := by
  unfold asMatrix
  split <;> simp [Cause.ordinary]

theorem stack_ordinary (dims : Nat) {rowOf : β → Checked (Row α)} (h : ∀ x, Ordinary (rowOf x))
    (xs : List β) : Ordinary (stack dims rowOf xs) := by
  cases xs with
  | nil => exact ok _
  | cons x xs =>
    refine (h x).bind fun first => (mapM (fun y => (h y).bind fun r => ?_) xs).bind fun _ => pure _
    split <;> simp [Cause.ordinary]

end Row

namespace Value

theorem stepInto_ordinary (v : Value) (s : Step) : Ordinary (v.stepInto s) := by
  unfold stepInto
  split
  · split <;> simp
  · exact Row.elementAt_ordinary _ _
  all_goals simp [Cause.ordinary]

theorem read_ordinary (v : Value) (path : List Step) : Ordinary (v.read path) := by
  induction path generalizing v with
  | nil => exact ok v
  | cons s path ih => exact (v.stepInto_ordinary s).bind ih

theorem write_ordinary (new v : Value) (path : List Step) : Ordinary (write new v path) := by
  induction path generalizing v with
  | nil => exact ok new
  | cons s path ih =>
    unfold write
    split
    · split
      · exact (ih _).bind fun _ => pure _
      · simp [Cause.ordinary]
    · exact (Row.elementAt_ordinary _ _).bind fun part => (ih part).bind fun _ => pure _
    all_goals simp [Cause.ordinary]

theorem sliceRow_ordinary (row : Row Value) (indexers : List Indexer) :
    Ordinary (sliceRow row indexers) := by
  unfold sliceRow
  split
  · exact (row.subscripts_ordinary _).bind fun _ => row.select_ordinary _
  · exact (row.trim_ordinary _).map _

end Value

theorem Store.get_ordinary (s : Store) (n : Name) : Ordinary (s.get n) :=
  Value.read_ordinary _ _

theorem Store.assigned_ordinary (s : Store) (n : Name) (v : Value) : Ordinary (s.assigned n v) :=
  Value.write_ordinary _ _ _

namespace Value

theorem slice_ordinary (store : Store) (base : Value) (indexers : List Indexer) :
    Ordinary (slice store base indexers) := by
  unfold slice
  split
  · refine (store.get_ordinary _).bind fun v => v.asRow_ordinary.bind fun row => ?_
    split
    · exact (row.subscripts_ordinary _).bind fun _ =>
        (Row.positionIn_ordinary _ _).bind fun _ => pure _
    · exact (row.trim_ordinary _).map _
  · refine (asRow_ordinary _).bind fun row => ?_
    split
    · exact sliceRow_ordinary _ _
    · exact (row.trim_ordinary _).map _
  · exact (asRow_ordinary _).bind fun row => sliceRow_ordinary row _

mutual

theorem field_ordinary (index : Nat) : ∀ v : Value, Ordinary (field index v)
  | .struct fields => by
    rw [field]
    split <;> simp
  | .row ⟨dims, ⟨elements⟩⟩ => by
    rw [field]
    exact (fieldOfEach_ordinary index elements).bind fun _ => pure _
  | .name _ | .nil | .undefined _ | .void | .int _ | .real _ | .bool _ | .char _ | .string _
  | .format _ | .union .. | .procedure _ => by
    simp [field, Cause.ordinary]

theorem fieldOfEach_ordinary (index : Nat) : ∀ vs : List Value, Ordinary (fieldOfEach index vs)
  | [] => by simp [fieldOfEach]
  | v :: vs => by
    rw [fieldOfEach]
    exact (field_ordinary index v).bind fun _ =>
      (fieldOfEach_ordinary index vs).bind fun _ => pure _

end

theorem joinTexts_ordinary (vs : List Value) : Ordinary (joinTexts vs) := by
  induction vs with
  | nil => exact ok _
  | cons v vs ih =>
    rw [joinTexts]
    split
    · exact ih.map _
    · simp

theorem display_ordinary (modes : ModeTable) (mode : ModeId) (vs : List Value) :
    Ordinary (display modes mode vs) := by
  unfold display
  split
  · exact ok _
  · exact ok _
  · exact (Row.stack_ordinary _ asRow_ordinary vs).bind fun _ => pure _
  · exact (joinTexts_ordinary vs).bind fun _ => pure _
  · split <;> simp

theorem initial_ordinary (modes : ModeTable) (limit : Nat) (mode : ModeId) (dims : List Bounds) :
    Ordinary (initial modes limit mode dims) := by
  unfold initial
  split
  · split
    · split <;> simp [Cause.ordinary]
    · exact ok _
  · exact ok _

end Value

namespace StandardOperator

theorem checked_ordinary (op : StandardOperator) (n : Int) : Ordinary (op.checked n) := by
  unfold checked
  split <;> simp [Cause.ordinary]

theorem intPower_ordinary (op : StandardOperator) (a b : Int) : Ordinary (op.intPower a b) := by
  unfold intPower
  split
  · simp [Cause.ordinary]
  · split
    · exact op.checked_ordinary _
    · split
      · simp [Cause.ordinary]
      · exact op.checked_ordinary _

theorem onInts_ordinary (op : StandardOperator) (a b : Int64) : Ordinary (op.onInts a b) := by
  cases op with
  | add | sub | mul => exact checked_ordinary _ _
  | «over» =>
    simp only [onInts]
    split
    · simp [Cause.ordinary]
    · exact checked_ordinary _ _
  | mod =>
    simp only [onInts]
    split
    · simp [Cause.ordinary]
    · split
      · simp [Cause.ordinary]
      · exact checked_ordinary _ _
  | div =>
    simp only [onInts]
    split <;> simp [Cause.ordinary]
  | pow =>
    simp only [onInts]
    split
    · simp [Cause.ordinary]
    · exact intPower_ordinary _ _ _
  | _ =>
    simp only [onInts]
    split <;> simp

theorem onReals_ordinary (op : StandardOperator) (x y : Float) : Ordinary (op.onReals x y) := by
  unfold onReals
  split <;> first | exact ok _ | (split <;> simp [Cause.ordinary])

theorem onBools_ordinary (op : StandardOperator) (a b : Bool) : Ordinary (op.onBools a b) := by
  unfold onBools
  split <;> simp

theorem sized_ordinary (limit : Nat) (text : List Char) : Ordinary (sized limit text) := by
  unfold sized
  split <;> simp [Cause.ordinary]

theorem replicate_ordinary (limit : Nat) (text : List Char) (times : Int64) :
    Ordinary (replicate limit text times) := by
  simp only [replicate]
  split <;> simp [Cause.ordinary]

theorem onTexts_ordinary (op : StandardOperator) (limit : Nat) (left : Value) (s t : List Char) :
    Ordinary (op.onTexts limit left s t) := by
  unfold onTexts
  split
  · exact sized_ordinary _ _
  · exact sized_ordinary _ _
  · split <;> simp

theorem onRow_ordinary (op : StandardOperator) (d : Int64) (v : Value) :
    Ordinary (op.onRow d v) := by
  refine v.asRow_ordinary.bind fun row => ?_
  split
  · exact row.select_ordinary _
  · split
    · exact ok _
    · simp [Cause.ordinary]

theorem onOthers_ordinary (op : StandardOperator) (limit : Nat) (left right : Value) :
    Ordinary (op.onOthers limit left right) := by
  unfold onOthers
  split
  · exact op.onTexts_ordinary _ _ _ _
  · simp

theorem dyadic_ordinary (op : StandardOperator) (limit : Nat) (left right : Value) :
    Ordinary (op.dyadic limit left right) := by
  unfold dyadic
  split
  · exact op.onInts_ordinary _ _
  · exact op.onReals_ordinary _ _
  · exact op.onReals_ordinary _ _
  · split
    · exact ok _
    · exact op.onReals_ordinary _ _
  · exact op.onBools_ordinary _ _
  · split
    · exact op.onRow_ordinary _ _
    · split
      · exact replicate_ordinary _ _ _
      · exact onOthers_ordinary _ _ _ _
  · split
    · exact replicate_ordinary _ _ _
    · exact onOthers_ordinary _ _ _ _
  · exact onOthers_ordinary _ _ _ _

theorem monadic_ordinary (op : StandardOperator) (v : Value) : Ordinary (op.monadic v) := by
  unfold monadic
  split
  all_goals first
    | exact ok _
    | exact op.checked_ordinary _
    | exact checked_ordinary _ _
    | exact onRow_ordinary _ _ _
    | simp

end StandardOperator

theorem Exec.sameName_ordinary (v w : Value) : Ordinary (Exec.sameName v w) := by
  unfold Exec.sameName
  split <;> simp

/-- Whether a cause speaks of a local that is not there. -/
def Cause.ofLocal : Cause → Bool
  | .missingFrame _ => true
  | .valueMismatch expected _ => expected == "local"
  | _ => false

namespace FrameStack

variable {s : FrameStack} {f : Fault}

theorem top_error (h : s.top = .error f) : f.cause.ofLocal = true := by
  unfold top at h
  split at h <;> cases h
  rfl

theorem handle_error {i : Nat} (h : s.handle i = .error f) : f.cause.ofLocal = true := by
  unfold handle at h
  split at h <;> cases h
  rfl

theorem resolveFrom_error {level links i : Nat} (h : s.resolveFrom level links i = .error f) :
    f.cause.ofLocal = true := by
  fun_induction resolveFrom s level links i with
  | case4 _ _ _ _ _ _ _ _ ih => exact ih h
  | case3 => cases h
  | _ =>
    cases h
    rfl

theorem resolve_error {level : Nat} (h : s.resolve level = .error f) : f.cause.ofLocal = true := by
  unfold resolve at h
  cases ht : s.top with
  | error e =>
    rw [ht] at h
    cases h
    exact top_error ht
  | ok i =>
    rw [ht] at h
    exact resolveFrom_error h

theorem environ_error {level : Nat} (h : (do s.handle (← s.resolve level)) = .error f) :
    f.cause.ofLocal = true := by
  cases hr : s.resolve level with
  | error e =>
    rw [hr] at h
    cases h
    exact resolve_error hr
  | ok i =>
    rw [hr] at h
    exact handle_error h

theorem holder_error {slot : Slot} {v : Value} (h : s.holder slot v = .error f) :
    f.cause.ofLocal = true := by
  unfold holder at h
  cases hr : s.resolve slot.level with
  | error e =>
    rw [hr] at h
    cases h
    exact resolve_error hr
  | ok i =>
    simp only [hr, Bind.bind, Except.bind] at h
    split at h <;> cases h
    rfl

theorem load_error {slot : Slot} (h : s.load slot = .error f) : f.cause.ofLocal = true := by
  unfold load at h
  cases hh : s.holder slot .void with
  | error e =>
    rw [hh] at h
    cases h
    exact holder_error hh
  | ok i =>
    rw [hh] at h
    cases h

end FrameStack

end Algol68
