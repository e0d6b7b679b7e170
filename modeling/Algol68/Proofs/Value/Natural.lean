import Algol68.Proofs.Value.Rename

/-! Operations on values commute with renaming the procedures in their operands: operations on rows
whatever is done to the elements, the others because none of them looks into a procedure. -/

namespace Algol68

section

variable {α β γ : Type}

theorem Checked.map_bind (f : β → γ) (x : Checked α) (g : α → Checked β) :
    f <$> (x >>= g) = x >>= fun a => f <$> g a := by
  cases x <;> rfl

theorem Checked.bind_map (f : α → β) (x : Checked α) (g : β → Checked γ) :
    (f <$> x) >>= g = x >>= fun a => g (f a) := by
  cases x <;> rfl

@[simp] theorem Checked.map_ok (f : α → β) (a : α) : f <$> (.ok a : Checked α) = .ok (f a) := rfl

@[simp] theorem Checked.map_pure (f : α → β) (a : α) : f <$> (pure a : Checked α) = pure (f a) := rfl

@[simp] theorem Checked.map_fault (f : α → β) (c : Cause) :
    f <$> (fault c : Checked α) = fault c := rfl

@[simp] theorem Checked.map_mismatch (f : α → β) (expected : String) (v : Value) :
    f <$> (Value.mismatch expected v : Checked α) = Value.mismatch expected v := rfl

theorem Checked.mapM_map (f : α → β) {g : γ → Checked α} {h : γ → Checked β}
    (hg : ∀ c, h c = f <$> g c) (cs : List γ) : cs.mapM h = List.map f <$> cs.mapM g := by
  induction cs with
  | nil => rfl
  | cons c cs ih =>
    rw [List.mapM_cons, List.mapM_cons, hg, ih]
    cases g c <;> cases cs.mapM g <;> rfl

end

namespace Row

variable {α β γ : Type} (f : α → β)

theorem elementAt_map (r : Row α) (k : Nat) : (r.map f).elementAt k = f <$> r.elementAt k := by
  simp only [elementAt, map_elements, Array.getElem?_map, size, Array.size_map]
  cases r.elements[k]? <;> rfl

theorem select_map (r : Row α) (subscripts : List Int64) :
    (r.map f).select subscripts = f <$> r.select subscripts := by
  simp only [select, position, map_dims, Checked.map_bind, elementAt_map]

@[simp] theorem dimensions_map (r : Row α) : (r.map f).dimensions = r.dimensions := rfl

@[simp] theorem subscripts_map (r : Row α) (indexers : List Indexer) :
    (r.map f).subscripts indexers = r.subscripts indexers := rfl

@[simp] theorem position_map (r : Row α) (subscripts : List Int64) :
    (r.map f).position subscripts = r.position subscripts := rfl

theorem trim_map (r : Row α) (indexers : List Indexer) :
    (r.map f).trim indexers = map f <$> r.trim indexers := by
  have each := fun picked => Checked.mapM_map f (select_map f r) (subscriptsWithin picked)
  simp only [trim, dimensions, map_dims, each]
  split
  · rfl
  · simp only [Checked.map_bind]
    congr 1
    funext picked
    split
    · simp [map]
    · cases (subscriptsWithin picked).mapM r.select with
      | error e => rfl
      | ok vs => simp [Bind.bind, Except.bind, Pure.pure, Except.pure, map, Functor.map, Except.map]

theorem diagonal_map (r : Row α) (k : Int64) : (r.map f).diagonal k = map f <$> r.diagonal k := by
  obtain ⟨dims, elements⟩ := r
  simp only [diagonal, map_dims]
  split
  · next rows cols =>
    rw [Checked.mapM_map f fun i => select_map f ⟨[rows, cols], elements⟩ [i, i + k]]
    simp only [Checked.bind_map, Checked.map_bind]
    congr 1
    funext xs
    split
    · rfl
    · simp
  · rfl

theorem transpose_map (r : Row α) : (r.map f).transpose = map f <$> r.transpose := by
  obtain ⟨dims, elements⟩ := r
  simp only [transpose, map_dims]
  split
  · next rows cols =>
    rw [Checked.mapM_map f fun i => elementAt_map f ⟨[rows, cols], elements⟩ i]
    simp [map]
  · rfl

theorem asMatrix_map (r : Row α) (k : Int64) (column : Bool) :
    (r.map f).asMatrix k column = map f <$> r.asMatrix k column := by
  obtain ⟨dims, elements⟩ := r
  simp only [asMatrix, map_dims]
  split <;> rfl

theorem stack_map (dims : Nat) {g : γ → γ} {rowOf : γ → Checked (Row α)}
    {rowOf' : γ → Checked (Row β)} (h : ∀ x, rowOf' (g x) = map f <$> rowOf x) (xs : List γ) :
    stack dims rowOf' (xs.map g) = map f <$> stack dims rowOf xs := by
  cases xs with
  | nil => simp [stack]
  | cons x xs =>
    have joined (rest : List (Array α)) (first : Array α) :
        (rest.map (Array.map f)).foldl (· ++ ·) (first.map f) =
          (rest.foldl (· ++ ·) first).map f := by
      induction rest generalizing first with
      | nil => rfl
      | cons r rest ih => simp only [List.map_cons, List.foldl_cons, ← Array.map_append, ih]
    have each (first : Row α) := Checked.mapM_map (Array.map f)
      (g := fun y => do
        let r ← rowOf y
        if r.dims = first.dims then return r.elements else fault .raggedDisplay)
      (h := fun y => do
        let r ← rowOf' (g y)
        if r.dims = (first.map f).dims then return r.elements else fault .raggedDisplay)
      (fun y => by
        rw [h, Checked.bind_map, Checked.map_bind]
        congr 1
        funext r
        by_cases hd : r.dims = first.dims <;> simp [hd]) xs
    simp only [stack, List.map_cons, List.mapM_map, h, Checked.bind_map, Checked.map_bind,
      List.length_map, map_dims]
    congr 1
    funext first
    have each := each first
    simp only [map_dims] at each
    simp only [Function.comp_def, each, Checked.bind_map, Checked.map_pure, map, joined]

end Row

namespace Value

variable (ρ : Procedure → Procedure)

@[simp] theorem shape_rename (v : Value) : (v.rename ρ).shape = v.shape := by
  cases v <;> simp [shape]

@[simp] theorem mismatch_rename {α : Type} (expected : String) (v : Value) :
    (mismatch expected (v.rename ρ) : Checked α) = mismatch expected v := by
  simp [mismatch]

@[simp] theorem asInt_rename (v : Value) : (v.rename ρ).asInt = v.asInt := by
  cases v <;> simp [asInt, mismatch, shape]

@[simp] theorem asBool_rename (v : Value) : (v.rename ρ).asBool = v.asBool := by
  cases v <;> simp [asBool, mismatch, shape]

@[simp] theorem asName_rename (v : Value) : (v.rename ρ).asName = v.asName := by
  cases v <;> simp [asName, mismatch, shape]

@[simp] theorem text?_rename (v : Value) : (v.rename ρ).text? = v.text? := by
  cases v <;> simp [text?]

@[simp] theorem leafText_rename (v : Value) : (v.rename ρ).leafText = v.leafText := by
  cases v <;> simp [leafText, shape]

theorem asRow_rename (v : Value) : (v.rename ρ).asRow = Row.map (rename ρ) <$> v.asRow := by
  cases v <;> simp [asRow, Function.comp_def, mismatch, shape]

theorem undefinedTo_rename (modes : ModeTable) (depth : Nat) (m : ModeId) :
    (undefinedTo modes depth m).rename ρ = undefinedTo modes depth m := by
  induction depth generalizing m with
  | zero => rfl
  | succ depth ih =>
    simp only [undefinedTo]
    split
    · next fields _ =>
      rw [rename_struct]
      congr 1
      simp [Function.comp_def, ih]
    · rw [rename_row, Row.map_empty]
    · rfl
    · rfl

@[simp] theorem undefinedOf_rename (modes : ModeTable) (m : ModeId) :
    (undefinedOf modes m).rename ρ = undefinedOf modes m :=
  undefinedTo_rename ρ modes _ m

theorem stepInto_rename (v : Value) (s : Step) :
    (v.rename ρ).stepInto s = rename ρ <$> v.stepInto s := by
  cases v with
  | struct vs =>
    cases s with
    | field i =>
      simp only [rename_struct, stepInto, Array.getElem?_map]
      cases vs[i]? with
      | none => simp [mismatch, shape]
      | some v => rfl
    | element k => simp [stepInto, mismatch, shape]
  | row r =>
    cases s with
    | field i => simp [stepInto, mismatch, shape]
    | element k => simp only [rename_row, stepInto, Row.elementAt_map]
  | _ => cases s <;> simp [stepInto, mismatch, shape]

theorem read_rename (v : Value) (path : List Step) :
    (v.rename ρ).read path = rename ρ <$> v.read path := by
  induction path generalizing v with
  | nil => rfl
  | cons s path ih =>
    simp only [read, stepInto_rename, Checked.bind_map, Checked.map_bind, ih]

theorem write_rename (new v : Value) (path : List Step) :
    write (new.rename ρ) (v.rename ρ) path = rename ρ <$> write new v path := by
  induction path generalizing v with
  | nil => rfl
  | cons s path ih =>
    cases v with
    | struct vs =>
      cases s with
      | field i =>
        simp only [rename_struct, write, Array.getElem?_map]
        cases vs[i]? with
        | none => simp
        | some part =>
          simp only [Option.map_some, ih, Checked.bind_map, Checked.map_bind, Checked.map_pure,
            rename_struct, Array.map_setIfInBounds]
      | element k => simp [write, mismatch, shape]
    | row r =>
      cases s with
      | field i => simp [write, mismatch, shape]
      | element k =>
        simp only [rename_row, write, Row.elementAt_map, ih, Checked.bind_map, Checked.map_bind,
          Checked.map_pure, Row.map_dims, Row.map_elements]
        simp only [Row.map, Array.map_setIfInBounds]
    | _ => cases s <;> simp [write, mismatch, shape]

end Value

/-- The store with every procedure in it replaced. -/
def Store.rename (ρ : Procedure → Procedure) (s : Store) : Store := ⟨s.cells.map (.rename ρ)⟩

namespace Store

variable (ρ : Procedure → Procedure) (s : Store)

@[simp] theorem rename_cell (k : Nat) : (s.rename ρ).cell k = (s.cell k).rename ρ := by
  simp only [cell, rename, Array.getD_eq_getD_getElem?, Array.getElem?_map]
  cases s.cells[k]? <;> rfl

theorem get_rename (n : Name) : (s.rename ρ).get n = .rename ρ <$> s.get n := by
  rw [get, rename_cell, Value.read_rename, get]

theorem assigned_rename (n : Name) (v : Value) :
    (s.rename ρ).assigned n (v.rename ρ) = .rename ρ <$> s.assigned n v := by
  rw [assigned, rename_cell, Value.write_rename, assigned]

@[simp] theorem put_rename (k : Nat) (v : Value) :
    (s.rename ρ).put k (v.rename ρ) = (s.put k v).rename ρ := by
  simp [put, rename, Array.map_setIfInBounds]

theorem allocate_rename (v : Value) :
    (s.rename ρ).allocate (v.rename ρ) =
      ((s.allocate v).1, (s.allocate v).2.rename ρ) := by
  simp [allocate, rename]

end Store

namespace Value

variable (ρ : Procedure → Procedure)

theorem sliceRow_rename (row : Row Value) (indexers : List Indexer) :
    sliceRow (row.map (rename ρ)) indexers = rename ρ <$> sliceRow row indexers := by
  simp only [sliceRow]
  split
  · simp only [Row.subscripts_map, Checked.map_bind, Row.select_map]
  · simp only [Row.trim_map, Checked.bind_map, Checked.map_bind, Checked.map_pure, rename_row]

@[simp] theorem ofChars_rename (vs : Array Value) : ofChars (vs.map (rename ρ)) = ofChars vs := by
  obtain ⟨vs⟩ := vs
  simp only [ofChars, List.map_toArray]
  congr 2
  induction vs with
  | nil => rfl
  | cons v vs ih => cases v <;> simpa using ih

theorem slice_rename (store : Store) (base : Value) (indexers : List Indexer) :
    slice (store.rename ρ) (base.rename ρ) indexers = rename ρ <$> slice store base indexers := by
  have other (v : Value) : (do sliceRow (← (v.rename ρ).asRow) indexers) =
      rename ρ <$> (do sliceRow (← v.asRow) indexers) := by
    simp only [asRow_rename, Checked.bind_map, Checked.map_bind, sliceRow_rename]
  cases base with
  | name n =>
    simp only [rename_name, slice, Store.get_rename, asRow_rename, Checked.bind_map,
      Checked.map_bind, Row.subscripts_map, Row.position_map, Row.trim_map]
    congr 1
    funext v
    congr 1
    funext row
    split <;> simp
  | string text =>
    have chars := asRow_rename ρ (.string text)
    simp only [rename_string, slice] at chars ⊢
    rw [Checked.map_bind]
    conv => lhs; rw [chars, Checked.bind_map]
    congr 1
    funext row
    split
    · rw [sliceRow_rename]
    · simp only [Row.trim_map, Checked.bind_map, Checked.map_bind, Row.map_elements,
        ofChars_rename, Checked.map_pure]
      rfl
  | row r =>
    rw [rename_row]
    exact sliceRow_rename ρ r indexers
  | struct vs =>
    have := other (.struct vs)
    rw [rename_struct] at this ⊢
    exact this
  | _ => exact other _

mutual

theorem field_rename (index : Nat) : ∀ v : Value,
    field index (v.rename ρ) = rename ρ <$> field index v
  | .struct vs => by
    simp only [rename_struct, field, Array.getElem?_map]
    cases vs[index]? <;> simp [mismatch, shape]
  | .row ⟨dims, ⟨vs⟩⟩ => by
    rw [rename, field, field, renameAll_eq, fieldOfEach_rename index vs]
    simp [Row.map]
  | .name _ | .nil | .undefined _ | .void | .int _ | .real _ | .bool _ | .char _ | .string _
  | .format _ | .union .. | .procedure _ => by
    simp [field, mismatch, shape]

theorem fieldOfEach_rename (index : Nat) : ∀ vs : List Value,
    fieldOfEach index (vs.map (rename ρ)) = List.map (rename ρ) <$> fieldOfEach index vs
  | [] => rfl
  | v :: vs => by
    rw [List.map_cons, fieldOfEach, fieldOfEach, field_rename index v, fieldOfEach_rename index vs]
    simp

end

@[simp] theorem joinTexts_rename (vs : List Value) :
    joinTexts (vs.map (rename ρ)) = joinTexts vs := by
  induction vs with
  | nil => rfl
  | cons v vs ih => simp only [List.map_cons, joinTexts, text?_rename, ih, mismatch_rename]

theorem display_rename (modes : ModeTable) (mode : ModeId) (vs : List Value) :
    display modes mode (vs.map (rename ρ)) = rename ρ <$> display modes mode vs := by
  simp only [display]
  split
  · simp
  · simp
  · rw [Row.stack_map (rename ρ) _ (asRow_rename ρ)]
    simp
  · simp
  · match vs with
    | [] => simp [mismatch, shape]
    | [v] => rfl
    | v :: w :: vs => simp

theorem rowed_rename (modes : ModeTable) (target : ModeId) (v : Value) :
    rowed modes target (v.rename ρ) = (rowed modes target v).rename ρ := by
  cases hm : modes.get target with
  | row dims element =>
    cases v with
    | row r =>
      simp only [rename_row, rowed, hm, Row.dimensions_map]
      split <;> simp
    | _ => simp [rowed, hm]
  | _ => cases v <;> simp [rowed, hm]

theorem initial_rename (modes : ModeTable) (limit : Nat) (mode : ModeId) (dims : List Bounds) :
    rename ρ <$> initial modes limit mode dims = initial modes limit mode dims := by
  simp only [initial]
  split
  · split
    · split
      · simp [Row.map]
      · rfl
    · simp
  · simp

end Value

/-- A result in which there is nothing to rename. -/
def Checked.Fixed (c : Checked Value) : Prop := ∀ ρ, Value.rename ρ <$> c = c

namespace StandardOperator

theorem checked_fixed (op : StandardOperator) (n : Int) : (op.checked n).Fixed := by
  intro ρ
  unfold checked
  split <;> rfl

theorem intPower_fixed (op : StandardOperator) (a b : Int) : (op.intPower a b).Fixed := by
  intro ρ
  unfold intPower
  split
  · rfl
  · split
    · exact checked_fixed op _ ρ
    · split
      · rfl
      · exact checked_fixed op _ ρ

theorem onInts_fixed (op : StandardOperator) (a b : Int64) : (op.onInts a b).Fixed := by
  intro ρ
  cases op with
  | add | sub | mul => exact checked_fixed _ _ ρ
  | «over» =>
    simp only [onInts]
    split
    · rfl
    · exact checked_fixed _ _ ρ
  | mod =>
    simp only [onInts]
    split
    · rfl
    · split
      · rfl
      · exact checked_fixed _ _ ρ
  | pow =>
    simp only [onInts]
    split
    · rfl
    · exact intPower_fixed _ _ _ ρ
  | _ =>
    simp only [onInts]
    split <;> rfl

theorem onReals_fixed (op : StandardOperator) (x y : Float) : (op.onReals x y).Fixed := by
  intro ρ
  unfold onReals
  split <;> first | rfl | (split <;> rfl)

theorem onBools_fixed (op : StandardOperator) (a b : Bool) : (op.onBools a b).Fixed := by
  intro ρ
  unfold onBools
  split <;> rfl

theorem replicate_fixed (limit : Nat) (text : List Char) (times : Int64) :
    (replicate limit text times).Fixed := by
  intro ρ
  simp only [replicate]
  split <;> rfl

theorem onTexts_fixed (op : StandardOperator) (limit : Nat) (left : Value) (s t : List Char) :
    (op.onTexts limit left s t).Fixed := by
  intro ρ
  unfold onTexts sized
  split <;> first | rfl | (split <;> rfl)

theorem onOthers_fixed (op : StandardOperator) (limit : Nat) (left right : Value) :
    (op.onOthers limit left right).Fixed := by
  intro ρ
  unfold onOthers
  split
  · exact onTexts_fixed _ _ _ _ _ ρ
  · rfl

variable (ρ : Procedure → Procedure)

theorem onRow_rename (op : StandardOperator) (d : Int64) (v : Value) :
    op.onRow d (v.rename ρ) = .rename ρ <$> op.onRow d v := by
  simp only [onRow, Value.asRow_rename, Checked.bind_map, Checked.map_bind]
  congr 1
  funext row
  split
  · exact row.select_map _ _
  · simp only [Row.map_dims, Row.dimensions_map]
    split <;> simp

theorem onOthers_rename (op : StandardOperator) (limit : Nat) (left right : Value) :
    op.onOthers limit (left.rename ρ) (right.rename ρ) =
      .rename ρ <$> op.onOthers limit left right := by
  rw [onOthers_fixed]
  simp only [onOthers, Value.text?_rename]
  split
  · cases op <;> simp [onTexts]
  · simp

/-- A text times an integer, or an operator on two texts. -/
def onScaled (op : StandardOperator) (limit : Nat) (n : Int64) (text left right : Value) :
    Checked Value :=
  match op, text.text? with
  | .mul, some s => replicate limit s n
  | _, _ => op.onOthers limit left right

theorem onScaled_rename (op : StandardOperator) (limit : Nat) (n : Int64)
    (text left right : Value) :
    op.onScaled limit n (text.rename ρ) (left.rename ρ) (right.rename ρ) =
      .rename ρ <$> op.onScaled limit n text left right := by
  simp only [onScaled, Value.text?_rename]
  split
  · exact (replicate_fixed _ _ _ ρ).symm
  · exact onOthers_rename ρ _ _ _ _

theorem dyadic_int {op : StandardOperator} {limit : Nat} {v : Value} (a : Int64)
    (hi : v.shape ≠ .int) (hr : v.shape ≠ .real) :
    op.dyadic limit (.int a) v =
      if op.isRowQuery then op.onRow a v else op.onScaled limit a v (.int a) v := by
  cases v <;> first | rfl | exact absurd rfl hi | exact absurd rfl hr

theorem dyadic_times {op : StandardOperator} {limit : Nat} {v : Value} (a : Int64)
    (hi : v.shape ≠ .int) (hr : v.shape ≠ .real) :
    op.dyadic limit v (.int a) = op.onScaled limit a v v (.int a) := by
  cases v <;> first | rfl | exact absurd rfl hi | exact absurd rfl hr

theorem dyadic_others {op : StandardOperator} {limit : Nat} {v w : Value} (hv : v.shape ≠ .int)
    (hw : w.shape ≠ .int) (hr : v.shape ≠ .real ∨ w.shape ≠ .real)
    (hb : v.shape ≠ .bool ∨ w.shape ≠ .bool) : op.dyadic limit v w = op.onOthers limit v w := by
  unfold dyadic
  split <;> simp_all [Value.shape]

theorem dyadic_rename (op : StandardOperator) (limit : Nat) (left right : Value) :
    op.dyadic limit (left.rename ρ) (right.rename ρ) = .rename ρ <$> op.dyadic limit left right := by
  by_cases hl : left.shape = .int
  · obtain ⟨a, rfl⟩ : ∃ a, left = .int a := by cases left <;> simp_all [Value.shape]
    by_cases hi : right.shape = .int
    · obtain ⟨b, rfl⟩ : ∃ b, right = .int b := by cases right <;> simp_all [Value.shape]
      exact (onInts_fixed op a b ρ).symm
    by_cases hr : right.shape = .real
    · obtain ⟨y, rfl⟩ : ∃ y, right = .real y := by cases right <;> simp_all [Value.shape]
      exact (onReals_fixed op _ y ρ).symm
    rw [Value.rename_int, dyadic_int a hi hr, dyadic_int a (by simpa using hi) (by simpa using hr)]
    split
    · exact onRow_rename ρ op a right
    · exact onScaled_rename ρ op limit a right (.int a) right
  by_cases hi : right.shape = .int
  · obtain ⟨b, rfl⟩ : ∃ b, right = .int b := by cases right <;> simp_all [Value.shape]
    by_cases hr : left.shape = .real
    · obtain ⟨x, rfl⟩ : ∃ x, left = .real x := by cases left <;> simp_all [Value.shape]
      simp only [Value.rename_int, Value.rename_real, dyadic]
      split
      · rfl
      · exact (onReals_fixed op x _ ρ).symm
    rw [Value.rename_int, dyadic_times b hl hr, dyadic_times b (by simpa using hl) (by simpa using hr)]
    exact onScaled_rename ρ op limit b left left (.int b)
  by_cases hr : left.shape = .real ∧ right.shape = .real
  · obtain ⟨x, rfl⟩ : ∃ x, left = .real x := by cases left <;> simp_all [Value.shape]
    obtain ⟨y, rfl⟩ : ∃ y, right = .real y := by cases right <;> simp_all [Value.shape]
    exact (onReals_fixed op x y ρ).symm
  by_cases hb : left.shape = .bool ∧ right.shape = .bool
  · obtain ⟨x, rfl⟩ : ∃ x, left = .bool x := by cases left <;> simp_all [Value.shape]
    obtain ⟨y, rfl⟩ : ∃ y, right = .bool y := by cases right <;> simp_all [Value.shape]
    exact (onBools_fixed op x y ρ).symm
  have hr := Decidable.not_and_iff_or_not.mp hr
  have hb := Decidable.not_and_iff_or_not.mp hb
  rw [dyadic_others hl hi hr hb, dyadic_others (by simpa using hl) (by simpa using hi) (by simpa using hr)
    (by simpa using hb)]
  exact onOthers_rename ρ op limit left right

theorem monadic_rename (op : StandardOperator) (v : Value) :
    op.monadic (v.rename ρ) = .rename ρ <$> op.monadic v := by
  have queries (h : op = .upb ∨ op = .lwb) : op.monadic (v.rename ρ) = .rename ρ <$> op.monadic v := by
    rcases h with rfl | rfl <;> exact onRow_rename ρ _ 1 v
  cases op with
  | upb => exact queries (.inl rfl)
  | lwb => exact queries (.inr rfl)
  | neg | plus | abs | not =>
    cases v <;> first
      | exact (checked_fixed _ _ ρ).symm
      | simp [monadic, Value.mismatch, Value.shape]
  | _ => simp [monadic]

end StandardOperator

end Algol68
