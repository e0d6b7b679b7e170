import Algol68.Proofs.Row.Odometer

/-! Diagonals. The shift of the columns is cut off at the ends of INT, and the count over the rows goes
on at the least integer after the greatest. Where neither matters, a diagonal has the elements whose
index lies in the rows and, shifted, in the columns; where one does, it faults. -/

namespace Algol68

theorem toInt_add {i k : Int64} (hl : -0x8000000000000000 ≤ i.toInt + k.toInt)
    (hu : i.toInt + k.toInt ≤ 0x7FFFFFFFFFFFFFFF) : (i + k).toInt = i.toInt + k.toInt := by
  rw [Int64.toInt_add, Int.bmod_eq_of_le] <;> omega

namespace Row

variable {α : Type} {r : Row α} {rows cols : Bounds} {i k first last : Int64}

/-! Intervals. -/

theorem length_interval (first last : Int64) :
    (interval first last).length = (last.toInt - first.toInt + 1).toNat := by
  simp [interval]

theorem getElem?_interval {n : Nat} (first last : Int64) (h : first.toInt + n ≤ last.toInt) :
    ∃ i, (interval first last)[n]? = some i ∧ i.toInt = first.toInt + n := by
  have hl := first.le_toInt
  have hu := last.toInt_lt
  refine ⟨Int64.ofInt (first.toInt + n), ?_, Int64.toInt_ofInt_of_le (by omega) (by omega)⟩
  rw [interval, List.getElem?_map, List.getElem?_range (by omega)]
  rfl

theorem mem_interval :
    i ∈ interval first last ↔ first.toInt ≤ i.toInt ∧ i.toInt ≤ last.toInt := by
  constructor
  · intro h
    obtain ⟨n, hn⟩ := List.mem_iff_getElem?.mp h
    have hlt := (List.getElem?_eq_some_iff.mp hn).1
    rw [length_interval] at hlt
    obtain ⟨j, hj, hint⟩ := getElem?_interval (n := n) first last (by omega)
    obtain rfl := Option.some.inj (hn.symm.trans hj)
    omega
  · rintro ⟨hl, hu⟩
    obtain ⟨j, hj, hint⟩ :=
      getElem?_interval (n := (i.toInt - first.toInt).toNat) first last (by omega)
    obtain rfl : j = i := Int64.toInt_inj.mp (by omega)
    exact List.mem_of_getElem? hj

theorem interval_pairwise (first last : Int64) : (interval first last).Pairwise (· < ·) := by
  rw [List.pairwise_iff_getElem]
  intro a b ha hb hab
  rw [length_interval] at ha hb
  obtain ⟨i, hi, hint⟩ := getElem?_interval (n := a) first last (by omega)
  obtain ⟨j, hj, hjnt⟩ := getElem?_interval (n := b) first last (by omega)
  obtain ⟨_, rfl⟩ := List.getElem?_eq_some_iff.mp hi
  obtain ⟨_, rfl⟩ := List.getElem?_eq_some_iff.mp hj
  rw [Int64.lt_iff_toInt_lt]
  omega

theorem interval_nil (h : last.toInt < first.toInt) : interval first last = [] := by
  rw [← List.length_eq_zero_iff, length_interval]
  omega

theorem interval_cons (h : first.toInt < last.toInt) :
    interval first last = first :: interval (first + 1) last := by
  have hl := first.le_toInt
  have hu := last.toInt_lt
  have one : (1 : Int64).toInt = 1 := rfl
  have hnext : (first + 1).toInt = first.toInt + 1 := by
    rw [toInt_add] <;> omega
  have hlen : (last.toInt - first.toInt + 1).toNat =
      (last.toInt - (first.toInt + 1) + 1).toNat + 1 := by
    omega
  rw [interval, interval, hnext, hlen, List.range_succ_eq_map, List.map_cons, List.map_map]
  congr 1
  · simp
  · apply List.map_congr_left
    intro n _
    simp only [Function.comp_apply]
    congr 1
    omega

theorem interval_self (i : Int64) : interval i i = [i] := by
  simp [interval]

/-! The interval of a diagonal. -/

/-- The first row of a diagonal: that of the rows, or of the shifted columns if they begin later. -/
def firstOn (rows cols : Bounds) (k : Int64) : Int64 :=
  max rows.lower (saturate (cols.lower.toInt - k.toInt))

def lastOn (rows cols : Bounds) (k : Int64) : Int64 :=
  min rows.upper (saturate (cols.upper.toInt - k.toInt))

/-- The index lies in the rows and, shifted, in the columns, in unbounded integers. -/
structure OnDiagonal (rows cols : Bounds) (k i : Int64) : Prop where
  row : rows.contains i = true
  lower_le : cols.lower.toInt ≤ i.toInt + k.toInt
  le_upper : i.toInt + k.toInt ≤ cols.upper.toInt

/-- The rows reach an end of INT and the shifted columns are cut off there: the end is taken for an
index of the diagonal, which it is not. -/
def CutOff (rows cols : Bounds) (k i : Int64) : Prop :=
  (i = Int64.minValue ∧ rows.lower = i ∧
    cols.lower.toInt - k.toInt ≤ i.toInt ∧ cols.upper.toInt - k.toInt < i.toInt) ∨
  (i = Int64.maxValue ∧ rows.upper = i ∧
    i.toInt < cols.lower.toInt - k.toInt ∧ i.toInt ≤ cols.upper.toInt - k.toInt)

theorem firstOn_le : (firstOn rows cols k).toInt ≤ i.toInt ↔
    rows.lower.toInt ≤ i.toInt ∧
      (cols.lower.toInt - k.toInt ≤ i.toInt ∨ i = Int64.maxValue) := by
  have hl := i.le_toInt
  have hu := i.toInt_lt
  rw [firstOn, toInt_max, toInt_saturate, max_le_iff, max_le_iff, min_le_iff, ← Int64.toInt_inj,
    Int64.toInt_maxValue]
  omega

theorem le_lastOn : i.toInt ≤ (lastOn rows cols k).toInt ↔
    i.toInt ≤ rows.upper.toInt ∧
      (i.toInt ≤ cols.upper.toInt - k.toInt ∨ i = Int64.minValue) := by
  have hl := i.le_toInt
  have hu := i.toInt_lt
  rw [lastOn, toInt_min, toInt_saturate, le_min_iff, le_max_iff, le_min_iff, ← Int64.toInt_inj,
    Int64.toInt_minValue]
  omega

/-- The interval holds the indices of the diagonal and any end of INT at which it is cut off. -/
theorem mem_interval_firstOn :
    i ∈ interval (firstOn rows cols k) (lastOn rows cols k) ↔
      OnDiagonal rows cols k i ∨ CutOff rows cols k i := by
  have hlower := rows.lower.toInt_lt
  have hupper := rows.upper.le_toInt
  have hmin := rows.lower.le_toInt
  have hmax := rows.upper.toInt_lt
  rw [mem_interval, firstOn_le, le_lastOn]
  simp only [CutOff, ← Int64.toInt_inj, Int64.toInt_minValue, Int64.toInt_maxValue]
  constructor
  · rintro ⟨⟨hrl, hcl⟩, hru, hcu⟩
    by_cases hon : cols.lower.toInt - k.toInt ≤ i.toInt ∧ i.toInt ≤ cols.upper.toInt - k.toInt
    · exact .inl ⟨Bounds.contains_iff.mpr ⟨hrl, hru⟩, by omega, by omega⟩
    · right
      omega
  · rintro (⟨hrow, hl, hu⟩ | hcut)
    · rw [Bounds.contains_iff] at hrow
      omega
    · omega

theorem mem_interval_iff (h : ∀ i, ¬ CutOff rows cols k i) :
    i ∈ interval (firstOn rows cols k) (lastOn rows cols k) ↔ OnDiagonal rows cols k i := by
  rw [mem_interval_firstOn, or_iff_left (h i)]

theorem interval_of_cutOff (h : CutOff rows cols k i) :
    interval (firstOn rows cols k) (lastOn rows cols k) = [i] := by
  obtain ⟨hfirst, hlast⟩ := mem_interval.mp (mem_interval_firstOn.mpr (.inr h))
  -- the two ends of the interval, seen as indices of it
  have hf := (firstOn_le.mp (le_refl (firstOn rows cols k).toInt)).2
  have hl := (le_lastOn.mp (le_refl (lastOn rows cols k).toInt)).2
  have hmin := (firstOn rows cols k).le_toInt
  have hmax := (lastOn rows cols k).toInt_lt
  simp only [CutOff, ← Int64.toInt_inj, Int64.toInt_minValue, Int64.toInt_maxValue] at h hf hl
  have hfi : firstOn rows cols k = i := Int64.toInt_inj.mp (by omega)
  have hli : lastOn rows cols k = i := Int64.toInt_inj.mp (by omega)
  rw [hfi, hli, interval_self]

/-- The greatest integer is the last index of a diagonal that it is on. -/
theorem lastOn_eq_maxValue_iff (h : ∀ i, ¬ CutOff rows cols k i) :
    firstOn rows cols k ≤ lastOn rows cols k ∧ lastOn rows cols k = Int64.maxValue ↔
      OnDiagonal rows cols k Int64.maxValue := by
  rw [← mem_interval_iff h, mem_interval, Int64.le_iff_toInt_le]
  constructor
  · rintro ⟨hle, heq⟩
    rw [heq] at hle ⊢
    exact ⟨hle, le_rfl⟩
  · rintro ⟨hf, hl⟩
    have hmax := (lastOn rows cols k).toInt_lt
    refine ⟨hf.trans hl, Int64.toInt_inj.mp ?_⟩
    rw [Int64.toInt_maxValue] at hl ⊢
    omega

/-! Selecting the elements. -/

theorem OnDiagonal.toInt_add (h : OnDiagonal rows cols k i) :
    (i + k).toInt = i.toInt + k.toInt := by
  have hl := h.lower_le
  have hu := h.le_upper
  have hmin := cols.lower.le_toInt
  have hmax := cols.upper.toInt_lt
  rw [Algol68.toInt_add] <;> omega

theorem OnDiagonal.within (h : OnDiagonal rows cols k i) : Within [rows, cols] [i, i + k] := by
  refine .cons h.row (.cons (Bounds.contains_iff.mpr ?_) .nil)
  rw [h.toInt_add]
  exact ⟨h.lower_le, h.le_upper⟩

/-- The end at which a diagonal is cut off is an index of the rows, but leads to no column. -/
theorem CutOff.contains (h : CutOff rows cols k i) :
    rows.contains i = true ∧ cols.contains (i + k) = false := by
  have hlower := rows.lower.toInt_lt
  have hupper := rows.upper.le_toInt
  have hmin := cols.upper.le_toInt
  have hmax := cols.lower.toInt_lt
  have hkl := k.le_toInt
  have hku := k.toInt_lt
  simp only [CutOff, ← Int64.toInt_inj, Int64.toInt_minValue, Int64.toInt_maxValue] at h
  have hsum : (i + k).toInt = i.toInt + k.toInt := by
    rw [toInt_add] <;> omega
  rw [← Bool.not_eq_true, Bounds.contains_iff, Bounds.contains_iff, hsum]
  omega

theorem select_of_not_row (hdims : r.dims = [rows, cols]) {j : Int64}
    (h : rows.contains i = false) :
    r.select [i, j] = fault (.indexOutOfBounds i rows.lower rows.upper) := by
  rw [select, position, hdims, positionIn, if_neg (by simp [h])]
  rfl

theorem select_of_not_column (hdims : r.dims = [rows, cols]) {j : Int64}
    (hi : rows.contains i = true) (h : cols.contains j = false) :
    r.select [i, j] = fault (.indexOutOfBounds j cols.lower cols.upper) := by
  rw [select, position, hdims, positionIn, if_pos hi, positionIn, if_neg (by simp [h])]
  rfl

/-- The elements on the diagonal, row by row. -/
def along (r : Row α) (k : Int64) (is : List Int64) : Checked (List α) :=
  is.mapM fun i => r.select [i, i + k]

theorem along_cons_ok {x : α} (h : r.select [i, i + k] = .ok x) (is : List Int64) :
    r.along k (i :: is) = (x :: ·) <$> r.along k is := by
  rw [along, List.mapM_cons, h, ← along]
  cases r.along k is <;> rfl

theorem along_cons_error {f : Fault} (h : r.select [i, i + k] = .error f) (is : List Int64) :
    r.along k (i :: is) = .error f := by
  rw [along, List.mapM_cons, h]
  rfl

/-- The vector of the elements; but a count that has reached the greatest integer goes on at the least,
which is no row. -/
def closeAt (rows : Bounds) (first last : Int64) (xs : Array α) : Checked (Row α) :=
  if first ≤ last ∧ last = Int64.maxValue then
    fault (.indexOutOfBounds Int64.minValue rows.lower rows.upper)
  else .ok (vector xs)

theorem diagonal_eq (hdims : r.dims = [rows, cols]) (k : Int64) :
    r.diagonal k = (do
      let xs ← r.along k (interval (firstOn rows cols k) (lastOn rows cols k))
      closeAt rows (firstOn rows cols k) (lastOn rows cols k) xs.toArray) := by
  rw [diagonal, hdims]
  rfl

theorem Exact.exists_along (exact : r.Exact) (hdims : r.dims = [rows, cols])
    (h : ∀ i, ¬ CutOff rows cols k i) :
    ∃ xs, r.along k (interval (firstOn rows cols k) (lastOn rows cols k)) = .ok xs :=
  Checked.exists_mapM fun _ hi =>
    exact.exists_select (hdims ▸ ((mem_interval_iff h).mp hi).within)

theorem diagonal_of_cutOff (hdims : r.dims = [rows, cols]) (h : CutOff rows cols k i) :
    r.diagonal k = fault (.indexOutOfBounds (i + k) cols.lower cols.upper) := by
  rw [diagonal_eq hdims, interval_of_cutOff h, along, List.mapM_cons,
    select_of_not_column hdims h.contains.1 h.contains.2]
  rfl

theorem length_interval_firstOn_le (exact : r.Exact) (hdims : r.dims = [rows, cols])
    (h : ∀ i, ¬ CutOff rows cols k i) :
    (interval (firstOn rows cols k) (lastOn rows cols k)).length ≤ 0x7FFFFFFFFFFFFFFF := by
  have hmem (i : Int64) := (mem_interval (i := i)).symm.trans (mem_interval_iff h)
  rw [length_interval]
  -- the rows and the columns would each have to take up half of the integers
  by_contra hlong
  have hfirst := (hmem _).mp ⟨le_rfl, by omega⟩
  have hlast := (hmem _).mp ⟨by omega, le_rfl⟩
  have hrf := Bounds.contains_iff.mp hfirst.row
  have hrl := Bounds.contains_iff.mp hlast.row
  have hcf := hfirst.lower_le
  have hcl := hlast.le_upper
  have hrows : 0x8000000000000000 ≤ rows.extent := by
    rw [Bounds.extent]
    omega
  have hcols : 0x8000000000000000 ≤ cols.extent := by
    rw [Bounds.extent]
    omega
  have hsize := exact.size ▸ exact.counted
  rw [hdims, exactVolume_cons, exactVolume_cons, exactVolume_nil, Nat.mul_one] at hsize
  have hmul := Nat.mul_le_mul hrows hcols
  rw [maxCount] at hsize
  omega

/-! The loop. -/

/-- One round along a diagonal: take the element in this row and go on to the next. The index of the
next row is computed in 64 bits. -/
def diagonalRound (r : Row α) (k last : Int64) :
    Int64 × Array α → Checked ((Int64 × Array α) ⊕ Row α)
  | (i, xs) =>
    if i ≤ last then do
      let x ← r.select [i, i + k]
      return .inl (i + 1, xs.push x)
    else return .inr (vector xs)

theorem diagonalRound_of_le (hi : i ≤ last) (xs : Array α) :
    r.diagonalRound k last (i, xs) = (do
      let x ← r.select [i, i + k]
      return .inl (i + 1, xs.push x)) :=
  if_pos hi

theorem diagonalRound_of_not_le (hi : ¬ i ≤ last) (xs : Array α) :
    r.diagonalRound k last (i, xs) = .ok (.inr (vector xs)) :=
  if_neg hi

/-- What is still to come after one more element. -/
theorem closeAt_next {x : α} {xs : Array α} {is : List Int64} {j : Int64} (hi : i ≤ last)
    (hj : j ≤ last) (hx : r.select [i, i + k] = .ok x) :
    (do
      let ys ← r.along k (i :: is)
      closeAt rows i last (xs ++ ys.toArray)) = (do
      let ys ← r.along k is
      closeAt rows j last (xs.push x ++ ys.toArray)) := by
  rw [along_cons_ok hx]
  cases r.along k is with
  | error f => exact Eq.refl (Except.error f : Checked (Row α))
  | ok ys =>
    change closeAt rows i last (xs ++ (x :: ys).toArray) = closeAt rows j last (xs.push x ++ ys.toArray)
    have hpush : xs ++ (x :: ys).toArray = xs.push x ++ ys.toArray := by simp
    rw [closeAt, closeAt, hpush]
    simp only [hi, hj]

theorem diagonal_loops_fault {f : Fault} {xs : Array α} (hi : i ≤ last)
    (hx : r.select [i, i + k] = .error f) (is : List Int64) :
    Checked.Loops (r.diagonalRound k last) (i, xs) (do
      let ys ← r.along k (i :: is)
      closeAt rows i last (xs ++ ys.toArray)) := by
  rw [along_cons_error hx]
  refine .fault ?_
  rw [diagonalRound_of_le hi, hx]
  rfl

/-- Past the last index the loop comes to its end, unless there is no index past it: then the next one
is the least integer. -/
theorem diagonal_loops_end (hdims : r.dims = [rows, cols]) (xs : Array α)
    (hwrap : i = Int64.maxValue → rows.contains Int64.minValue = false) :
    Checked.Loops (r.diagonalRound k i) (i + 1, xs) (closeAt rows i i xs) := by
  by_cases hlast : i = Int64.maxValue
  · have hnext : i + 1 = Int64.minValue := by
      rw [hlast]
      rfl
    rw [hnext, closeAt, if_pos ⟨Int64.le_refl i, hlast⟩]
    refine .fault ?_
    rw [diagonalRound_of_le (Int64.minValue_le i), select_of_not_row hdims (hwrap hlast)]
    rfl
  · have hlt : ¬ i + 1 ≤ i := by
      have one : (1 : Int64).toInt = 1 := rfl
      have hmin := i.le_toInt
      have hmax := i.toInt_lt
      rw [← Int64.toInt_inj, Int64.toInt_maxValue] at hlast
      rw [Int64.le_iff_toInt_le, toInt_add] <;> omega
    rw [closeAt, if_neg fun h => hlast h.2]
    exact .done (diagonalRound_of_not_le hlt xs)

/-- From some row on, the loop takes the elements that are still to come. -/
theorem diagonal_loops_from (hdims : r.dims = [rows, cols]) {n : Nat} {xs : Array α}
    (hn : (last.toInt - i.toInt + 1).toNat = n)
    (hwrap : ∀ x, last = Int64.maxValue → r.select [last, last + k] = .ok x →
      rows.contains Int64.minValue = false) :
    Checked.Loops (r.diagonalRound k last) (i, xs) (do
      let ys ← r.along k (interval i last)
      closeAt rows i last (xs ++ ys.toArray)) := by
  -- by the number of rows that are still to come; the last one is a case of its own, since the row
  -- after it may be none
  induction n generalizing i xs with
  | zero =>
    have hle : ¬ i ≤ last := by
      rw [Int64.le_iff_toInt_le]
      omega
    rw [interval_nil (by omega)]
    change Checked.Loops _ _ (closeAt rows i last (xs ++ #[]))
    rw [closeAt, if_neg (fun h => hle h.1), Array.append_empty]
    exact .done (diagonalRound_of_not_le hle xs)
  | succ n ih =>
    have hle : i ≤ last := by
      rw [Int64.le_iff_toInt_le]
      omega
    rcases Int.lt_or_eq_of_le (Int64.le_iff_toInt_le.mp hle) with hlt | heq
    · have one : (1 : Int64).toInt = 1 := rfl
      have hnext : (i + 1).toInt = i.toInt + 1 := by
        have hmin := i.le_toInt
        have hmax := last.toInt_lt
        rw [toInt_add] <;> omega
      have hle' : i + 1 ≤ last := by
        rw [Int64.le_iff_toInt_le]
        omega
      rw [interval_cons hlt]
      cases hx : r.select [i, i + k] with
      | error f => exact diagonal_loops_fault hle hx _
      | ok x =>
        have hrest : Checked.Loops (r.diagonalRound k last) (i + 1, xs.push x) _ := ih (by omega)
        rw [closeAt_next hle hle' hx]
        refine .next ?_ hrest
        rw [diagonalRound_of_le hle, hx]
        rfl
    · obtain rfl := Int64.toInt_inj.mp heq
      rw [interval_self]
      cases hx : r.select [i, i + k] with
      | error f => exact diagonal_loops_fault hle hx _
      | ok x =>
        have hend : Checked.Loops (r.diagonalRound k i) (i + 1, xs.push x) (do
            let ys ← r.along k []
            closeAt rows i i (xs.push x ++ ys.toArray)) := by
          change Checked.Loops _ _ (closeAt rows i i (xs.push x ++ #[]))
          rw [Array.append_empty]
          exact diagonal_loops_end hdims _ fun hlast => hwrap x hlast hx
        rw [closeAt_next hle hle hx]
        refine .next ?_ hend
        rw [diagonalRound_of_le hle, hx]
        rfl

theorem within_of_select (hdims : r.dims = [rows, cols]) {j : Int64} {x : α}
    (h : r.select [i, j] = .ok x) : Within [rows, cols] [i, j] := by
  cases hi : rows.contains i with
  | false =>
    rw [select_of_not_row hdims hi] at h
    cases h
  | true =>
    cases hj : cols.contains j with
    | false =>
      rw [select_of_not_column hdims hi hj] at h
      cases h
    | true => exact .cons hi (.cons hj .nil)

/-- A row with an element in the line of the greatest integer has no line of the least: there would be
more lines than can be counted. -/
theorem Exact.not_contains_minValue (exact : r.Exact) (hdims : r.dims = [rows, cols]) {j : Int64}
    (h : Within [rows, cols] [Int64.maxValue, j]) : rows.contains Int64.minValue = false := by
  have counted := exact.of_within (hdims ▸ h)
  rw [hdims] at counted
  have hextent := counted rows (List.mem_cons_self ..)
  cases h with
  | cons hi _ =>
    rw [Bounds.contains_iff, Int64.toInt_maxValue] at hi
    rw [← Bool.not_eq_true, Bounds.contains_iff, Int64.toInt_minValue]
    rw [Bounds.extent, maxCount] at hextent
    omega

/-- The loop along a diagonal comes to an end, with the diagonal. -/
theorem diagonal_loops (exact : r.Exact) (hdims : r.dims = [rows, cols]) (k : Int64) :
    Checked.Loops (r.diagonalRound k (lastOn rows cols k)) (firstOn rows cols k, #[])
      (r.diagonal k) := by
  have hwrap (x : α) (hlast : lastOn rows cols k = Int64.maxValue)
      (hx : r.select [lastOn rows cols k, lastOn rows cols k + k] = .ok x) :
      rows.contains Int64.minValue = false := by
    rw [hlast] at hx
    exact exact.not_contains_minValue hdims (within_of_select hdims hx)
  have hloop : Checked.Loops _ (firstOn rows cols k, #[]) _ := diagonal_loops_from hdims rfl hwrap
  rw [diagonal_eq hdims]
  simpa using hloop

theorem OnDiagonal.not_cutOff (h : OnDiagonal rows cols k Int64.maxValue) :
    ¬ CutOff rows cols k i := by
  have hl := h.lower_le
  have hu := h.le_upper
  rw [Int64.toInt_maxValue] at hl hu
  have hku := k.toInt_lt
  simp only [CutOff, ← Int64.toInt_inj, Int64.toInt_minValue, Int64.toInt_maxValue]
  omega

theorem CutOff.not_onDiagonal (h : CutOff rows cols k i) (j : Int64) :
    ¬ OnDiagonal rows cols k j := by
  intro hon
  have hl := hon.lower_le
  have hu := hon.le_upper
  have hjl := j.le_toInt
  have hju := j.toInt_lt
  simp only [CutOff, ← Int64.toInt_inj, Int64.toInt_minValue, Int64.toInt_maxValue] at h
  omega

/-- The diagonal of a row of two dimensions. If it is not cut off at an end of INT and does not reach
the greatest integer, it is the vector of the elements at the indices that lie in the rows and,
shifted, in the columns, in increasing order. A diagonal that is cut off has no such index, but faults
for the column that the end of INT leads to; one that reaches the greatest integer faults for the least.
The loop along the diagonal comes to an end in each case. -/
theorem diagonal_picks (r : Row α) (rows cols : Bounds) (k : Int64)
    (hdims : r.dims = [rows, cols]) (exact : r.Exact) :
    ((∀ i, ¬ CutOff rows cols k i) → ¬ OnDiagonal rows cols k Int64.maxValue →
      ∃ is d, r.diagonal k = .ok d ∧ is.Pairwise (· < ·) ∧
        (∀ i, i ∈ is ↔ OnDiagonal rows cols k i) ∧
        (∃ b, d.dims = [b] ∧ b.CountsTo is.length) ∧
        List.Forall₂ (fun i x => (i + k).toInt = i.toInt + k.toInt ∧ r.select [i, i + k] = .ok x)
          is d.elements.toList) ∧
    (∀ i, CutOff rows cols k i → (∀ j, ¬ OnDiagonal rows cols k j) ∧
      r.diagonal k = fault (.indexOutOfBounds (i + k) cols.lower cols.upper)) ∧
    (OnDiagonal rows cols k Int64.maxValue →
      r.diagonal k = fault (.indexOutOfBounds Int64.minValue rows.lower rows.upper)) ∧
    ∀ result, Checked.Loops (r.diagonalRound k (lastOn rows cols k)) (firstOn rows cols k, #[])
      result ↔ result = r.diagonal k := by
  refine ⟨fun hcut hmax => ?_, fun i hi => ⟨hi.not_onDiagonal, diagonal_of_cutOff hdims hi⟩,
    fun hmax => ?_, fun result => (diagonal_loops exact hdims k).iff_eq⟩
  · obtain ⟨xs, hxs⟩ := exact.exists_along (k := k) hdims hcut
    have hall := Checked.mapM_eq_ok_iff.mp hxs
    have hlen := hall.length_eq
    have hle := length_interval_firstOn_le exact hdims hcut
    refine ⟨_, vector xs.toArray, ?_, interval_pairwise _ _, fun i => mem_interval_iff hcut,
      ⟨_, rfl, ?_⟩, ?_⟩
    · rw [diagonal_eq hdims, hxs]
      exact if_neg (mt (lastOn_eq_maxValue_iff hcut).mp hmax)
    · rw [hlen] at hle ⊢
      exact Bounds.countsTo_upTo hle
    · refine (List.forall₂_and_left ..).mpr ⟨fun i hi => ?_, hall⟩
      exact ((mem_interval_iff hcut).mp hi).toInt_add
  · have hcut (i : Int64) : ¬ CutOff rows cols k i := hmax.not_cutOff
    obtain ⟨xs, hxs⟩ := exact.exists_along (k := k) hdims hcut
    rw [diagonal_eq hdims, hxs]
    exact if_pos ((lastOn_eq_maxValue_iff hcut).mpr hmax)

theorem diagonal_picks_of_six : sixNumbers.Exact ∧ (∀ i, ¬ CutOff ⟨0, 1⟩ ⟨-1, 1⟩ 1 i) ∧
    ¬ OnDiagonal ⟨0, 1⟩ ⟨-1, 1⟩ 1 Int64.maxValue ∧ sixNumbers.diagonal 1 = .ok (vector #[3]) ∧
    ∃ is : List Int64, is.length = 1 ∧ (∀ i, i ∈ is ↔ OnDiagonal ⟨0, 1⟩ ⟨-1, 1⟩ 1 i) ∧
      List.Forall₂ (fun i x => (i + 1).toInt = i.toInt + 1 ∧ sixNumbers.select [i, i + 1] = .ok x)
        is [3] := by
  have hcut (i : Int64) : ¬ CutOff ⟨0, 1⟩ ⟨-1, 1⟩ 1 i := by
    rintro (⟨rfl, h, -⟩ | ⟨rfl, h, -⟩)
    · exact absurd h (by decide)
    · exact absurd h (by decide)
  have hmax : ¬ OnDiagonal ⟨0, 1⟩ ⟨-1, 1⟩ 1 Int64.maxValue := fun h => absurd h.row (by decide)
  have six : sixNumbers.diagonal 1 = .ok (vector #[3]) := rfl
  obtain ⟨is, d, hd, -, hmem, -, hall⟩ :=
    (diagonal_picks sixNumbers ⟨0, 1⟩ ⟨-1, 1⟩ 1 rfl sixNumbers_exact).1 hcut hmax
  obtain rfl := Except.ok.inj (six.symm.trans hd)
  exact ⟨sixNumbers_exact, hcut, hmax, six, is, hall.length_eq, hmem, hall⟩

/-- A row of one element, in the line of the least integer. -/
def corner : Row Nat := ⟨[⟨Int64.minValue, Int64.minValue⟩, ⟨-5, -5⟩], #[7]⟩

/-- No index is on the diagonal of `corner` that lies furthest to the right, which faults all the
same. -/
theorem corner_diagonal_faults : corner.Exact ∧
    (∀ i, ¬ OnDiagonal ⟨Int64.minValue, Int64.minValue⟩ ⟨-5, -5⟩ Int64.maxValue i) ∧
    corner.diagonal Int64.maxValue = fault (.indexOutOfBounds (-1) (-5) (-5)) := by
  refine ⟨⟨by decide, by decide⟩, fun i hi => ?_, rfl⟩
  have hu := hi.le_upper
  have hl := i.le_toInt
  have five : (-5 : Int64).toInt = -5 := rfl
  rw [Int64.toInt_maxValue, five] at hu
  omega

end Row

end Algol68
