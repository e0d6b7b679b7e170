import Algol68.Proofs.Row.Diagonal

/-! Transposition. A transposed row is read off column by column, so that its positions are those of the
row with lines and columns exchanged. A diagonal becomes the diagonal of the opposite offset. -/

namespace Algol68

theorem isSome_narrow?_iff {n : Int} :
    (narrow? n).isSome = true ↔ -0x8000000000000000 ≤ n ∧ n ≤ 0x7FFFFFFFFFFFFFFF := by
  rw [narrow?]
  split
  case isTrue h => exact iff_of_true rfl h
  case isFalse h => exact iff_of_false nofun h

namespace Row

variable {α : Type} {r t : Row α} {rows cols : Bounds} {i j k : Int64}

/-! Positions, column by column. -/

/-- The positions of `n` lines of `m` elements, in the order of columns. -/
def columnwise (n m : Nat) : List Nat :=
  (List.range m).flatMap fun j => (List.range n).map fun i => i * m + j

theorem length_columnwise (n m : Nat) : (columnwise n m).length = m * n := by
  simp only [columnwise, List.length_flatMap, List.length_map, List.length_range, List.map_const',
    List.sum_replicate_nat]

theorem getElem?_columnwise {n m a b : Nat} (ha : a < n) (hb : b < m) :
    (columnwise n m)[b * n + a]? = some (a * m + b) := by
  rw [columnwise, getElem?_blocks (fun _ _ => by simp) (List.getElem?_range hb) ha, List.getElem?_map,
    List.getElem?_range ha, Option.map_some]

theorem lt_of_mem_columnwise {n m c : Nat} (h : c ∈ columnwise n m) : c < n * m := by
  simp only [columnwise, List.mem_flatMap, List.mem_map, List.mem_range] at h
  obtain ⟨b, hb, a, ha, rfl⟩ := h
  calc a * m + b < a * m + m := Nat.add_lt_add_left hb _
    _ = (a + 1) * m := (Nat.succ_mul ..).symm
    _ ≤ n * m := Nat.mul_le_mul_right _ ha

/-! The transposed row. -/

theorem transpose_eq (hdims : r.dims = [rows, cols]) :
    r.transpose = (do
      let xs ← (columnwise rows.count cols.count).mapM r.elementAt
      return ⟨[cols, rows], xs.toArray⟩) := by
  have hempty : (if rows.count = 0 then [] else columnwise rows.count cols.count) =
      columnwise rows.count cols.count := by
    split
    case isTrue hz =>
      have hlen := length_columnwise rows.count cols.count
      rw [hz, Nat.mul_zero, List.length_eq_zero_iff] at hlen
      rw [hz, hlen]
    case isFalse => rfl
  rw [← hempty, transpose, hdims]
  rfl

theorem Exact.size_eq (exact : r.Exact) (hdims : r.dims = [rows, cols]) :
    r.size = rows.count * cols.count := by
  have hsize := exact.size
  have hcounted := exact.counted
  rw [hdims, exactVolume_cons, exactVolume_cons, exactVolume_nil, Nat.mul_one] at hsize
  rw [hsize] at hcounted ⊢
  -- an extent that cannot be counted is only possible if the other one is zero
  rcases Nat.eq_zero_or_pos rows.extent with hr | hr
  · rw [Bounds.count, hr, Nat.zero_min, Nat.zero_mul, Nat.zero_mul]
  rcases Nat.eq_zero_or_pos cols.extent with hc | hc
  · rw [Bounds.count, Bounds.count, hc, Nat.zero_min, Nat.mul_zero, Nat.mul_zero]
  rw [Bounds.count, Bounds.count, Nat.min_eq_left ((Nat.le_mul_of_pos_right _ hc).trans hcounted),
    Nat.min_eq_left ((Nat.le_mul_of_pos_left _ hr).trans hcounted)]

/-- One row is the other with lines and columns exchanged. -/
structure Transposed (rows cols : Bounds) (r t : Row α) : Prop where
  dims : r.dims = [rows, cols]
  swapped : t.dims = [cols, rows]
  size : r.size = rows.count * cols.count
  size_eq : t.size = r.size
  getElem? : ∀ a b, a < rows.count → b < cols.count →
    t.elements[b * rows.count + a]? = r.elements[a * cols.count + b]?

theorem Exact.exists_transpose (exact : r.Exact) (hdims : r.dims = [rows, cols]) :
    ∃ t, r.transpose = .ok t ∧ Transposed rows cols r t := by
  have hsize := exact.size_eq hdims
  have hall : ∀ c ∈ columnwise rows.count cols.count, ∃ x, r.elementAt c = .ok x := by
    intro c hc
    have hlt : c < r.elements.size := by
      have hlt := lt_of_mem_columnwise hc
      rwa [← hsize] at hlt
    exact ⟨_, elementAt_eq_ok_iff.mpr (Array.getElem?_eq_getElem hlt)⟩
  obtain ⟨xs, hxs⟩ := Checked.exists_mapM hall
  refine ⟨⟨[cols, rows], xs.toArray⟩, ?_, hdims, rfl, hsize, ?_, fun a b ha hb => ?_⟩
  · rw [transpose_eq hdims, hxs]
    rfl
  · have hlen := (Checked.mapM_eq_ok_iff.mp hxs).length_eq
    rw [length_columnwise, Nat.mul_comm, ← hsize] at hlen
    exact hlen.symm
  · obtain ⟨x, hx, hget⟩ := Checked.getElem?_of_mapM hxs (getElem?_columnwise ha hb)
    rw [elementAt_eq_ok_iff.mp hget, ← hx, List.getElem?_toArray]

namespace Transposed

theorem symm (h : Transposed rows cols r t) : Transposed cols rows t r where
  dims := h.swapped
  swapped := h.dims
  size := by rw [h.size_eq, h.size, Nat.mul_comm]
  size_eq := h.size_eq.symm
  getElem? a b ha hb := (h.getElem? b a hb ha).symm

theorem unique {t' : Row α} (h : Transposed rows cols r t) (h' : Transposed rows cols r t') :
    t = t' := by
  obtain ⟨dims, elements⟩ := t
  obtain ⟨dims', elements'⟩ := t'
  obtain rfl : dims = dims' := h.swapped.trans h'.swapped.symm
  congr 1
  apply Array.ext_getElem?
  intro c
  by_cases hc : c < cols.count * rows.count
  · obtain ⟨b, a, hb, ha, rfl⟩ := exists_block hc
    exact (h.getElem? a b ha hb).trans (h'.getElem? a b ha hb).symm
  · have hsize : elements.size = cols.count * rows.count :=
      h.size_eq.trans (h.size.trans (Nat.mul_comm ..))
    have hsize' : elements'.size = elements.size := h'.size_eq.trans h.size_eq.symm
    rw [Array.getElem?_eq_none (by omega), Array.getElem?_eq_none (by omega)]

theorem exact (h : Transposed rows cols r t) (exact : r.Exact) : t.Exact := by
  refine ⟨?_, h.size_eq ▸ exact.counted⟩
  rw [h.size_eq, exact.size, h.dims, h.swapped]
  simp only [exactVolume_cons, exactVolume_nil, Nat.mul_one]
  exact Nat.mul_comm ..

theorem transpose_eq (h : Transposed rows cols r t) (exact : r.Exact) :
    r.transpose = .ok t := by
  obtain ⟨t', ht, h'⟩ := exact.exists_transpose h.dims
  rw [ht, h.unique h']

/-- The element at a subscript is found at the swapped one. -/
theorem exists_select (h : Transposed rows cols r t) (exact : r.Exact)
    (hi : rows.contains i = true) (hj : cols.contains j = true) :
    ∃ x, t.select [j, i] = .ok x ∧ r.select [i, j] = .ok x := by
  have hw : Within r.dims [i, j] := by
    rw [h.dims]
    exact .cons hi (.cons hj .nil)
  have hw' : Within t.dims [j, i] := by
    rw [h.swapped]
    exact .cons hj (.cons hi .nil)
  have hcounted := exact.of_within hw
  rw [h.dims] at hcounted
  have ha := Bounds.offset_lt_count (hcounted rows (by simp)) hi
  have hb := Bounds.offset_lt_count (hcounted cols (by simp)) hj
  obtain ⟨x, hx⟩ := exact.exists_select hw
  refine ⟨x, ?_, hx⟩
  rw [select_of_within hw, elementAt_eq_ok_iff, h.dims] at hx
  rw [select_of_within hw', elementAt_eq_ok_iff, h.swapped]
  simp only [place, volume_cons, volume_nil, Nat.mul_one, Nat.add_zero] at hx ⊢
  rw [h.getElem? _ _ ha hb, hx]

end Transposed

/-! Diagonals of the transposed row. -/

/-- The offset can be reversed in 64 bits, and the rows and columns be shifted on to each other. -/
structure Shifts (rows cols : Bounds) (k : Int64) : Prop where
  reversed : (narrow? (-k.toInt)).isSome = true
  rows_lower : (narrow? (rows.lower.toInt + k.toInt)).isSome = true
  rows_upper : (narrow? (rows.upper.toInt + k.toInt)).isSome = true
  cols_lower : (narrow? (cols.lower.toInt - k.toInt)).isSome = true
  cols_upper : (narrow? (cols.upper.toInt - k.toInt)).isSome = true

namespace Shifts

theorem toInt_neg (h : Shifts rows cols k) : (-k).toInt = -k.toInt := by
  have hk := isSome_narrow?_iff.mp h.reversed
  rw [Int64.toInt_neg, Int.bmod_eq_of_le] <;> omega

theorem symm (h : Shifts rows cols k) : Shifts cols rows (-k) where
  reversed := by
    rw [h.toInt_neg, isSome_narrow?_iff]
    have hmin := k.le_toInt
    have hmax := k.toInt_lt
    omega
  rows_lower := by
    rw [h.toInt_neg, ← Int.sub_eq_add_neg]
    exact h.cols_lower
  rows_upper := by
    rw [h.toInt_neg, ← Int.sub_eq_add_neg]
    exact h.cols_upper
  cols_lower := by
    rw [h.toInt_neg, Int.sub_neg]
    exact h.rows_lower
  cols_upper := by
    rw [h.toInt_neg, Int.sub_neg]
    exact h.rows_upper

theorem toInt_firstOn (h : Shifts rows cols k) :
    (firstOn rows cols k).toInt = max rows.lower.toInt (cols.lower.toInt - k.toInt) := by
  have hl := isSome_narrow?_iff.mp h.cols_lower
  rw [firstOn, toInt_max, toInt_saturate, min_eq_right hl.2, max_eq_right hl.1]

theorem toInt_lastOn (h : Shifts rows cols k) :
    (lastOn rows cols k).toInt = min rows.upper.toInt (cols.upper.toInt - k.toInt) := by
  have hu := isSome_narrow?_iff.mp h.cols_upper
  rw [lastOn, toInt_min, toInt_saturate, min_eq_right hu.2, max_eq_right hu.1]

theorem not_cutOff (h : Shifts rows cols k) (i : Int64) : ¬ CutOff rows cols k i := by
  have hl := isSome_narrow?_iff.mp h.cols_lower
  have hu := isSome_narrow?_iff.mp h.cols_upper
  simp only [CutOff, ← Int64.toInt_inj, Int64.toInt_minValue, Int64.toInt_maxValue]
  omega

/-- The columns of a diagonal are its rows, shifted. -/
theorem interval_eq_map (h : Shifts rows cols k) :
    interval (firstOn cols rows (-k)) (lastOn cols rows (-k)) =
      (interval (firstOn rows cols k) (lastOn rows cols k)).map (· + k) := by
  have hfirst : (firstOn cols rows (-k)).toInt = (firstOn rows cols k).toInt + k.toInt := by
    rw [h.toInt_firstOn, h.symm.toInt_firstOn, h.toInt_neg]
    omega
  have hlast : (lastOn cols rows (-k)).toInt = (lastOn rows cols k).toInt + k.toInt := by
    rw [h.toInt_lastOn, h.symm.toInt_lastOn, h.toInt_neg]
    omega
  have hlen : (lastOn rows cols k).toInt + k.toInt - ((firstOn rows cols k).toInt + k.toInt) + 1 =
      (lastOn rows cols k).toInt - (firstOn rows cols k).toInt + 1 := by omega
  rw [interval, interval, hfirst, hlast, hlen, List.map_map]
  apply List.map_congr_left
  intro n _
  rw [Function.comp_apply, Int.add_right_comm, Int64.ofInt_add, Int64.ofInt_toInt]

theorem exists_diagonal (h : Shifts rows cols k) (exact : r.Exact) (hdims : r.dims = [rows, cols])
    (hmax : rows.upper ≠ Int64.maxValue) :
    ∃ xs, r.along k (interval (firstOn rows cols k) (lastOn rows cols k)) = .ok xs ∧
      r.diagonal k = .ok (vector xs.toArray) := by
  obtain ⟨xs, hxs⟩ := exact.exists_along (k := k) hdims h.not_cutOff
  refine ⟨xs, hxs, ?_⟩
  rw [diagonal_eq hdims, hxs]
  refine if_neg fun hend => hmax (Int64.toInt_inj.mp ?_)
  have hu := (Bounds.contains_iff.mp ((lastOn_eq_maxValue_iff h.not_cutOff).mp hend).row).2
  have hlt := rows.upper.toInt_lt
  rw [Int64.toInt_maxValue] at hu ⊢
  omega

end Shifts

theorem Transposed.along_eq (h : Transposed rows cols r t) (exact : r.Exact) {is : List Int64}
    (his : ∀ i ∈ is, OnDiagonal rows cols k i) :
    t.along (-k) (is.map (· + k)) = r.along k is := by
  rw [along, along, List.mapM_map]
  refine Checked.mapM_congr fun i hi => ?_
  have hback : i + k + -k = i := by
    rw [Int64.add_assoc, Int64.add_right_neg, Int64.add_zero]
  have hcol : cols.contains (i + k) = true := by
    rw [Bounds.contains_iff, (his i hi).toInt_add]
    exact ⟨(his i hi).lower_le, (his i hi).le_upper⟩
  obtain ⟨x, hx, hx'⟩ := h.exists_select exact (his i hi).row hcol
  rw [Function.comp_apply, hback, hx, hx']

/-- Where nothing is cut off and no count reaches the greatest integer, a diagonal is the diagonal of
the opposite offset of the transposed row. -/
theorem Transposed.exists_diagonal (h : Transposed rows cols r t) (exact : r.Exact)
    (shifts : Shifts rows cols k) (hrows : rows.upper ≠ Int64.maxValue)
    (hcols : cols.upper ≠ Int64.maxValue) :
    ∃ d, r.diagonal k = .ok d ∧ t.diagonal (-k) = .ok d := by
  obtain ⟨xs, hxs, hd⟩ := shifts.exists_diagonal exact h.dims hrows
  obtain ⟨ys, hys, hd'⟩ := shifts.symm.exists_diagonal (h.exact exact) h.swapped hcols
  rw [shifts.interval_eq_map,
    h.along_eq exact fun i hi => (mem_interval_iff shifts.not_cutOff).mp hi, hxs] at hys
  obtain rfl := Except.ok.inj hys
  exact ⟨_, hd, hd'⟩

/-- Transposition swaps the bounds and the subscripts, and undoes itself. It takes a diagonal to the
diagonal of the opposite offset, if both can be counted along in 64 bits. -/
theorem transpose_law (r : Row α) (rows cols : Bounds) (hdims : r.dims = [rows, cols])
    (exact : r.Exact) :
    ∃ t, r.transpose = .ok t ∧ t.dims = [cols, rows] ∧
      (∀ i j, rows.contains i = true → cols.contains j = true →
        ∃ x, t.select [j, i] = .ok x ∧ r.select [i, j] = .ok x) ∧
      t.transpose = .ok r ∧
      (rows.upper ≠ Int64.maxValue → cols.upper ≠ Int64.maxValue → ∀ k, Shifts rows cols k →
        ∃ d, r.diagonal k = .ok d ∧ t.diagonal (-k) = .ok d) := by
  obtain ⟨t, ht, h⟩ := exact.exists_transpose hdims
  refine ⟨t, ht, h.swapped, fun i j hi hj => h.exists_select exact hi hj,
    h.symm.transpose_eq (h.exact exact), fun hrows hcols k shifts => ?_⟩
  exact h.exists_diagonal exact shifts hrows hcols

theorem transpose_law_of_six : sixNumbers.Exact ∧ Shifts ⟨0, 1⟩ ⟨-1, 1⟩ 1 ∧
    ∃ t, sixNumbers.transpose = .ok t ∧ t.elements = #[1, 4, 2, 5, 3, 6] ∧
      t.transpose = .ok sixNumbers ∧ t.diagonal (-1) = .ok (vector #[3]) := by
  have shifts : Shifts ⟨0, 1⟩ ⟨-1, 1⟩ 1 := ⟨rfl, rfl, rfl, rfl, rfl⟩
  obtain ⟨t, ht, -, -, hback, hdiagonal⟩ :=
    transpose_law sixNumbers ⟨0, 1⟩ ⟨-1, 1⟩ rfl sixNumbers_exact
  have six : sixNumbers.transpose = .ok ⟨[⟨-1, 1⟩, ⟨0, 1⟩], #[1, 4, 2, 5, 3, 6]⟩ := rfl
  obtain rfl := Except.ok.inj (six.symm.trans ht)
  obtain ⟨d, hd, hd'⟩ := hdiagonal (by decide) (by decide) 1 shifts
  have three : sixNumbers.diagonal 1 = .ok (vector #[3]) := rfl
  obtain rfl := Except.ok.inj (three.symm.trans hd)
  exact ⟨sixNumbers_exact, shifts, _, ht, rfl, hback, hd'⟩

end Row

end Algol68
