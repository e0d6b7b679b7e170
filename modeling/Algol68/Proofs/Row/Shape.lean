import Algol68.Value.Display
import Mathlib.Algebra.Order.BigOperators.Group.List
import Mathlib.Data.ENat.Basic

/-! How many elements a row has. The operations on rows compute bounds and elements apart from each
other; the elements they come up with are as many as the exact extents of the bounds ask for, as long as
their number can be written as a bound. -/

namespace Algol68

/-- Whatever a checked computation results in has a property. -/
def Checked.Gives {α : Type} (Q : α → Prop) (c : Checked α) : Prop := ∀ a, c = .ok a → Q a

namespace Checked.Gives

variable {α β : Type} {P : α → Prop} {Q : β → Prop}

theorem ok {a : α} (h : P a) : Gives P (.ok a) := by
  rintro _ ⟨⟩
  exact h

theorem pure {a : α} (h : P a) : Gives P (Pure.pure a) := ok h

theorem error (f : Fault) : Gives P (.error f) := nofun

theorem fault (c : Cause) : Gives P (fault c) := error _

theorem mismatch (expected : String) (v : Value) : Gives P (Value.mismatch expected v) := error _

theorem bind {x : Checked α} {f : α → Checked β} (hx : Gives P x) (hf : ∀ a, P a → Gives Q (f a)) :
    Gives Q (x >>= f) := by
  cases x with
  | error e => exact error e
  | ok a => exact hf a (hx a rfl)

theorem mono {x : Checked α} {P' : α → Prop} (hx : Gives P x) (h : ∀ a, P a → P' a) : Gives P' x :=
  fun a ha => h a (hx a ha)

theorem ifNot {c : Prop} [Decidable c] {cause : Cause} {x : Checked α} (hx : Gives P x) :
    Gives P (if c then Algol68.fault cause else x) := by
  split
  · exact error _
  · exact hx

theorem mapM {f : β → Checked α} {bs : List β} (hf : ∀ b ∈ bs, Gives P (f b)) :
    Gives (fun as : List α => as.length = bs.length ∧ ∀ a ∈ as, P a) (bs.mapM f) := by
  induction bs with
  | nil => exact pure ⟨rfl, by simp⟩
  | cons b bs ih =>
    rw [List.mapM_cons]
    refine (hf b (List.mem_cons_self ..)).bind fun a ha => ?_
    refine (ih fun b hb => hf b (List.mem_cons_of_mem _ hb)).bind fun as has => pure ?_
    exact ⟨by simp [has.1], List.forall_mem_cons.mpr ⟨ha, has.2⟩⟩

end Checked.Gives

/-! Counts and extents. -/

theorem toInt_saturate (n : Int) :
    (saturate n).toInt = max (-0x8000000000000000) (min 0x7FFFFFFFFFFFFFFF n) := by
  rw [saturate, Int64.toInt_ofInt_of_le] <;> omega

theorem toInt_max (a b : Int64) : (max a b).toInt = max a.toInt b.toInt := by
  rw [Int.max_def]
  simp only [← Int64.le_iff_toInt_le]
  change (if a ≤ b then b else a).toInt = _
  split <;> rfl

theorem toInt_min (a b : Int64) : (min a b).toInt = min a.toInt b.toInt := by
  rw [Int.min_def]
  simp only [← Int64.le_iff_toInt_le]
  change (if a ≤ b then a else b).toInt = _
  split <;> rfl

namespace Bounds

variable {b : Bounds}

theorem contains_of_extent (h : b.extent = 0) (i : Int64) : b.contains i = false := by
  rw [Bool.eq_false_iff]
  simp only [contains, Bool.and_eq_true, decide_eq_true_eq, Int64.le_iff_toInt_le, ne_eq]
  simp only [extent] at h
  omega

theorem extent_le (b : Bounds) : b.extent ≤ maxCount + 1 := by
  have hl := b.lower.le_toInt
  have hu := b.upper.toInt_lt
  simp only [extent, maxCount]
  omega

theorem count_le_extent (b : Bounds) : b.count ≤ b.extent := Nat.min_le_left ..

theorem count_eq (h : b.count < maxCount) : b.count = b.extent := by
  simp only [count] at h ⊢
  omega

theorem extent_upTo (n : Nat) : (upTo n).extent = min n 0x7FFFFFFFFFFFFFFF := by
  have one : (1 : Int64).toInt = 1 := rfl
  simp only [extent, upTo, toInt_saturate, one]
  omega

theorem count_upTo (n : Nat) : (upTo n).count = min n 0x7FFFFFFFFFFFFFFF := by
  simp only [count, extent_upTo, maxCount]
  omega

theorem extent_single (k : Int64) : (⟨k, k⟩ : Bounds).extent = 1 := by
  simp [extent]

theorem count_single (k : Int64) : (⟨k, k⟩ : Bounds).count = 1 := by
  simp [count, extent_single, maxCount]

end Bounds

/-- The number of elements under a list of bounds, counted exactly. -/
def exactVolume (dims : List Bounds) : Nat := (dims.map Bounds.extent).prod

@[simp] theorem exactVolume_nil : exactVolume [] = 1 := rfl

@[simp] theorem exactVolume_cons (b : Bounds) (dims : List Bounds) :
    exactVolume (b :: dims) = b.extent * exactVolume dims := by
  simp [exactVolume]

@[simp] theorem volume_nil : volume [] = 1 := rfl

@[simp] theorem volume_cons (b : Bounds) (dims : List Bounds) :
    volume (b :: dims) = b.count * volume dims := rfl

theorem volume_le_exactVolume (dims : List Bounds) : volume dims ≤ exactVolume dims := by
  induction dims with
  | nil => exact Nat.le_refl _
  | cons b dims ih =>
    rw [volume_cons, exactVolume_cons]
    exact Nat.mul_le_mul b.count_le_extent ih

theorem exactVolume_eq {dims : List Bounds} (h : volume dims < maxCount) :
    exactVolume dims = volume dims := by
  induction dims with
  | nil => rfl
  | cons b dims ih =>
    rw [volume_cons] at h
    rw [volume_cons, exactVolume_cons]
    rcases Nat.eq_zero_or_pos b.count with hb | hb
    · have hextent := Bounds.count_eq (b := b) (by rw [hb]; exact Nat.succ_pos _)
      rw [← hextent, hb, Nat.zero_mul, Nat.zero_mul]
    · have hv : volume dims ≤ b.count * volume dims := Nat.le_mul_of_pos_left _ hb
      rw [ih (by omega)]
      rcases Nat.eq_zero_or_pos (volume dims) with hz | hz
      · rw [hz, Nat.mul_zero, Nat.mul_zero]
      · have hc : b.count ≤ b.count * volume dims := Nat.le_mul_of_pos_right _ hz
        rw [← Bounds.count_eq (by omega)]

/-- The number of elements of a well-formed row with the given bounds that has at most `N` elements. -/
structure Shaped (N : ℕ∞) (dims : List Bounds) (size : Nat) : Prop where
  exact : size < 2 ^ 63 → size = exactVolume dims
  volume_le : volume dims ≤ size
  le : (size : ℕ∞) ≤ N

namespace Shaped

variable {N M : ℕ∞} {dims : List Bounds} {size : Nat}

theorem of_volume (h : size = volume dims) (hN : (size : ℕ∞) ≤ N) : Shaped N dims size := by
  refine ⟨fun hlt => ?_, Nat.le_of_eq h.symm, hN⟩
  rw [exactVolume_eq (by rw [← h, maxCount]; omega), h]

theorem of_le (h : Shaped M dims size) (hN : (size : ℕ∞) ≤ N) : Shaped N dims size :=
  ⟨h.exact, h.volume_le, hN⟩

theorem le_of_le (hN : (size : ℕ∞) ≤ N) {k : Nat} (hk : k ≤ size) : (k : ℕ∞) ≤ N :=
  (Nat.cast_le.mpr hk).trans hN

theorem single (h : Shaped N dims size) (k : Int64) : Shaped N (⟨k, k⟩ :: dims) size := by
  have hexact : exactVolume (⟨k, k⟩ :: dims) = exactVolume dims := by
    rw [exactVolume_cons, Bounds.extent_single, Nat.one_mul]
  have hvolume : volume (⟨k, k⟩ :: dims) = volume dims := by
    rw [volume_cons, Bounds.count_single, Nat.one_mul]
  exact ⟨fun hlt => hexact ▸ h.exact hlt, hvolume ▸ h.volume_le, h.le⟩

theorem swap {a b : Bounds} (h : Shaped N [a, b] size) : Shaped N [b, a] size := by
  have hexact : exactVolume [b, a] = exactVolume [a, b] := by
    simp [Nat.mul_comm]
  have hvolume : volume [b, a] = volume [a, b] := by
    simp [Nat.mul_comm]
  exact ⟨fun hlt => hexact ▸ h.exact hlt, hvolume ▸ h.volume_le, h.le⟩

theorem of_lengths (ns : List Nat) (hN : (ns.prod : ℕ∞) ≤ N) :
    Shaped N (ns.map Bounds.upTo) ns.prod := by
  have hle : exactVolume (ns.map Bounds.upTo) ≤ ns.prod := by
    clear hN
    induction ns with
    | nil => exact Nat.le_refl _
    | cons n ns ih =>
      rw [List.map_cons, exactVolume_cons, List.prod_cons, Bounds.extent_upTo]
      exact Nat.mul_le_mul (Nat.min_le_left ..) ih
  refine ⟨fun hlt => ?_, (volume_le_exactVolume _).trans hle, hN⟩
  clear hle hN
  induction ns with
  | nil => rfl
  | cons n ns ih =>
    rw [List.prod_cons] at hlt
    rw [List.map_cons, exactVolume_cons, List.prod_cons, Bounds.extent_upTo]
    rcases Nat.eq_zero_or_pos n with rfl | hn
    · simp
    · have hprod : ns.prod ≤ n * ns.prod := Nat.le_mul_of_pos_left _ hn
      rw [← ih (by omega)]
      rcases Nat.eq_zero_or_pos ns.prod with hz | hz
      · rw [hz, Nat.mul_zero, Nat.mul_zero]
      · have hle : n ≤ n * ns.prod := Nat.le_mul_of_pos_right _ hz
        rw [Nat.min_eq_left (by omega)]

theorem vector {n : Nat} (hN : (n : ℕ∞) ≤ N) : Shaped N [.upTo n] n := by
  have h := of_lengths (N := N) [n] (by simpa using hN)
  simpa using h

theorem empty (dims : Nat) : Shaped N (List.replicate (max dims 1) ⟨1, 0⟩) 0 := by
  apply of_volume
  · obtain ⟨k, hk⟩ : ∃ k, max dims 1 = k + 1 := ⟨max dims 1 - 1, by omega⟩
    have none : (⟨1, 0⟩ : Bounds).count = 0 := rfl
    rw [hk, List.replicate_succ, volume_cons, none, Nat.zero_mul]
  · simp

/-- Under a new dimension counted from one there are as many elements as in all the parts. -/
theorem stacked {ns : List Nat} (hs : ∀ n ∈ ns, Shaped ⊤ dims n) :
    Shaped ⊤ (.upTo ns.length :: dims) ns.sum := by
  refine ⟨fun hlt => ?_, ?_, le_top⟩
  · have each : ∀ n ∈ ns, n = exactVolume dims := by
      intro n hn
      have hle : n ≤ ns.sum := List.le_sum_of_mem hn
      exact (hs n hn).exact (by omega)
    have hsum : ns.sum = ns.length * exactVolume dims := by
      rw [List.eq_replicate_of_mem each, List.sum_replicate_nat, List.length_replicate]
    rw [exactVolume_cons, Bounds.extent_upTo, hsum]
    rcases Nat.eq_zero_or_pos (exactVolume dims) with hz | hpos
    · rw [hz, Nat.mul_zero, Nat.mul_zero]
    · have hle : ns.length ≤ ns.length * exactVolume dims := Nat.le_mul_of_pos_right _ hpos
      rw [Nat.min_eq_left (by omega)]
  · have hsum : ns.length * volume dims ≤ ns.sum := by
      induction ns with
      | nil => simp
      | cons n ns ih =>
        have hn := (hs n (List.mem_cons_self ..)).volume_le
        have hrest := ih fun n hn => hs n (List.mem_cons_of_mem _ hn)
        rw [List.length_cons, List.sum_cons, Nat.succ_mul]
        omega
    rw [volume_cons, Bounds.count_upTo]
    exact (Nat.mul_le_mul_right _ (Nat.min_le_left ..)).trans hsum

end Shaped

/-! Rows. -/

namespace Row

variable {α : Type} {N : ℕ∞} {P : α → Prop} {r : Row α}

/-- A well-formed row of at most `N` elements, each of which has a property. -/
structure Fits (N : ℕ∞) (P : α → Prop) (r : Row α) : Prop where
  shaped : Shaped N r.dims r.size
  elements : ∀ x ∈ r.elements, P x

namespace Fits

theorem top (h : r.Fits N P) : r.Fits ⊤ P := ⟨h.shaped.of_le le_top, h.elements⟩

theorem vector {xs : Array α} (hN : (xs.size : ℕ∞) ≤ N) (hP : ∀ x ∈ xs, P x) :
    Fits N P (.vector xs) := ⟨.vector hN, hP⟩

theorem empty (dims : Nat) : Fits N P (.empty dims) := ⟨.empty dims, by simp [Row.empty]⟩

theorem enclose (h : r.Fits N P) : r.enclose.Fits N P := ⟨h.shaped.single 1, h.elements⟩

theorem elementAt (h : r.Fits N P) (k : Nat) : Checked.Gives P (r.elementAt k) := by
  simp only [Row.elementAt]
  split
  · next x hx => exact .ok (h.elements x (Array.mem_of_getElem? hx))
  · exact .fault _

theorem select (h : r.Fits N P) (subscripts : List Int64) :
    Checked.Gives P (r.select subscripts) :=
  Checked.Gives.bind (P := fun _ => True) (fun _ _ => trivial) fun k _ => h.elementAt k

theorem asMatrix (h : r.Fits N P) (k : Int64) (column : Bool) :
    Checked.Gives (Fits N P) (r.asMatrix k column) := by
  obtain ⟨dims, elements⟩ := r
  rcases dims with _ | ⟨b, _ | ⟨c, dims⟩⟩
  · exact .fault _
  · refine .ok ⟨?_, h.elements⟩
    have single : Shaped N [⟨k, k⟩, b] elements.size := h.shaped.single k
    cases column with
    | true => exact single.swap
    | false => exact single
  · exact .fault _

end Fits

/-! The part of a row that indexers pick. -/

theorem range_gives (b : Bounds) (i : Indexer) :
    Checked.Gives (fun range => range.2 ≤ b.count ∧ (i.isSubscript = true → range.2 = 1))
      (i.range b) := by
  cases i with
  | «at» i =>
    simp only [Indexer.range]
    split
    · next hi =>
      refine .ok ⟨?_, fun _ => rfl⟩
      simp only [Bounds.contains, Bool.and_eq_true, decide_eq_true_eq, Int64.le_iff_toInt_le] at hi
      simp only [Bounds.count, Bounds.extent, maxCount]
      omega
    · exact .fault _
  | trim lower upper =>
    simp only [Indexer.range]
    generalize Indexer.trimmed b lower upper = t
    split
    · next he =>
      refine .ok ⟨?_, nofun⟩
      simp only [Bounds.isEmpty, decide_eq_true_eq, Int64.lt_iff_toInt_lt] at he
      simp only [Bounds.count, Bounds.extent, maxCount]
      omega
    · split
      · exact .fault _
      · split
        · exact .fault _
        · next hl hu =>
          refine .ok ⟨?_, nofun⟩
          simp only [Bounds.contains, Bool.and_eq_true, decide_eq_true_eq, Int64.le_iff_toInt_le,
            Bool.not_eq_true', Bool.not_eq_false] at hl hu
          simp only [Bounds.count, Bounds.extent, maxCount]
          omega

/-- The bounds that trimmers leave. -/
def keptBounds (indexers : List Indexer) (picked : List (Int64 × Nat)) : List Bounds :=
  (indexers.zip picked).filterMap fun (i, range) =>
    if i.isSubscript then none else some (Bounds.upTo range.2)

/-- The ranges picked are within the bounds, and only the trimmed ones count. -/
theorem ranges_gives {dims : List Bounds} {indexers : List Indexer}
    (hl : indexers.length = dims.length) :
    Checked.Gives (fun picked => (picked.map Prod.snd).prod ≤ volume dims ∧
      ∃ ns : List Nat, keptBounds indexers picked = ns.map Bounds.upTo ∧
        ns.prod = (picked.map Prod.snd).prod)
      (ranges dims indexers) := by
  induction dims generalizing indexers with
  | nil =>
    obtain rfl := List.length_eq_zero_iff.mp hl
    exact .pure ⟨Nat.le_refl _, [], rfl, rfl⟩
  | cons b dims ih =>
    cases indexers with
    | nil => cases hl
    | cons i indexers =>
      rw [ranges]
      refine (range_gives b i).bind fun range hrange => ?_
      refine (ih (Nat.succ.inj hl)).bind fun picked hpicked => .pure ?_
      obtain ⟨hle, ns, hns, hprod⟩ := hpicked
      refine ⟨?_, ?_⟩
      · rw [List.map_cons, List.prod_cons, volume_cons]
        exact Nat.mul_le_mul hrange.1 hle
      · cases hi : i.isSubscript with
        | true =>
          refine ⟨ns, ?_, ?_⟩
          · simpa [keptBounds, hi] using hns
          · rw [List.map_cons, List.prod_cons, hrange.2 hi, Nat.one_mul, hprod]
        | false =>
          refine ⟨range.2 :: ns, ?_, ?_⟩
          · simpa [keptBounds, hi] using hns
          · rw [List.map_cons, List.prod_cons, List.prod_cons, hprod]

theorem length_subscriptsWithin (picked : List (Int64 × Nat)) :
    (subscriptsWithin picked).length = (picked.map Prod.snd).prod := by
  induction picked with
  | nil => rfl
  | cons range picked ih =>
    obtain ⟨first, n⟩ := range
    simp only [subscriptsWithin, List.length_flatMap, List.length_map, ih, List.map_cons,
      List.prod_cons, List.map_const', List.sum_replicate_nat, List.length_range]

theorem Fits.trim (h : r.Fits N P) (indexers : List Indexer) :
    Checked.Gives (Fits N P) (r.trim indexers) := by
  rw [Row.trim]
  split
  · exact .bind (P := fun _ => False) (.fault _) nofun
  · next hl =>
    have hl : indexers.length = r.dims.length := not_not.mp hl
    refine (ranges_gives hl).bind fun picked hpicked => ?_
    obtain ⟨hle, ns, hns, hprod⟩ := hpicked
    have hsize : ((picked.map Prod.snd).prod : ℕ∞) ≤ N :=
      Shaped.le_of_le h.shaped.le (hle.trans h.shaped.volume_le)
    have shaped : Shaped N (keptBounds indexers picked) (picked.map Prod.snd).prod := by
      rw [hns, ← hprod]
      exact .of_lengths ns (by rw [hprod]; exact hsize)
    change Checked.Gives (Fits N P) (if (picked.map Prod.snd).prod = 0 then
      pure ⟨keptBounds indexers picked, #[]⟩ else do
        let elements ← (subscriptsWithin picked).mapM r.select
        pure ⟨keptBounds indexers picked, elements.toArray⟩)
    split
    · next hz =>
      rw [hz] at shaped
      exact .pure ⟨shaped, by simp⟩
    · refine (Checked.Gives.mapM fun subscripts _ => h.select subscripts).bind fun elements he => ?_
      rw [length_subscriptsWithin] at he
      refine .pure ⟨?_, by simpa using he.2⟩
      rw [← he.1] at shaped
      exact shaped

/-- A row of two dimensions has as many elements as its rows have, each. -/
theorem Fits.transpose (h : r.Fits N P) : Checked.Gives (Fits N P) r.transpose := by
  obtain ⟨dims, elements⟩ := r
  rcases dims with _ | ⟨rows, _ | ⟨cols, _ | ⟨b, dims⟩⟩⟩
  · exact .fault _
  · exact .fault _
  · have hvolume : rows.count * cols.count ≤ elements.size := by
      have hle := h.shaped.volume_le
      rw [volume_cons, volume_cons, volume_nil, Nat.mul_one] at hle
      exact hle
    simp only [Row.transpose]
    refine (Checked.Gives.mapM fun k _ => h.elementAt k).bind fun xs hxs => .pure ?_
    obtain ⟨hlen, hmem⟩ := hxs
    have hlen : xs.length = cols.count * rows.count := by
      rw [hlen]
      split
      · next hz => rw [hz, Nat.mul_zero, List.length_nil]
      · simp only [List.length_flatMap, List.length_map, List.length_range, List.map_const',
          List.sum_replicate_nat]
    refine ⟨.of_volume ?_ (Shaped.le_of_le h.shaped.le ?_), by simpa using hmem⟩
    · simp [size, hlen]
    · simp only [size, List.size_toArray, hlen]
      rw [Nat.mul_comm]
      exact hvolume
  · exact .fault _

/-- The positions on a diagonal are in as many rows and in as many columns. -/
theorem length_interval_le {rows cols : Bounds} {k : Int64} {first last : Int64}
    (hf : first = max rows.lower (saturate (cols.lower.toInt - k.toInt)))
    (hl : last = min rows.upper (saturate (cols.upper.toInt - k.toInt)))
    (hc : 0 < cols.extent) : (interval first last).length ≤ rows.count * cols.count := by
  have hfirst : first.toInt = _ := (congrArg Int64.toInt hf).trans (toInt_max ..)
  have hlast : last.toInt = _ := (congrArg Int64.toInt hl).trans (toInt_min ..)
  rw [toInt_saturate] at hfirst hlast
  have hlen : (interval first last).length = (last.toInt - first.toInt + 1).toNat := by
    simp [interval]
  have hrl := rows.lower.le_toInt
  have hru := rows.upper.toInt_lt
  have hcl := cols.lower.le_toInt
  have hcu := cols.upper.toInt_lt
  have hrows : (interval first last).length ≤ rows.extent := by
    rw [hlen, Bounds.extent]
    omega
  have hcols : (interval first last).length ≤ cols.extent := by
    simp only [Bounds.extent] at hc
    rw [hlen, Bounds.extent]
    omega
  have hmax := rows.extent_le
  rcases Nat.lt_or_ge maxCount (interval first last).length with hbig | hsmall
  · have hr : rows.count = maxCount := Nat.min_eq_right (by omega)
    have hc : cols.count = maxCount := Nat.min_eq_right (by omega)
    rw [hr, hc]
    have hsq : maxCount + 1 ≤ maxCount * maxCount := by decide
    omega
  · have hr : (interval first last).length ≤ rows.count := by
      simp only [Bounds.count]
      omega
    have hc : 1 ≤ cols.count := by
      simp only [Bounds.count, maxCount]
      omega
    exact hr.trans (Nat.le_mul_of_pos_right _ hc)

theorem Fits.diagonal (h : r.Fits N P) (k : Int64) : Checked.Gives (Fits N P) (r.diagonal k) := by
  obtain ⟨dims, elements⟩ := r
  rcases dims with _ | ⟨rows, _ | ⟨cols, _ | ⟨b, dims⟩⟩⟩
  · exact .fault _
  · exact .fault _
  · have hvolume : rows.count * cols.count ≤ elements.size := by
      have hle := h.shaped.volume_le
      rw [volume_cons, volume_cons, volume_nil, Nat.mul_one] at hle
      exact hle
    simp only [Row.diagonal]
    rcases Nat.eq_zero_or_pos cols.extent with hz | hc
    · -- no subscript is within the bounds, so there is nothing to select
      have none (i : Int64) : Checked.Gives (fun _ => False)
          (Row.select ⟨[rows, cols], elements⟩ [i, i + k]) := by
        simp only [Row.select, position, positionIn, Bounds.contains_of_extent hz]
        split <;> exact nofun
      refine (Checked.Gives.mapM fun i _ => none i).bind fun xs hxs => .ifNot ?_
      obtain rfl := List.eq_nil_iff_forall_not_mem.mpr hxs.2
      exact .pure (.vector (by simp) (by simp))
    · refine (Checked.Gives.mapM fun i _ => h.select _).bind fun xs hxs => .ifNot (.pure ?_)
      obtain ⟨hlen, hmem⟩ := hxs
      refine .vector (Shaped.le_of_le h.shaped.le ?_) (by simpa using hmem)
      rw [List.size_toArray, hlen]
      exact (length_interval_le rfl rfl hc).trans hvolume
  · exact .fault _

theorem toList_foldl_append (parts : List (Array α)) (xs : Array α) :
    (parts.foldl (· ++ ·) xs).toList = xs.toList ++ parts.flatMap Array.toList := by
  induction parts generalizing xs with
  | nil => simp
  | cons ys parts ih => simp [ih]

/-- Rows of the same bounds make a row of one more dimension. -/
theorem stack_fits {β : Type} {rowOf : β → Checked (Row α)} {Q : β → Prop} (dims : Nat)
    (hrow : ∀ b, Q b → Checked.Gives (Fits ⊤ P) (rowOf b)) {bs : List β} (hQ : ∀ b ∈ bs, Q b) :
    Checked.Gives (Fits ⊤ P) (stack dims rowOf bs) := by
  cases bs with
  | nil => exact .ok (.empty dims)
  | cons b bs =>
    refine (hrow b (hQ b (List.mem_cons_self ..))).bind fun first hfirst => ?_
    have part (c : β) (hc : c ∈ bs) : Checked.Gives
        (fun xs : Array α => Shaped ⊤ first.dims xs.size ∧ ∀ x ∈ xs, P x)
        (do let r ← rowOf c; if r.dims = first.dims then return r.elements else fault .raggedDisplay) := by
      refine (hrow c (hQ c (List.mem_cons_of_mem _ hc))).bind fun r hr => ?_
      split
      · next hdims => exact .pure ⟨hdims ▸ hr.shaped, hr.elements⟩
      · exact .fault _
    refine (Checked.Gives.mapM part).bind fun parts hparts => .pure ?_
    obtain ⟨hlen, hparts⟩ := hparts
    have hsize : (parts.foldl (· ++ ·) first.elements).size =
        ((first.elements :: parts).map Array.size).sum := by
      rw [← Array.length_toList, toList_foldl_append]
      simp [List.length_flatMap]
    refine ⟨?_, fun x hx => ?_⟩
    · have stacked : Shaped ⊤ (.upTo ((first.elements :: parts).map Array.size).length :: first.dims)
          ((first.elements :: parts).map Array.size).sum := by
        refine .stacked fun n hn => ?_
        rw [List.map_cons, List.mem_cons, List.mem_map] at hn
        rcases hn with rfl | ⟨xs, hxs, rfl⟩
        · exact hfirst.shaped
        · exact (hparts xs hxs).1
      rw [← hsize, List.length_map, List.length_cons, hlen] at stacked
      exact stacked
    · rw [Array.mem_def, toList_foldl_append, List.mem_append, List.mem_flatMap] at hx
      rcases hx with hx | ⟨xs, hxs, hx⟩
      · exact hfirst.elements x (Array.mem_def.mpr hx)
      · exact (hparts xs hxs).2 x (Array.mem_def.mpr hx)

end Row

end Algol68
