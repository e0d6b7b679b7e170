import Algol68.Proofs.Row.Shape
import Mathlib.Data.List.Forall2

/-! Positions of subscripts. The elements of a row stand in the order of their full subscripts, the
last index varying fastest, so counting off the subscripts within some ranges is counting off
positions. -/

namespace Algol68

namespace Checked

variable {α β : Type} {f : α → Checked β} {xs : List α} {ys : List β}

theorem mapM_eq_ok_iff :
    xs.mapM f = .ok ys ↔ List.Forall₂ (fun x y => f x = .ok y) xs ys := by
  induction xs generalizing ys with
  | nil =>
    constructor
    · rintro ⟨⟩
      exact .nil
    · rintro ⟨⟩
      rfl
  | cons x xs ih =>
    rw [List.mapM_cons]
    constructor
    · intro h
      cases hx : f x with
      | error e =>
        rw [hx] at h
        cases h
      | ok y =>
        rw [hx] at h
        cases hxs : xs.mapM f with
        | error e =>
          rw [hxs] at h
          cases h
        | ok rest =>
          rw [hxs] at h
          cases h
          exact .cons hx (ih.mp hxs)
    · intro h
      cases h with
      | cons hx hxs =>
        rw [hx, ih.mpr hxs]
        rfl

theorem getElem?_of_mapM (h : xs.mapM f = .ok ys) {k : Nat} {x : α} (hx : xs[k]? = some x) :
    ∃ y, ys[k]? = some y ∧ f x = .ok y := by
  obtain ⟨hlen, hget⟩ := List.forall₂_iff_get.mp (mapM_eq_ok_iff.mp h)
  obtain ⟨hk, rfl⟩ := List.getElem?_eq_some_iff.mp hx
  have hk' : k < ys.length := hlen ▸ hk
  exact ⟨ys[k], List.getElem?_eq_getElem hk', hget k hk hk'⟩

theorem mapM_congr {g : α → Checked β} (h : ∀ x ∈ xs, f x = g x) : xs.mapM f = xs.mapM g := by
  induction xs with
  | nil => rfl
  | cons x xs ih =>
    rw [List.mapM_cons, List.mapM_cons, h x (List.mem_cons_self ..),
      ih fun x hx => h x (List.mem_cons_of_mem _ hx)]

theorem exists_mapM (h : ∀ x ∈ xs, ∃ y, f x = .ok y) : ∃ ys, xs.mapM f = .ok ys := by
  induction xs with
  | nil => exact ⟨[], rfl⟩
  | cons x xs ih =>
    obtain ⟨y, hy⟩ := h x (List.mem_cons_self ..)
    obtain ⟨ys, hys⟩ := ih fun x hx => h x (List.mem_cons_of_mem _ hx)
    exact ⟨y :: ys, mapM_eq_ok_iff.mpr (.cons hy (mapM_eq_ok_iff.mp hys))⟩

end Checked

theorem exists_block {n m k : Nat} (h : k < n * m) : ∃ a c, a < n ∧ c < m ∧ k = a * m + c :=
  ⟨k / m, k % m, Nat.div_lt_of_lt_mul (Nat.mul_comm n m ▸ h), Nat.mod_lt _ (Nat.pos_of_lt_mul_left h),
    (Nat.div_add_mod' ..).symm⟩

theorem getElem?_blocks {α β : Type} {f : β → List α} {xs : List β} {m : Nat}
    (hf : ∀ x ∈ xs, (f x).length = m) {a b : Nat} {x : β} (ha : xs[a]? = some x) (hb : b < m) :
    (xs.flatMap f)[a * m + b]? = (f x)[b]? := by
  induction xs generalizing a with
  | nil => cases ha
  | cons y xs ih =>
    obtain ⟨hy, hxs⟩ := List.forall_mem_cons.mp hf
    rw [List.flatMap_cons]
    cases a with
    | zero =>
      obtain rfl : y = x := Option.some.inj ha
      rw [Nat.zero_mul, Nat.zero_add, List.getElem?_append_left (by omega)]
    | succ a =>
      rw [Nat.succ_mul, List.getElem?_append_right (by omega), ← ih hxs ha]
      congr 1
      omega

namespace Bounds

variable {b : Bounds} {i : Int64}

theorem contains_iff :
    b.contains i = true ↔ b.lower.toInt ≤ i.toInt ∧ i.toInt ≤ b.upper.toInt := by
  simp [contains, Int64.le_iff_toInt_le]

theorem offset_lt_count (hb : b.extent ≤ maxCount) (hi : b.contains i = true) :
    (i.toInt - b.lower.toInt).toNat < b.count := by
  rw [contains_iff] at hi
  rw [count, Nat.min_eq_left hb, extent]
  omega

/-- From one to `n`, both written as they are. -/
def CountsTo (b : Bounds) (n : Nat) : Prop := b.lower.toInt = 1 ∧ b.upper.toInt = n

theorem countsTo_upTo {n : Nat} (hn : n ≤ 0x7FFFFFFFFFFFFFFF) : (upTo n).CountsTo n := by
  refine ⟨rfl, ?_⟩
  rw [upTo, toInt_saturate]
  omega

end Bounds

namespace Row

variable {α : Type} {dims : List Bounds} {s : List Int64} {r : Row α}

/-- A full subscript: one index for each dimension, within its bounds. -/
def Within (dims : List Bounds) (s : List Int64) : Prop :=
  List.Forall₂ (fun b i => b.contains i = true) dims s

/-- Every extent can be counted in 64 bits. -/
def Counted (dims : List Bounds) : Prop := ∀ b ∈ dims, b.extent ≤ maxCount

/-- The row-major position of a full subscript. -/
def place : List Bounds → List Int64 → Nat
  | b :: dims, i :: s => (i.toInt - b.lower.toInt).toNat * volume dims + place dims s
  | _, _ => 0

theorem Counted.volume (hc : Counted dims) : volume dims = exactVolume dims := by
  induction dims with
  | nil => rfl
  | cons b dims ih =>
    rw [volume_cons, exactVolume_cons, ih fun b hb => hc b (List.mem_cons_of_mem _ hb)]
    rw [Bounds.count, Nat.min_eq_left (hc b (List.mem_cons_self ..))]

theorem Within.length_eq (h : Within dims s) : s.length = dims.length :=
  (List.Forall₂.length_eq h).symm

theorem Within.volume_pos (h : Within dims s) : 0 < exactVolume dims := by
  induction h with
  | nil => exact Nat.one_pos
  | cons hi _ ih =>
    rw [exactVolume_cons]
    rw [Bounds.contains_iff] at hi
    refine Nat.mul_pos ?_ ih
    simp only [Bounds.extent]
    omega

theorem Within.counted (h : Within dims s) (hle : exactVolume dims ≤ maxCount) :
    Counted dims := by
  -- no extent is zero, so that each of them is at most the product
  induction h with
  | nil => simp [Counted]
  | @cons b i dims s hi hs ih =>
    rw [exactVolume_cons] at hle
    have hrest : 0 < exactVolume dims := Within.volume_pos hs
    have hfirst : 0 < b.extent := by
      rw [Bounds.contains_iff] at hi
      simp only [Bounds.extent]
      omega
    have hb : b.extent ≤ maxCount := (Nat.le_mul_of_pos_right _ hrest).trans hle
    exact List.forall_mem_cons.mpr ⟨hb, ih ((Nat.le_mul_of_pos_left _ hfirst).trans hle)⟩

theorem positionIn_of_within (h : Within dims s) : positionIn dims s = .ok (place dims s) := by
  induction h with
  | nil => rfl
  | cons hi _ ih =>
    rw [positionIn, if_pos hi, ih]
    rfl

theorem place_lt (hc : Counted dims) (h : Within dims s) : place dims s < volume dims := by
  induction h with
  | nil => exact Nat.one_pos
  | @cons b i dims s hi hs ih =>
    have hrest := ih fun b hb => hc b (List.mem_cons_of_mem _ hb)
    have hoff := Bounds.offset_lt_count (hc b (List.mem_cons_self ..)) hi
    calc place (b :: dims) (i :: s)
        < (i.toInt - b.lower.toInt).toNat * volume dims + volume dims :=
          Nat.add_lt_add_left hrest _
      _ = ((i.toInt - b.lower.toInt).toNat + 1) * volume dims := (Nat.succ_mul ..).symm
      _ ≤ b.count * volume dims := Nat.mul_le_mul_right _ hoff

/-- A subscript outside the bounds faults in a row whatever its elements are. -/
theorem positionIn_of_not_within (hl : s.length = dims.length) (h : ¬ Within dims s) :
    ∃ f, positionIn dims s = .error f := by
  induction dims generalizing s with
  | nil =>
    obtain rfl := List.length_eq_zero_iff.mp hl
    exact absurd .nil h
  | cons b dims ih =>
    cases s with
    | nil => cases hl
    | cons i s =>
      by_cases hi : b.contains i = true
      · obtain ⟨f, hf⟩ := ih (Nat.succ.inj hl) fun hs => h (.cons hi hs)
        refine ⟨f, ?_⟩
        rw [positionIn, if_pos hi, hf]
        rfl
      · rw [positionIn, if_neg hi]
        exact ⟨_, rfl⟩

/-! Selection. -/

theorem elementAt_eq_ok_iff {k : Nat} {x : α} :
    r.elementAt k = .ok x ↔ r.elements[k]? = some x := by
  rw [elementAt]
  cases r.elements[k]? with
  | none => constructor <;> intro h <;> cases h
  | some y => simp

theorem select_of_within (h : Within r.dims s) :
    r.select s = r.elementAt (place r.dims s) := by
  rw [select, position, positionIn_of_within h]
  rfl

theorem exists_select (hs : r.size = exactVolume r.dims) (hc : Counted r.dims)
    (h : Within r.dims s) : ∃ x, r.select s = .ok x := by
  have hlt : place r.dims s < r.elements.size := by
    have hplace := place_lt hc h
    rw [hc.volume, ← hs] at hplace
    exact hplace
  exact ⟨_, (select_of_within h).trans (elementAt_eq_ok_iff.mpr (Array.getElem?_eq_getElem hlt))⟩

/-- A row with an element for every full subscript, as many as a 64-bit count can say. -/
structure Exact (r : Row α) : Prop where
  size : r.size = exactVolume r.dims
  counted : r.size ≤ maxCount

theorem Exact.of_within (h : r.Exact) (hw : Within r.dims s) : Counted r.dims :=
  hw.counted (h.size ▸ h.counted)

theorem Exact.exists_select (h : r.Exact) (hw : Within r.dims s) : ∃ x, r.select s = .ok x :=
  Row.exists_select h.size (h.of_within hw) hw

/-! Counting off subscripts. -/

theorem saturate_add_zero (i : Int64) : saturate (i.toInt + (0 : Nat)) = i := by
  have hl := i.le_toInt
  have hu := i.toInt_lt
  rw [← Int64.toInt_inj, toInt_saturate]
  omega

theorem mem_subscriptsWithin {picked : List (Int64 × Nat)} :
    s ∈ subscriptsWithin picked ↔
      List.Forall₂ (fun range i => ∃ step : Nat, step < range.2 ∧
        saturate (range.1.toInt + step) = i) picked s := by
  induction picked generalizing s with
  | nil => simp [subscriptsWithin]
  | cons range picked ih =>
    obtain ⟨first, n⟩ := range
    simp only [subscriptsWithin, List.mem_flatMap, List.mem_range, List.mem_map,
      List.forall₂_cons_left_iff, ih]
    constructor
    · rintro ⟨step, hstep, s, hs, rfl⟩
      exact ⟨_, s, ⟨step, hstep, rfl⟩, hs, rfl⟩
    · rintro ⟨_, s, ⟨step, hstep, rfl⟩, hs, rfl⟩
      exact ⟨step, hstep, s, hs, rfl⟩

/-- The subscripts that begin with step `a` of the first range follow those that begin with an
earlier one. -/
theorem getElem?_subscriptsWithin (first : Int64) {n : Nat} (picked : List (Int64 × Nat))
    {a k : Nat} (ha : a < n) (hk : k < (picked.map Prod.snd).prod) :
    (subscriptsWithin ((first, n) :: picked))[a * (picked.map Prod.snd).prod + k]? =
      (subscriptsWithin picked)[k]?.map (saturate (first.toInt + a) :: ·) := by
  rw [subscriptsWithin, getElem?_blocks (fun a _ => ?_) (List.getElem?_range ha) hk,
    List.getElem?_map]
  rw [List.length_map, length_subscriptsWithin]

/-- The ranges of whole dimensions. -/
def whole (dims : List Bounds) : List (Int64 × Nat) := dims.map fun b => (b.lower, b.count)

theorem prod_whole (dims : List Bounds) : ((whole dims).map Prod.snd).prod = volume dims := by
  induction dims with
  | nil => rfl
  | cons b dims ih =>
    rw [volume_cons, ← ih]
    rfl

theorem toInt_saturate_lower {b : Bounds} {a : Nat} (ha : a < b.extent) :
    (saturate (b.lower.toInt + a)).toInt = b.lower.toInt + a := by
  have hl := b.lower.le_toInt
  have hu := b.upper.toInt_lt
  rw [Bounds.extent] at ha
  rw [toInt_saturate]
  omega

/-- All full subscripts, in order, have the positions from zero on. -/
theorem getElem?_whole (hc : Counted dims) {k : Nat} (hk : k < volume dims) :
    ∃ s, (subscriptsWithin (whole dims))[k]? = some s ∧ Within dims s ∧ place dims s = k := by
  induction dims generalizing k with
  | nil =>
    obtain rfl : k = 0 := by simpa using hk
    exact ⟨[], rfl, .nil, rfl⟩
  | cons b dims ih =>
    rw [volume_cons] at hk
    obtain ⟨a, c, ha, hlt, rfl⟩ := exists_block hk
    have hextent : a < b.extent := ha.trans_le b.count_le_extent
    have hint := toInt_saturate_lower hextent
    obtain ⟨s, hs, hw, hplace⟩ := ih (fun b hb => hc b (List.mem_cons_of_mem _ hb)) hlt
    refine ⟨saturate (b.lower.toInt + a) :: s, ?_, .cons ?_ hw, ?_⟩
    · have hblock := getElem?_subscriptsWithin b.lower (whole dims) ha ((prod_whole dims).symm ▸ hlt)
      rw [prod_whole] at hblock
      rw [whole, List.map_cons, ← whole, hblock, hs]
      rfl
    · rw [Bounds.contains_iff, hint]
      rw [Bounds.extent] at hextent
      omega
    · have hoff : (b.lower.toInt + a - b.lower.toInt).toNat = a := by omega
      rw [place, hint, hplace, hoff]

/-- Six numbers in two lines, counted from zero, of three columns, counted from minus one. -/
def sixNumbers : Row Nat := ⟨[⟨0, 1⟩, ⟨-1, 1⟩], #[1, 2, 3, 4, 5, 6]⟩

theorem sixNumbers_exact : sixNumbers.Exact := ⟨by decide, by decide⟩

end Row

end Algol68
