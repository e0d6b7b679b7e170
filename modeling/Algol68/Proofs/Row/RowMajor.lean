import Algol68.Proofs.Row.Trim

/-! Row-major order. The full subscripts of a row stand for the positions of its elements one by one,
and in the same order: lexicographic for the subscripts. -/

namespace Algol68.Row

variable {α : Type} {dims : List Bounds} {s t : List Int64} {r : Row α} {d k l : Nat} {b : Bounds}
  {i : Int64}

/-! ### The first subscript that is outside -/

/-- Dimension `d` is the first that does not contain its subscript. -/
structure FirstOutside (dims : List Bounds) (s : List Int64) (d : Nat) (b : Bounds) (i : Int64) :
    Prop where
  dimension : dims[d]? = some b
  subscript : s[d]? = some i
  outside : b.contains i = false
  before : Within (dims.take d) (s.take d)

theorem FirstOutside.positionIn (h : FirstOutside dims s d b i) :
    positionIn dims s = fault (.indexOutOfBounds i b.lower b.upper) := by
  obtain ⟨hb, hi, outside, before⟩ := h
  induction d generalizing dims s with
  | zero =>
    cases dims with
    | nil => cases hb
    | cons b' dims =>
      cases s with
      | nil => cases hi
      | cons i' s =>
        obtain rfl : b' = b := Option.some.inj hb
        obtain rfl : i' = i := Option.some.inj hi
        rw [Row.positionIn, if_neg (by simp [outside])]
  | succ d ih =>
    cases dims with
    | nil => cases hb
    | cons b' dims =>
      cases s with
      | nil => cases hi
      | cons i' s =>
        obtain ⟨hfirst, hrest⟩ := List.forall₂_cons.mp before
        rw [Row.positionIn, if_pos hfirst, ih hb hi hrest]
        rfl

theorem exists_firstOutside (hl : s.length = dims.length) (h : ¬ Within dims s) :
    ∃ d b i, FirstOutside dims s d b i := by
  induction dims generalizing s with
  | nil =>
    obtain rfl := List.length_eq_zero_iff.mp hl
    exact absurd .nil h
  | cons b dims ih =>
    cases s with
    | nil => cases hl
    | cons i s =>
      cases hi : b.contains i with
      | false => exact ⟨0, b, i, rfl, rfl, hi, .nil⟩
      | true =>
        obtain ⟨d, b', i', hb, hi', outside, before⟩ :=
          ih (Nat.succ.inj hl) fun hs => h (.cons hi hs)
        exact ⟨d + 1, b', i', hb, hi', outside, .cons hi before⟩

/-! ### Order -/

theorem place_lt_of_lt (hc : Counted dims) (hs : Within dims s) (ht : Within dims t) (h : s < t) :
    place dims s < place dims t := by
  induction hs generalizing t with
  | nil =>
    cases ht
    exact absurd h (List.lt_irrefl _)
  | @cons b i dims s hi hs ih =>
    cases ht with
    | @cons _ j _ t hj ht =>
      have counted : Counted dims := fun b hb => hc b (List.mem_cons_of_mem _ hb)
      rw [Bounds.contains_iff] at hi hj
      rcases List.cons_lt_cons_iff.mp h with lt | ⟨rfl, rest⟩
      · rw [Int64.lt_iff_toInt_lt] at lt
        have ahead : (i.toInt - b.lower.toInt).toNat + 1 ≤ (j.toInt - b.lower.toInt).toNat := by omega
        calc place (b :: dims) (i :: s)
            < ((i.toInt - b.lower.toInt).toNat + 1) * volume dims := by
              rw [place, Nat.succ_mul]
              exact Nat.add_lt_add_left (place_lt counted hs) _
          _ ≤ (j.toInt - b.lower.toInt).toNat * volume dims := Nat.mul_le_mul_right _ ahead
          _ ≤ place (b :: dims) (j :: t) := Nat.le_add_right ..
      · exact Nat.add_lt_add_left (ih counted ht rest) _

theorem eq_of_not_lt (hst : ¬ s < t) (hts : ¬ t < s) : s = t :=
  (inferInstance : @Std.Trichotomous (List Int64) (· < ·)).trichotomous s t hst hts

theorem place_lt_iff (hc : Counted dims) (hs : Within dims s) (ht : Within dims t) :
    place dims s < place dims t ↔ s < t := by
  refine ⟨fun h => ?_, place_lt_of_lt hc hs ht⟩
  by_contra hst
  by_cases hts : t < s
  · exact Nat.lt_asymm h (place_lt_of_lt hc ht hs hts)
  · exact Nat.ne_of_lt h (congrArg (place dims) (eq_of_not_lt hst hts))

theorem place_inj (hc : Counted dims) (hs : Within dims s) (ht : Within dims t)
    (h : place dims s = place dims t) : s = t := by
  refine eq_of_not_lt (fun hst => ?_) fun hts => ?_
  · exact Nat.ne_of_lt (place_lt_of_lt hc hs ht hst) h
  · exact Nat.ne_of_gt (place_lt_of_lt hc ht hs hts) h

/-! ### Positions -/

theorem within_lower (h : 0 < exactVolume dims) : Within dims (dims.map Bounds.lower) := by
  induction dims with
  | nil => exact .nil
  | cons b dims ih =>
    rw [exactVolume_cons] at h
    have extent := Nat.pos_of_mul_pos_right h
    refine .cons (Bounds.contains_iff.mpr ⟨le_rfl, ?_⟩) (ih (Nat.pos_of_mul_pos_left h))
    rw [Bounds.extent] at extent
    omega

theorem position_eq_ok_iff (hl : s.length = r.dims.length) :
    r.position s = .ok k ↔ Within r.dims s ∧ place r.dims s = k := by
  by_cases hs : Within r.dims s
  · rw [position, positionIn_of_within hs]
    simp [hs]
  · obtain ⟨f, hf⟩ := positionIn_of_not_within hl hs
    rw [position, hf]
    simp [hs]

theorem position_eq_error_iff (hl : s.length = r.dims.length) (f : Fault) :
    r.position s = .error f ↔
      ∃ d b i, FirstOutside r.dims s d b i ∧ f = .of (.indexOutOfBounds i b.lower b.upper) := by
  constructor
  · intro hf
    have stray : ¬ Within r.dims s := by
      intro hs
      rw [position, positionIn_of_within hs] at hf
      cases hf
    obtain ⟨d, b, i, first⟩ := exists_firstOutside hl stray
    rw [position, first.positionIn] at hf
    cases hf
    exact ⟨d, b, i, first, rfl⟩
  · rintro ⟨d, b, i, first, rfl⟩
    exact first.positionIn

theorem Exact.place_lt (exact : r.Exact) (hs : Within r.dims s) : place r.dims s < r.size := by
  have counted := exact.of_within hs
  rw [exact.size, ← counted.volume]
  exact Row.place_lt counted hs

theorem Exact.existsUnique_place (exact : r.Exact) (hk : k < r.size) :
    ∃! s, Within r.dims s ∧ place r.dims s = k := by
  rw [exact.size] at hk
  have counted := exact.of_within (within_lower (Nat.zero_lt_of_lt hk))
  rw [← counted.volume] at hk
  obtain ⟨s, -, hs, hplace⟩ := getElem?_whole counted hk
  exact ⟨s, ⟨hs, hplace⟩, fun t ht => place_inj counted ht.1 hs (ht.2.trans hplace.symm)⟩

theorem Exact.lt_of_position (exact : r.Exact) (hl : s.length = r.dims.length)
    (hk : r.position s = .ok k) : k < r.size := by
  obtain ⟨hs, rfl⟩ := (position_eq_ok_iff hl).mp hk
  exact exact.place_lt hs

/-- Row-major indexing is a bijection between the full subscripts of a row and the positions of its
elements, and keeps their order. It faults just for the subscripts that are not within the bounds, with
the first index that is outside its dimension. What slices, `ELEM`, diagonals and trimmers ask for is
therefore never outside the elements. -/
theorem row_major (r : Row α) (size : r.size = exactVolume r.dims) (small : r.size < 2 ^ 63) :
    (∀ s, s.length = r.dims.length →
      ((∃ k, r.position s = .ok k) ↔ Within r.dims s) ∧
      ∀ f, r.position s = .error f ↔
        ∃ d b i, FirstOutside r.dims s d b i ∧ f = .of (.indexOutOfBounds i b.lower b.upper)) ∧
    (∀ s, Within r.dims s → ∃ k < r.size, r.position s = .ok k) ∧
    (∀ k < r.size, ∃! s, Within r.dims s ∧ r.position s = .ok k) ∧
    (∀ s t k l, Within r.dims s → Within r.dims t → r.position s = .ok k → r.position t = .ok l →
      (s < t ↔ k < l)) ∧
    (∀ s k, s.length = r.dims.length → r.position s = .ok k →
      ∃ h : k < r.elements.size, r.select s = .ok r.elements[k]) ∧
    (∀ indexers s k, r.subscripts indexers = .ok s → r.position s = .ok k → k < r.size) ∧
    (∀ i k, r.dims.length = 1 → r.position [i] = .ok k → k < r.size) ∧
    (∀ i j k, r.dims.length = 2 → r.position [i, j] = .ok k → k < r.size) ∧
    ∀ indexers picked, indexers.length = r.dims.length → ranges r.dims indexers = .ok picked →
      ∀ s ∈ subscriptsWithin picked, ∃ k < r.size, r.position s = .ok k := by
  have exact : r.Exact := ⟨size, by rw [maxCount]; omega⟩
  have within {s : List Int64} (hs : Within r.dims s) : ∃ k < r.size, r.position s = .ok k :=
    ⟨_, exact.place_lt hs, positionIn_of_within hs⟩
  refine ⟨fun s hl => ⟨⟨?_, ?_⟩, position_eq_error_iff hl⟩, fun s hs => within hs, fun k hk => ?_,
    fun s t k l hs ht hk hl => ?_, fun s k hl hk => ?_, fun indexers s k hs hk => ?_,
    fun i k hl hk => exact.lt_of_position (s := [i]) hl.symm hk,
    fun i j k hl hk => exact.lt_of_position (s := [i, j]) hl.symm hk,
    fun indexers picked hl hpicked s hs => within (within_of_mem hl hpicked hs)⟩
  · rintro ⟨k, hk⟩
    exact ((position_eq_ok_iff hl).mp hk).1
  · intro hs
    exact ⟨_, positionIn_of_within hs⟩
  · obtain ⟨s, ⟨hs, hplace⟩, only⟩ := exact.existsUnique_place hk
    refine ⟨s, ⟨hs, (position_eq_ok_iff hs.length_eq).mpr ⟨hs, hplace⟩⟩, fun t ht => only t ?_⟩
    exact (position_eq_ok_iff ht.1.length_eq).mp ht.2
  · rw [position, positionIn_of_within hs] at hk
    rw [position, positionIn_of_within ht] at hl
    cases hk
    cases hl
    exact (place_lt_iff (exact.of_within hs) hs ht).symm
  · obtain ⟨hs, hplace⟩ := (position_eq_ok_iff hl).mp hk
    have inside : k < r.elements.size := exact.lt_of_position hl hk
    refine ⟨inside, ?_⟩
    rw [select_of_within hs, hplace, elementAt_eq_ok_iff, Array.getElem?_eq_getElem inside]
  · rw [subscripts] at hs
    split at hs
    · next h =>
      cases hs
      exact exact.lt_of_position ((List.length_map ..).trans h) hk
    · cases hs

theorem row_major_of_six : sixNumbers.size = exactVolume sixNumbers.dims ∧ sixNumbers.size < 2 ^ 63 ∧
    (∃! s, Within sixNumbers.dims s ∧ sixNumbers.position s = .ok 4) ∧
    sixNumbers.position [2, 5] = fault (.indexOutOfBounds 2 0 1) := by
  have size := sixNumbers_exact.size
  have small : sixNumbers.size < 2 ^ 63 := by decide
  obtain ⟨defined, -, unique, -⟩ := row_major sixNumbers size small
  refine ⟨size, small, unique 4 (by decide), ?_⟩
  exact ((defined [2, 5] rfl).2 _).mpr ⟨0, ⟨0, 1⟩, 2, ⟨rfl, rfl, by decide, .nil⟩, rfl⟩

end Algol68.Row
