import Algol68.Proofs.Row.Odometer

/-! Parts of rows. A list of indexers picks the part that it describes: it is refused for its length,
then for the first index that lies outside its dimension, and otherwise an element of the part is the
element of the row under the corresponding subscript. -/

namespace Algol68

namespace Indexer

variable {b : Bounds} {x : Indexer} {range : Int64 × Nat}

/-- The indices that have to lie in the dimension: a subscript, or the ends of a trimmer unless it
picks nothing. -/
def ends (b : Bounds) : Indexer → List Int64
  | .at i => [i]
  | .trim lower upper =>
    if (trimmed b lower upper).isEmpty then []
    else [(trimmed b lower upper).lower, (trimmed b lower upper).upper]

/-- How many subscripts a trimmer leaves; a subscript leaves no dimension. -/
def kept (b : Bounds) : Indexer → Option Nat
  | .at _ => none
  | .trim lower upper => some (trimmed b lower upper).extent

/-- The indices of an indexer that lie outside the dimension, in the order they are looked at. -/
def strays (b : Bounds) (x : Indexer) : List Int64 := (x.ends b).filter fun i => !b.contains i

theorem range_of_strays {i : Int64} (h : (x.strays b).head? = some i) :
    x.range b = fault (.indexOutOfBounds i b.lower b.upper) := by
  cases x with
  | «at» j =>
    simp only [strays, ends, List.filter_cons, List.filter_nil] at h
    split at h
    · next hj =>
      obtain rfl : j = i := by simpa using h
      rw [range, if_neg (by simpa using hj)]
    · cases h
  | trim lower upper =>
    simp only [strays, ends] at h
    simp only [range]
    generalize trimmed b lower upper = t at h ⊢
    split at h
    · cases h
    · next he =>
      rw [if_neg he]
      simp only [List.filter_cons, List.filter_nil] at h
      split at h
      · next hl =>
        obtain rfl : t.lower = i := by simpa using h
        rw [if_pos hl]
      · next hl =>
        split at h
        · next hu =>
          obtain rfl : t.upper = i := by simpa using h
          rw [if_neg hl, if_pos hu]
        · cases h

theorem exists_range (h : x.strays b = []) : ∃ range, x.range b = .ok range := by
  cases x with
  | «at» j =>
    have hj : b.contains j = true := by simpa [strays, ends] using h
    exact ⟨(j, 1), by rw [range, if_pos hj]⟩
  | trim lower upper =>
    simp only [strays, ends] at h
    simp only [range]
    generalize trimmed b lower upper = t at h ⊢
    split at h
    · next he => exact ⟨_, if_pos he⟩
    · next he =>
      obtain ⟨hl, hu⟩ : b.contains t.lower = true ∧ b.contains t.upper = true := by simpa using h
      exact ⟨(t.lower, t.count), by simp [he, hl, hu]⟩

/-- What a trimmer picks, where it picks something, lies between its own ends. -/
theorem range_trim {lower upper : Option Int64}
    (h : (Indexer.trim lower upper).range b = .ok range) :
    range = ((trimmed b lower upper).lower, (trimmed b lower upper).count) ∧
      ((trimmed b lower upper).isEmpty = false →
        b.contains (trimmed b lower upper).lower = true ∧
          b.contains (trimmed b lower upper).upper = true) := by
  simp only [Indexer.range] at h
  generalize trimmed b lower upper = t at h ⊢
  split at h
  · next he =>
    cases h
    exact ⟨rfl, fun hne => absurd he (by simp [hne])⟩
  · split at h
    · cases h
    · split at h
      · cases h
      · next hl hu =>
        cases h
        exact ⟨rfl, fun _ => ⟨by simpa using hl, by simpa using hu⟩⟩

theorem range_at {i : Int64} (h : (Indexer.at i).range b = .ok range) :
    range = (i, 1) ∧ b.contains i = true := by
  rw [Indexer.range] at h
  split at h
  · next hi =>
    cases h
    exact ⟨rfl, hi⟩
  · cases h

/-- Each step of a range leads to an index of the dimension, without any loss. -/
theorem range_step (h : x.range b = .ok range) {step : Nat} (hs : step < range.2) :
    (saturate (range.1.toInt + step)).toInt = range.1.toInt + step ∧
      b.contains (saturate (range.1.toInt + step)) = true := by
  cases x with
  | «at» i =>
    obtain ⟨rfl, hi⟩ := range_at h
    obtain rfl : step = 0 := by simpa using hs
    rw [Row.saturate_add_zero]
    exact ⟨by simp, hi⟩
  | trim lower upper =>
    obtain ⟨rfl, hin⟩ := range_trim h
    generalize trimmed b lower upper = t at hs hin ⊢
    have hext : step < t.extent := hs.trans_le t.count_le_extent
    have hint := Row.toInt_saturate_lower hext
    refine ⟨hint, ?_⟩
    have hne : t.isEmpty = false := by
      simp only [Bounds.isEmpty, decide_eq_false_iff_not, Int64.lt_iff_toInt_lt]
      simp only [Bounds.extent] at hext
      omega
    obtain ⟨hl, hu⟩ := hin hne
    rw [Bounds.contains_iff] at hl hu ⊢
    rw [hint]
    rw [Bounds.extent] at hext
    omega

end Indexer

namespace Row

variable {α : Type} {dims : List Bounds} {indexers : List Indexer} {picked : List (Int64 × Nat)}
  {js : List Int64}

/-- The indices that lie outside their dimensions, each with the bounds of its dimension, in the order
of dimensions. -/
def strays (dims : List Bounds) (indexers : List Indexer) : List (Bounds × Int64) :=
  (dims.zip indexers).flatMap fun (b, x) => (x.strays b).map (b, ·)

/-- The extents of the dimensions that the trimmers leave, in order. -/
def kept (dims : List Bounds) (indexers : List Indexer) : List Nat :=
  (dims.zip indexers).filterMap fun (b, x) => x.kept b

@[simp] theorem strays_cons (b : Bounds) (x : Indexer) (dims : List Bounds)
    (indexers : List Indexer) :
    strays (b :: dims) (x :: indexers) = (x.strays b).map (b, ·) ++ strays dims indexers := rfl

@[simp] theorem kept_trim (b : Bounds) (lower upper : Option Int64) (dims : List Bounds)
    (indexers : List Indexer) :
    kept (b :: dims) (.trim lower upper :: indexers) =
      (Indexer.trimmed b lower upper).extent :: kept dims indexers := rfl

@[simp] theorem keptBounds_at (i : Int64) (range : Int64 × Nat) (indexers : List Indexer)
    (picked : List (Int64 × Nat)) :
    keptBounds (.at i :: indexers) (range :: picked) = keptBounds indexers picked := rfl

@[simp] theorem keptBounds_trim (lower upper : Option Int64) (range : Int64 × Nat)
    (indexers : List Indexer) (picked : List (Int64 × Nat)) :
    keptBounds (.trim lower upper :: indexers) (range :: picked) =
      .upTo range.2 :: keptBounds indexers picked := rfl

/-- The subscript `s` of a row under which its part, picked by some indexers, has its element `js`:
the given subscripts in the dimensions that are dropped, and counting from the lower end of the trimmer
in those that are left. -/
inductive Corresponds : List Bounds → List Indexer → (js s : List Int64) → Prop where
  | nil : Corresponds [] [] [] []
  | at {b : Bounds} {i : Int64} {dims : List Bounds} {indexers : List Indexer} {js s : List Int64}
    (rest : Corresponds dims indexers js s) : Corresponds (b :: dims) (.at i :: indexers) js (i :: s)
  | trim {b : Bounds} {lower upper : Option Int64} {i j : Int64} {dims : List Bounds}
    {indexers : List Indexer} {js s : List Int64}
    (h : i.toInt = (Indexer.trimmed b lower upper).lower.toInt + j.toInt - 1)
    (rest : Corresponds dims indexers js s) :
    Corresponds (b :: dims) (.trim lower upper :: indexers) (j :: js) (i :: s)

theorem ranges_of_strays {b : Bounds} {i : Int64}
    (h : (strays dims indexers).head? = some (b, i)) :
    ranges dims indexers = fault (.indexOutOfBounds i b.lower b.upper) := by
  induction dims generalizing indexers with
  | nil => cases h
  | cons c dims ih =>
    cases indexers with
    | nil => cases h
    | cons x indexers =>
      rw [ranges]
      rw [strays_cons, List.head?_append] at h
      cases hx : (x.strays c).head? with
      | some j =>
        obtain ⟨rfl, rfl⟩ : c = b ∧ j = i := by simpa [hx] using h
        rw [Indexer.range_of_strays hx]
        rfl
      | none =>
        have hnone := List.head?_eq_none_iff.mp hx
        obtain ⟨range, hrange⟩ := Indexer.exists_range hnone
        rw [hrange, ih (by simpa [hnone] using h)]
        rfl

theorem exists_ranges (h : strays dims indexers = []) :
    ∃ picked, ranges dims indexers = .ok picked := by
  induction dims generalizing indexers with
  | nil => exact ⟨[], rfl⟩
  | cons b dims ih =>
    cases indexers with
    | nil => exact ⟨[], rfl⟩
    | cons x indexers =>
      rw [strays_cons, List.append_eq_nil_iff, List.map_eq_nil_iff] at h
      obtain ⟨range, hrange⟩ := Indexer.exists_range h.1
      obtain ⟨picked, hpicked⟩ := ih h.2
      rw [ranges, hrange, hpicked]
      exact ⟨range :: picked, rfl⟩

theorem ranges_cons_eq_ok_iff {b : Bounds} {x : Indexer} :
    ranges (b :: dims) (x :: indexers) = .ok picked ↔
      ∃ range rest, x.range b = .ok range ∧ ranges dims indexers = .ok rest ∧
        picked = range :: rest := by
  rw [ranges]
  constructor
  · intro h
    cases hrange : x.range b with
    | error f =>
      rw [hrange] at h
      cases h
    | ok range =>
      rw [hrange] at h
      cases hrest : ranges dims indexers with
      | error f =>
        rw [hrest] at h
        cases h
      | ok rest =>
        rw [hrest] at h
        cases h
        exact ⟨range, rest, rfl, rfl, rfl⟩
  · rintro ⟨range, rest, hrange, hrest, rfl⟩
    rw [hrange, hrest]
    rfl

theorem within_of_mem {s : List Int64} (hl : indexers.length = dims.length)
    (h : ranges dims indexers = .ok picked) (hs : s ∈ subscriptsWithin picked) : Within dims s := by
  rw [mem_subscriptsWithin] at hs
  induction dims generalizing indexers picked s with
  | nil =>
    cases h
    cases hs
    exact .nil
  | cons b dims ih =>
    cases indexers with
    | nil => cases hl
    | cons x indexers =>
      obtain ⟨range, rest, hrange, hrest, rfl⟩ := ranges_cons_eq_ok_iff.mp h
      cases hs with
      | cons hi hs =>
        obtain ⟨step, hstep, rfl⟩ := hi
        exact .cons (Indexer.range_step hrange hstep).2 (ih (Nat.succ.inj hl) hrest hs)

theorem volume_upTo {ns : List Nat} (h : ∀ n ∈ ns, n ≤ 0x7FFFFFFFFFFFFFFF) :
    Counted (ns.map Bounds.upTo) ∧ volume (ns.map Bounds.upTo) = ns.prod := by
  induction ns with
  | nil => exact ⟨by simp [Counted], rfl⟩
  | cons n ns ih =>
    obtain ⟨hn, hns⟩ := List.forall_mem_cons.mp h
    obtain ⟨hcounted, hvolume⟩ := ih hns
    constructor
    · refine List.forall_mem_cons.mpr ⟨?_, hcounted⟩
      rw [Bounds.extent_upTo, maxCount]
      omega
    · rw [List.map_cons, volume_cons, hvolume, Bounds.count_upTo, Nat.min_eq_left hn, List.prod_cons]

/-- The dimensions of the part are those that the trimmers leave, counted from one. -/
theorem keptBounds_eq (fits : ∀ b ∈ dims, b.extent ≤ 0x7FFFFFFFFFFFFFFF)
    (hl : indexers.length = dims.length) (h : ranges dims indexers = .ok picked) :
    keptBounds indexers picked = (kept dims indexers).map Bounds.upTo ∧
      (∀ n ∈ kept dims indexers, n ≤ 0x7FFFFFFFFFFFFFFF) ∧
      (kept dims indexers).prod = (picked.map Prod.snd).prod := by
  induction dims generalizing indexers picked with
  | nil =>
    cases h
    obtain rfl := List.length_eq_zero_iff.mp hl
    exact ⟨rfl, by simp [kept], rfl⟩
  | cons b dims ih =>
    cases indexers with
    | nil => cases hl
    | cons x indexers =>
      obtain ⟨range, rest, hrange, hrest, rfl⟩ := ranges_cons_eq_ok_iff.mp h
      obtain ⟨hb, hdims⟩ := List.forall_mem_cons.mp fits
      obtain ⟨hbounds, hle, hprod⟩ := ih hdims (Nat.succ.inj hl) hrest
      cases x with
      | «at» i =>
        obtain ⟨rfl, -⟩ := Indexer.range_at hrange
        refine ⟨hbounds, hle, ?_⟩
        rw [List.map_cons, List.prod_cons, Nat.one_mul]
        exact hprod
      | trim lower upper =>
        obtain ⟨rfl, -⟩ := Indexer.range_trim hrange
        have hcount := (range_gives b _ _ hrange).1.trans (b.count_le_extent.trans hb)
        rw [kept_trim, keptBounds_trim]
        generalize Indexer.trimmed b lower upper = t at hcount ⊢
        have heq : t.count = t.extent :=
          Bounds.count_eq (Nat.lt_of_le_of_lt hcount (by decide))
        refine ⟨?_, List.forall_mem_cons.mpr ⟨heq ▸ hcount, hle⟩, ?_⟩
        · rw [List.map_cons, hbounds, heq]
        · rw [List.map_cons, List.prod_cons, List.prod_cons, hprod, heq]

/-- A full subscript of the part has, among the subscripts that are gone through, the place of the
subscript that it corresponds to. -/
theorem exists_corresponds (hl : indexers.length = dims.length)
    (fits : ∀ b ∈ dims, b.extent ≤ 0x7FFFFFFFFFFFFFFF) (h : ranges dims indexers = .ok picked)
    (hw : Within (keptBounds indexers picked) js) :
    ∃ s, Corresponds dims indexers js s ∧
      (subscriptsWithin picked)[place (keptBounds indexers picked) js]? = some s := by
  induction dims generalizing indexers picked js with
  | nil =>
    cases h
    obtain rfl := List.length_eq_zero_iff.mp hl
    cases hw
    exact ⟨[], .nil, rfl⟩
  | cons b dims ih =>
    cases indexers with
    | nil => cases hl
    | cons x indexers =>
      obtain ⟨range, rest, hrange, hrest, rfl⟩ := ranges_cons_eq_ok_iff.mp h
      obtain ⟨hb, hdims⟩ := List.forall_mem_cons.mp fits
      have htail : indexers.length = dims.length := Nat.succ.inj hl
      obtain ⟨hbounds, hle, hprod⟩ := keptBounds_eq hdims htail hrest
      obtain ⟨hcounted, hvolume⟩ := volume_upTo hle
      rw [← hbounds] at hcounted hvolume
      rw [hprod] at hvolume
      cases x with
      | «at» i =>
        -- a single block, without a dimension in the part
        obtain ⟨rfl, -⟩ := Indexer.range_at hrange
        rw [keptBounds_at] at hw ⊢
        obtain ⟨s, hs, hplace⟩ := ih htail hdims hrest hw
        have hlt := place_lt hcounted hw
        rw [hvolume] at hlt
        have hblock := getElem?_subscriptsWithin i rest Nat.one_pos hlt
        rw [Nat.zero_mul, Nat.zero_add, hplace, saturate_add_zero] at hblock
        exact ⟨i :: s, .at hs, hblock⟩
      | trim lower upper =>
        obtain ⟨rfl, -⟩ := Indexer.range_trim hrange
        rw [keptBounds_trim] at hw ⊢
        cases hw with
        | @cons _ j _ js hj hjs =>
          obtain ⟨s, hs, hplace⟩ := ih htail hdims hrest hjs
          have hlt := place_lt hcounted hjs
          rw [hvolume] at hlt
          -- the block that the index leads to
          have hone : (Bounds.upTo (Indexer.trimmed b lower upper).count).lower.toInt = 1 := rfl
          have hupper := Bounds.contains_iff.mp hj
          rw [hone, Bounds.upTo, toInt_saturate] at hupper
          have hstep : (j.toInt - 1).toNat < (Indexer.trimmed b lower upper).count := by omega
          have hblock := getElem?_subscriptsWithin (Indexer.trimmed b lower upper).lower rest hstep hlt
          rw [hplace] at hblock
          refine ⟨_ :: s, .trim ?_ hs, (congrArg _ ?_).trans hblock⟩
          · refine (Indexer.range_step hrange hstep).1.trans ?_
            dsimp only
            omega
          · rw [place, hone, hvolume]

variable {r : Row α}

/-- Trimming in terms of the subscripts that are gone through; there are none if the part is empty. -/
theorem trim_eq (hl : indexers.length = r.dims.length) :
    r.trim indexers = (do
      let picked ← ranges r.dims indexers
      let xs ← (subscriptsWithin picked).mapM r.select
      return ⟨keptBounds indexers picked, xs.toArray⟩) := by
  rw [trim, dimensions, if_neg (not_not.mpr hl)]
  change (ranges r.dims indexers >>= fun picked => _) = _
  congr 1
  funext picked
  change (if (picked.map Prod.snd).prod = 0 then
    (pure ⟨keptBounds indexers picked, #[]⟩ : Checked (Row α)) else _) = _
  split
  · next hz =>
    have hnone : subscriptsWithin picked = [] := by
      rw [← List.length_eq_zero_iff, length_subscriptsWithin, hz]
    rw [hnone]
    rfl
  · rfl

theorem exists_gathered (size : r.size = exactVolume r.dims) (counted : Counted r.dims)
    (hl : indexers.length = r.dims.length) (h : ranges r.dims indexers = .ok picked) :
    ∃ xs, (subscriptsWithin picked).mapM r.select = .ok xs :=
  Checked.exists_mapM fun _ hs => exists_select size counted (within_of_mem hl h hs)

theorem counted_of_fits (fits : ∀ b ∈ dims, b.extent ≤ 0x7FFFFFFFFFFFFFFF) : Counted dims :=
  fun b hb => (fits b hb).trans (by decide)

/-- Trimming a row picks the part that the indexers describe. It is refused if there are not as many
indexers as dimensions, else for the first index that lies outside its dimension. Otherwise the part has
one dimension for each trimmer, counted from one to its extent, with an element for every full
subscript: that of the row under the corresponding subscript. The loop that gathers the elements comes
to an end with them, and no subscript that it goes through leaves the row. -/
theorem trim_picks (r : Row α) (indexers : List Indexer) (size : r.size = exactVolume r.dims)
    (fits : ∀ b ∈ r.dims, b.extent ≤ 0x7FFFFFFFFFFFFFFF) :
    (indexers.length ≠ r.dims.length →
      r.trim indexers = fault (.dimensionMismatch r.dims.length indexers.length)) ∧
    (indexers.length = r.dims.length →
      (∀ b i, (strays r.dims indexers).head? = some (b, i) →
        r.trim indexers = fault (.indexOutOfBounds i b.lower b.upper)) ∧
      (strays r.dims indexers = [] → ∃ picked part, ranges r.dims indexers = .ok picked ∧
        r.trim indexers = .ok part ∧
        List.Forall₂ Bounds.CountsTo part.dims (kept r.dims indexers) ∧
        part.size = exactVolume part.dims ∧
        (∀ js, Within part.dims js → ∃ s x, Corresponds r.dims indexers js s ∧
          r.select s = .ok x ∧ part.select js = .ok x) ∧
        (∀ s ∈ subscriptsWithin picked, ∃ k < r.size, r.position s = .ok k) ∧
        ∀ gathered, Checked.Loops (r.gatherRound picked) (picked.map fun _ => 0, #[]) gathered ↔
          gathered = .ok part.elements)) := by
  have counted := counted_of_fits fits
  refine ⟨fun hl => ?_, fun hl => ⟨fun b i hi => ?_, fun hnone => ?_⟩⟩
  · rw [trim, dimensions, if_pos hl]
    rfl
  · rw [trim_eq hl, ranges_of_strays hi]
    rfl
  · obtain ⟨picked, hpicked⟩ := exists_ranges hnone
    obtain ⟨xs, hxs⟩ := exists_gathered size counted hl hpicked
    obtain ⟨hbounds, hle, hprod⟩ := keptBounds_eq fits hl hpicked
    obtain ⟨hcounted, hvolume⟩ := volume_upTo hle
    have hpart : r.trim indexers = .ok ⟨keptBounds indexers picked, xs.toArray⟩ := by
      rw [trim_eq hl, hpicked]
      change ((subscriptsWithin picked).mapM r.select >>= _) = _
      rw [hxs]
      rfl
    refine ⟨picked, _, hpicked, hpart, ?_, ?_, fun js hjs => ?_, fun s hs => ?_, fun gathered => ?_⟩
    · rw [hbounds, List.forall₂_map_left_iff, List.forall₂_same]
      exact fun n hn => Bounds.countsTo_upTo (hle n hn)
    · have hlen := (Checked.mapM_eq_ok_iff.mp hxs).length_eq
      rw [length_subscriptsWithin] at hlen
      rw [hbounds, ← hcounted.volume, hvolume, hprod, hlen]
      rfl
    · obtain ⟨s, hs, hplace⟩ := exists_corresponds hl fits hpicked hjs
      obtain ⟨x, hx, hselect⟩ := Checked.getElem?_of_mapM hxs hplace
      refine ⟨s, x, hs, hselect, ?_⟩
      rw [select_of_within hjs, elementAt_eq_ok_iff, List.getElem?_toArray, hx]
    · have hw := within_of_mem hl hpicked hs
      have hlt := place_lt counted hw
      rw [counted.volume, ← size] at hlt
      exact ⟨_, hlt, positionIn_of_within hw⟩
    · have hloop := r.gathers picked
      rw [hxs] at hloop
      exact hloop.iff_eq

theorem trim_picks_last_columns :
    sixNumbers.size = exactVolume sixNumbers.dims ∧
    (∀ b ∈ sixNumbers.dims, b.extent ≤ 0x7FFFFFFFFFFFFFFF) ∧
    sixNumbers.trim [.at 0, .trim (some 1) (some 2)] = fault (.indexOutOfBounds 2 (-1) 1) ∧
    sixNumbers.trim [.at 1, .trim (some 0) none] = .ok ⟨[⟨1, 2⟩], #[5, 6]⟩ ∧
    ∃ s x, Corresponds sixNumbers.dims [.at 1, .trim (some 0) none] [2] s ∧
      sixNumbers.select s = .ok x ∧ Row.select ⟨[⟨1, 2⟩], #[5, 6]⟩ [2] = .ok x := by
  have size := sixNumbers_exact.size
  have fits : ∀ b ∈ sixNumbers.dims, b.extent ≤ 0x7FFFFFFFFFFFFFFF := by decide
  have columns : sixNumbers.trim [.at 1, .trim (some 0) none] = .ok ⟨[⟨1, 2⟩], #[5, 6]⟩ := rfl
  refine ⟨size, fits, ?_, columns, ?_⟩
  · exact ((trim_picks sixNumbers [.at 0, .trim (some 1) (some 2)] size fits).2 rfl).1 _ _ rfl
  · obtain ⟨picked, part, -, hpart, -, -, hselect, -⟩ :=
      ((trim_picks sixNumbers [.at 1, .trim (some 0) none] size fits).2 rfl).2 rfl
    obtain rfl := Except.ok.inj (columns.symm.trans hpart)
    exact hselect [2] (.cons rfl .nil)

end Row

end Algol68
