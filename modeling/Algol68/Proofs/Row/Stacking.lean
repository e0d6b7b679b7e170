import Algol68.Proofs.Row.Trim
import Algol68.Proofs.Value.Slice

/-! Stacked rows. Rows of equal bounds make a display of one more dimension; slicing the display along
its first dimension gives the rows back, counted from one. -/

namespace Algol68

namespace Row

variable {α β : Type} {r q : Row α} {dims : List Bounds} {s : List Int64} {i : Int64}

/-- The indexers that pick all that is under an index of the first dimension. -/
def under (i : Int64) (dims : List Bounds) : List Indexer :=
  .at i :: dims.map fun _ => .trim none none

/-- The same elements in the same order, with every dimension counted from one. -/
structure Rebased (r part : Row α) : Prop where
  dims : List.Forall₂ (fun b c => c.CountsTo b.extent) r.dims part.dims
  elements : part.elements = r.elements

theorem mapM_select_whole (size : r.size = exactVolume r.dims) (counted : Counted r.dims) :
    (subscriptsWithin (whole r.dims)).mapM r.select = .ok r.elements.toList := by
  have hlen : (subscriptsWithin (whole r.dims)).length = r.elements.toList.length := by
    rw [length_subscriptsWithin, prod_whole, counted.volume, ← size]
    rfl
  rw [Checked.mapM_eq_ok_iff, List.forall₂_iff_get]
  refine ⟨hlen, fun k hk hk' => ?_⟩
  have hlt : k < volume r.dims := by
    rwa [length_subscriptsWithin, prod_whole] at hk
  obtain ⟨s, hs, hw, hplace⟩ := getElem?_whole counted hlt
  obtain ⟨_, rfl⟩ := List.getElem?_eq_some_iff.mp hs
  rw [List.get_eq_getElem, select_of_within hw, hplace, elementAt_eq_ok_iff]
  exact Array.getElem?_eq_getElem _

theorem ranges_whole (dims : List Bounds) :
    ranges dims (dims.map fun _ => .trim none none) = .ok (whole dims) := by
  induction dims with
  | nil => rfl
  | cons b dims ih =>
    have hb : (Indexer.trim none none).range b = .ok (b.lower, b.count) := by
      have htrimmed : Indexer.trimmed b none none = b := rfl
      simp only [Indexer.range, htrimmed]
      split
      · rfl
      · next he =>
        have hle : b.lower.toInt ≤ b.upper.toInt := by
          simp only [Bounds.isEmpty, decide_eq_true_eq, Int64.lt_iff_toInt_lt] at he
          omega
        have hl : b.contains b.lower = true := Bounds.contains_iff.mpr ⟨le_rfl, hle⟩
        have hu : b.contains b.upper = true := Bounds.contains_iff.mpr ⟨hle, le_rfl⟩
        simp [hl, hu]
    rw [List.map_cons, ranges, hb, ih]
    rfl

theorem keptBounds_whole (dims : List Bounds) :
    keptBounds (dims.map fun _ => .trim none none) (whole dims) =
      dims.map fun b => .upTo b.count := by
  induction dims with
  | nil => rfl
  | cons b dims ih =>
    rw [whole, List.map_cons, List.map_cons, keptBounds_trim, ← whole, ih]
    rfl

theorem subscriptsWithin_at (i : Int64) (picked : List (Int64 × Nat)) :
    subscriptsWithin ((i, 1) :: picked) = (subscriptsWithin picked).map (i :: ·) := by
  rw [subscriptsWithin]
  change List.flatMap _ [0] = _
  rw [List.flatMap_singleton, saturate_add_zero]

/-- A row that has another one under an index of its first dimension gives it back when it is sliced
there. -/
theorem trim_under {b : Bounds} (hdims : r.dims = b :: q.dims) (hi : b.contains i = true)
    (size : q.size = exactVolume q.dims)
    (fits : ∀ b ∈ q.dims, b.extent ≤ 0x7FFFFFFFFFFFFFFF)
    (hselect : ∀ s, Within q.dims s → r.select (i :: s) = q.select s) :
    ∃ part, r.trim (under i q.dims) = .ok part ∧ q.Rebased part := by
  have counted := counted_of_fits fits
  have hranges : ranges r.dims (under i q.dims) = .ok ((i, 1) :: whole q.dims) := by
    rw [hdims, under, ranges, Indexer.range, if_pos hi, ranges_whole]
    rfl
  have hgathered : (subscriptsWithin ((i, 1) :: whole q.dims)).mapM r.select =
      .ok q.elements.toList := by
    rw [subscriptsWithin_at, List.mapM_map, ← mapM_select_whole size counted]
    refine Checked.mapM_congr fun s hs => hselect s ?_
    exact within_of_mem (List.length_map ..) (ranges_whole _) hs
  refine ⟨⟨keptBounds (under i q.dims) ((i, 1) :: whole q.dims), q.elements⟩, ?_, ?_, rfl⟩
  · rw [trim_eq (by simp [hdims, under]), hranges]
    change ((subscriptsWithin ((i, 1) :: whole q.dims)).mapM r.select >>= _) = _
    rw [hgathered]
    rfl
  · rw [under, keptBounds_at, keptBounds_whole, List.forall₂_map_right_iff, List.forall₂_same]
    intro b hb
    have hle := fits b hb
    rw [Bounds.count, Nat.min_eq_left (counted b hb)]
    exact Bounds.countsTo_upTo hle

/-! The display. -/

/-- One row of a display after the first one, whose bounds are given. -/
def layer (dims : List Bounds) (rowOf : β → Checked (Row α)) (y : β) : Checked (Array α) := do
  let r ← rowOf y
  if r.dims = dims then return r.elements else fault .raggedDisplay

theorem stack_cons (n : Nat) (rowOf : β → Checked (Row α)) (x : β) (xs : List β)
    (h : rowOf x = .ok q) :
    stack n rowOf (x :: xs) = (do
      let rest ← xs.mapM (layer q.dims rowOf)
      return ⟨.upTo (xs.length + 1) :: q.dims, rest.foldl (· ++ ·) q.elements⟩) := by
  rw [stack, h]
  rfl

variable {rowOf : β → Checked (Row α)} {xs : List β} {rows : List (Row α)}

theorem layer_of_ne {x : β} (h : rowOf x = .ok q) (hne : q.dims ≠ dims) :
    layer dims rowOf x = fault .raggedDisplay := by
  rw [layer, h]
  exact if_neg hne

theorem layer_of_eq {x : β} (h : rowOf x = .ok q) (heq : q.dims = dims) :
    layer dims rowOf x = .ok q.elements := by
  rw [layer, h]
  exact if_pos heq

theorem mapM_layer (h : List.Forall₂ (fun x q => rowOf x = .ok q) xs rows) :
    ((∀ q ∈ rows, q.dims = dims) →
      xs.mapM (layer dims rowOf) = .ok (rows.map Row.elements)) ∧
    ((∃ q ∈ rows, q.dims ≠ dims) → xs.mapM (layer dims rowOf) = fault .raggedDisplay) := by
  induction h with
  | nil => exact ⟨fun _ => rfl, by simp⟩
  | @cons x q xs rows hx _ ih =>
    rw [List.mapM_cons]
    by_cases hq : q.dims = dims
    · rw [layer_of_eq hx hq]
      constructor
      · intro hall
        rw [ih.1 (List.forall_mem_cons.mp hall).2]
        rfl
      · rintro ⟨p, hp, hne⟩
        rcases List.mem_cons.mp hp with rfl | hp
        · exact absurd hq hne
        · rw [ih.2 ⟨p, hp, hne⟩]
          rfl
    · rw [layer_of_ne hx hq]
      exact ⟨fun hall => absurd (hall q (List.mem_cons_self ..)) hq, fun _ => rfl⟩

/-- Rows one after the other, under a new first dimension. -/
def stacked (dims : List Bounds) (rows : List (Row α)) : Row α :=
  ⟨.upTo rows.length :: dims, (rows.flatMap fun q => q.elements.toList).toArray⟩

/-- Rows of equal bounds are stacked; there is no row of rows of different bounds. -/
theorem stack_eq (n : Nat) (h : List.Forall₂ (fun x q => rowOf x = .ok q) xs rows)
    (hne : rows ≠ []) :
    (∀ dims, (∀ q ∈ rows, q.dims = dims) → stack n rowOf xs = .ok (stacked dims rows)) ∧
    ((∃ q ∈ rows, ∃ p ∈ rows, q.dims ≠ p.dims) → stack n rowOf xs = fault .raggedDisplay) := by
  cases h with
  | nil => exact absurd rfl hne
  | @cons x q xs rows hx hxs =>
    rw [stack_cons n rowOf x xs hx]
    constructor
    · intro dims hall
      obtain ⟨rfl, hrows⟩ := List.forall_mem_cons.mp hall
      have hjoined : (rows.map Row.elements).foldl (· ++ ·) q.elements =
          ((q :: rows).flatMap fun q => q.elements.toList).toArray := by
        rw [← Array.toList_inj, toList_foldl_append, List.flatMap_map]
        rfl
      rw [(mapM_layer hxs).1 hrows, hxs.length_eq, stacked, ← hjoined]
      rfl
    · rintro ⟨p, hp, p', hp', hne⟩
      have hdiffers : ∃ p ∈ rows, p.dims ≠ q.dims := by
        by_contra hnone
        push Not at hnone
        have hall : ∀ p ∈ q :: rows, p.dims = q.dims := List.forall_mem_cons.mpr ⟨rfl, hnone⟩
        exact hne ((hall p hp).trans (hall p' hp').symm)
      rw [(mapM_layer hxs).2 hdiffers]
      rfl

theorem contains_upTo {k n : Nat} (hk : k < n) (hi : i.toInt = k + 1) :
    (Bounds.upTo n).contains i = true := by
  have hu := i.toInt_lt
  have hlower : (Bounds.upTo n).lower.toInt = 1 := rfl
  rw [Bounds.contains_iff, hlower, Bounds.upTo, toInt_saturate]
  omega

/-- The part of a display under an index of its first dimension. -/
theorem select_layer {k : Nat} (hrows : ∀ q ∈ rows, q.dims = dims ∧ q.size = exactVolume dims)
    (counted : Counted dims) (hq : rows[k]? = some q) (hi : i.toInt = k + 1)
    (hs : s.length = dims.length) :
    (stacked dims rows).select (i :: s) = q.select s := by
  obtain ⟨rfl, hsize⟩ := hrows q (List.mem_of_getElem? hq)
  have hcontains := contains_upTo (List.getElem?_eq_some_iff.mp hq).1 hi
  by_cases hw : Within q.dims s
  · obtain ⟨x, hx⟩ := exists_select hsize counted hw
    have hplace := place_lt counted hw
    have hfirst : (i.toInt - (Bounds.upTo rows.length).lower.toInt).toNat = k := by
      change (i.toInt - 1).toNat = k
      omega
    have hlengths : ∀ p ∈ rows, p.elements.toList.length = volume q.dims := by
      intro p hp
      rw [counted.volume, ← (hrows p hp).2]
      rfl
    rw [hx]
    rw [select_of_within hw, elementAt_eq_ok_iff] at hx
    have hboth : Within (.upTo rows.length :: q.dims) (i :: s) := .cons hcontains hw
    refine (select_of_within hboth).trans (elementAt_eq_ok_iff.mpr ?_)
    rw [stacked, place, hfirst, List.getElem?_toArray, getElem?_blocks hlengths hq hplace,
      Array.getElem?_toList, hx]
  · obtain ⟨f, hf⟩ := positionIn_of_not_within hs hw
    rw [select, select, position, position, stacked, positionIn, if_pos hcontains, hf]
    rfl

theorem enclose_select (hw : Within r.dims s) : r.enclose.select (1 :: s) = r.select s := by
  have hone : (⟨1, 1⟩ : Bounds).contains 1 = true := rfl
  have hboth : Within r.enclose.dims (1 :: s) := .cons hone hw
  have hplace : place r.enclose.dims (1 :: s) = place r.dims s := by
    change (1 - 1 : Int).toNat * volume r.dims + place r.dims s = _
    simp
  rw [select_of_within hboth, select_of_within hw, hplace]
  rfl

end Row

namespace Value

variable {s : Store} {r : Row Value} {modes : ModeTable} {mode element : ModeId} {n : Nat}

theorem display_row (h : modes.get mode = .row n element) (hn : n ≠ 1) (vs : List Value) :
    display modes mode vs = (do return .row (← Row.stack n asRow vs)) := by
  unfold display
  rw [h]
  split
  · contradiction
  · next heq =>
    cases heq
    exact absurd rfl hn
  · next heq =>
    cases heq
    rfl
  · contradiction
  · next _ _ _ other _ => exact (other n element rfl).elim

theorem slice_at (s : Store) {subscripts : List Int64}
    (hl : subscripts.length = r.dims.length) :
    slice s (.row r) (subscripts.map .at) = r.select subscripts := by
  have hall : (subscripts.map Indexer.at).all Indexer.isSubscript = true := by
    simp [Indexer.isSubscript]
  have hsubscripts : r.subscripts (subscripts.map .at) = .ok subscripts := by
    rw [Row.subscripts, if_pos (by rw [List.length_map]; exact hl), List.map_map]
    exact congrArg Except.ok (List.map_id subscripts)
  rw [slice_row, sliceRow, if_pos hall, hsubscripts]
  rfl

theorem slice_under (s : Store) {i : Int64} {dims : List Bounds} (hne : dims ≠ []) :
    slice s (.row r) (Row.under i dims) = (do return .row (← r.trim (Row.under i dims))) := by
  obtain ⟨b, dims, rfl⟩ := List.exists_cons_of_ne_nil hne
  rfl

theorem rowed_row (h : modes.get mode = .row (r.dims.length + 1) element) :
    rowed modes mode (.row r) = .row r.enclose := by
  unfold rowed
  rw [h]
  exact if_pos rfl

end Value

open Value in
/-- A display of rows of equal bounds has them under a new first dimension, counted from one. Slicing it
there with all of the other dimensions gives the rows back, each counted from one, and a full subscript
selects what the rest of it selects in the row, with the same fault where it does not. The rows of a
display have to have equal bounds: two that differ, and nothing else, make it ragged. A row that is rowed
to one more dimension is likewise given back by the only index of that dimension. -/
theorem display_slices (modes : ModeTable) (s : Store) :
    (∀ (mode element : ModeId) (n : Nat) (vs : List Value) (rows : List (Row Value)),
      modes.get mode = .row n element → n ≠ 1 →
      List.Forall₂ (fun v q => v.asRow = .ok q) vs rows → rows ≠ [] →
      (∀ dims : List Bounds, dims ≠ [] → (∀ b ∈ dims, b.extent ≤ 0x7FFFFFFFFFFFFFFF) →
        (∀ q ∈ rows, q.dims = dims ∧ q.size = exactVolume dims) →
        ∃ whole b, display modes mode vs = .ok (.row whole) ∧ whole.dims = b :: dims ∧
          (rows.length ≤ 0x7FFFFFFFFFFFFFFF → b.CountsTo rows.length) ∧
          ∀ (k : Nat) (q : Row Value) (i : Int64), rows[k]? = some q → i.toInt = k + 1 →
            (∃ part, slice s (.row whole) (Row.under i dims) = .ok (.row part) ∧ q.Rebased part) ∧
            ∀ subscripts : List Int64, subscripts.length = dims.length →
              slice s (.row whole) ((i :: subscripts).map .at) =
                slice s (.row q) (subscripts.map .at)) ∧
      (display modes mode vs = fault .raggedDisplay ↔ ∃ q ∈ rows, ∃ p ∈ rows, q.dims ≠ p.dims)) ∧
    ∀ (mode element : ModeId) (r : Row Value), modes.get mode = .row (r.dims.length + 1) element →
      r.dims ≠ [] → (∀ b ∈ r.dims, b.extent ≤ 0x7FFFFFFFFFFFFFFF) → r.size = exactVolume r.dims →
      ∃ deeper, rowed modes mode (.row r) = .row deeper ∧ deeper.dims = ⟨1, 1⟩ :: r.dims ∧
        ∃ part, slice s (.row deeper) (Row.under 1 r.dims) = .ok (.row part) ∧ r.Rebased part := by
  constructor
  · intro mode element n vs rows hmode hn hrows hne
    constructor
    · intro dims hdims fits hall
      have hstack := (Row.stack_eq n hrows hne).1 dims fun q hq => (hall q hq).1
      refine ⟨Row.stacked dims rows, _, ?_, rfl, Bounds.countsTo_upTo, fun k q i hq hi => ?_⟩
      · rw [display_row hmode hn, hstack]
        rfl
      obtain ⟨rfl, size⟩ := hall q (List.mem_of_getElem? hq)
      have hselect := fun (subscripts : List Int64) (hl : subscripts.length = q.dims.length) =>
        Row.select_layer hall (Row.counted_of_fits fits) hq hi hl
      constructor
      · obtain ⟨part, hpart, hrebased⟩ := Row.trim_under rfl
          (Row.contains_upTo (List.getElem?_eq_some_iff.mp hq).1 hi) size fits
          fun subscripts hw => hselect subscripts hw.length_eq
        refine ⟨part, ?_, hrebased⟩
        rw [slice_under s hdims, hpart]
        rfl
      · intro subscripts hl
        have hl' : (i :: subscripts).length = (Row.stacked q.dims rows).dims.length :=
          congrArg Nat.succ hl
        rw [slice_at s hl, slice_at s hl', hselect subscripts hl]
    · rw [display_row hmode hn]
      constructor
      · intro h
        by_contra hsame
        push Not at hsame
        obtain ⟨q, hq⟩ := List.exists_mem_of_ne_nil rows hne
        rw [(Row.stack_eq n hrows hne).1 q.dims fun p hp => hsame p hp q hq] at h
        cases h
      · intro hdiffer
        rw [(Row.stack_eq n hrows hne).2 hdiffer]
        rfl
  · intro mode element r hmode hne fits size
    obtain ⟨part, hpart, hrebased⟩ := Row.trim_under (r := r.enclose) rfl rfl size fits
      fun _ hw => Row.enclose_select hw
    refine ⟨r.enclose, rowed_row hmode, rfl, part, ?_, hrebased⟩
    rw [slice_under s hne, hpart]
    rfl

/-- A table with the modes of vectors and of matrices of integers, in this order. -/
def matrixModes : ModeTable := ⟨Mode.primitives ++ #[.row 1 .int, .row 2 .int]⟩

/-- A pair of integers, counted from zero. -/
def couplet (m n : Int64) : Row Value := ⟨[⟨0, 1⟩], #[.int m, .int n]⟩

theorem display_slices_of_pairs :
    matrixModes.get ⟨8⟩ = .row 2 .int ∧ (∀ b ∈ (couplet 1 2).dims, b.extent ≤ 0x7FFFFFFFFFFFFFFF) ∧
    (∀ q ∈ [couplet 1 2, couplet 3 4],
      q.dims = (couplet 1 2).dims ∧ q.size = exactVolume (couplet 1 2).dims) ∧
    ∃ whole part,
      Value.display matrixModes ⟨8⟩ [.row (couplet 1 2), .row (couplet 3 4)] = .ok (.row whole) ∧
      Value.slice ⟨#[]⟩ (.row whole) [.at 2, .trim none none] = .ok (.row part) ∧
      (couplet 3 4).Rebased part := by
  have fits : ∀ b ∈ (couplet 1 2).dims, b.extent ≤ 0x7FFFFFFFFFFFFFFF := by decide
  have even : ∀ q ∈ [couplet 1 2, couplet 3 4],
      q.dims = (couplet 1 2).dims ∧ q.size = exactVolume (couplet 1 2).dims := by
    simp only [List.forall_mem_cons]
    decide
  obtain ⟨whole, b, hwhole, -, -, hslices⟩ :=
    ((display_slices matrixModes ⟨#[]⟩).1 ⟨8⟩ .int 2 [.row (couplet 1 2), .row (couplet 3 4)]
      [couplet 1 2, couplet 3 4] rfl (by decide) (.cons rfl (.cons rfl .nil)) (by simp)).1
      (couplet 1 2).dims (by decide) fits even
  obtain ⟨⟨part, hpart, hrebased⟩, -⟩ := hslices 1 (couplet 3 4) 2 rfl rfl
  exact ⟨rfl, fits, even, whole, part, hwhole, hpart, hrebased⟩

end Algol68
