import Algol68.Proofs.Row.Trim
import Algol68.Proofs.Value.Slice
import Algol68.Value.Formula

/-! Strings under `+` and `*`. All the operators make their result in one way: the string of a text, if
the limit allows as many characters. A sum or a repetition is therefore refused for its whole size only,
in whatever order it is put together, and its parts are the characters of its operands. -/

namespace Algol68

/-- The characters of a text between two places, counted from one. -/
def between (first last : Int) (text : List Char) : List Char :=
  (text.take last.toNat).drop (first - 1).toNat

theorem getElem?_between (first last : Int) (text : List Char) (k : Nat) :
    (between first last text)[k]? =
      if (first - 1).toNat + k < last.toNat then text[(first - 1).toNat + k]? else none := by
  rw [between, List.getElem?_drop, List.getElem?_take]

/-- Between two places of a sum stand the characters of its first part and then those of the second. -/
theorem between_append (first last : Int) (s t : List Char) :
    between first last (s ++ t) =
      between first last s ++ between (first - s.length) (last - s.length) t := by
  have shorter : (last - s.length).toNat = last.toNat - s.length := by omega
  rw [between, List.take_append, List.drop_append, List.length_take, between, between, shorter]
  by_cases inside : last.toNat ≤ s.length
  · rw [Nat.sub_eq_zero_of_le inside, List.take_zero, List.drop_nil, List.drop_nil]
  · congr 2
    omega

namespace StandardOperator

variable {op : StandardOperator} {limit : Nat} {a b c : Value} {s t u w : List Char} {n : Int64}

/-! ### Bounds -/

theorem onRow_bounds {v : Value} {r : Row Value} {d : Int64} {b : Bounds} (h : v.asRow = .ok r)
    (hop : op ≠ .elem) (hd : 1 ≤ d.toInt) (hb : r.dims[(d.toInt - 1).toNat]? = some b) :
    onRow op d v = .ok (.int (if op = .upb then b.upper else b.lower)) := by
  rw [onRow, h]
  change (if op = .elem then r.select [d] else _) = _
  rw [if_neg hop, if_pos hd, hb]
  rfl

theorem onRow_outside {v : Value} {r : Row Value} {d : Int64} (h : v.asRow = .ok r) (hop : op ≠ .elem)
    (hd : ¬ (1 ≤ d.toInt ∧ d.toInt ≤ r.dims.length)) :
    onRow op d v = fault (.indexOutOfBounds d 1 (saturate r.dims.length)) := by
  have none : (if 1 ≤ d.toInt then r.dims[(d.toInt - 1).toNat]? else none) = none := by
    split
    · exact List.getElem?_eq_none (by omega)
    · rfl
  rw [onRow, h]
  change (if op = .elem then r.select [d] else _) = _
  rw [if_neg hop, none]
  rfl

/-! ### Sums -/

theorem dyadic_texts (ha : a.text? = some s) (hb : b.text? = some t) :
    dyadic op limit a b = op.onTexts limit a s t := by
  cases a with
  | string | char =>
    cases b with
    | string | char =>
      cases ha
      cases hb
      rfl
    | _ => cases hb
  | _ => cases ha

theorem add_texts (ha : a.text? = some s) (hb : b.text? = some t) :
    dyadic .add limit a b = sized limit (s ++ t) := dyadic_texts ha hb

theorem concat_texts (ha : a.text? = some s) (hb : b.text? = some t) :
    dyadic .concat limit a b = sized limit (s ++ t) := dyadic_texts ha hb

theorem text?_ofList (s : List Char) : (Value.string (String.ofList s)).text? = some s := by
  rw [Value.text?, String.toList_ofList]

/-- What is made of a string that the limit refuses is refused, if it is of no smaller size. -/
theorem sized_bind {f : Value → Checked Value} (size : s.length ≤ w.length)
    (h : s.length ≤ limit → f (.string (String.ofList s)) = sized limit w) :
    (sized limit s >>= f) = sized limit w := by
  by_cases fits : s.length ≤ limit
  · rw [sized, if_pos fits]
    exact h fits
  · rw [sized, if_neg fits, sized, if_neg (by omega)]
    rfl

theorem add_assoc_texts (ha : a.text? = some s) (hb : b.text? = some t) (hc : c.text? = some u) :
    (do dyadic .add limit (← dyadic .add limit a b) c) =
      (do dyadic .add limit a (← dyadic .add limit b c)) := by
  have left : (do dyadic .add limit (← dyadic .add limit a b) c) = sized limit (s ++ t ++ u) := by
    rw [add_texts ha hb]
    exact sized_bind (by simp) fun _ => add_texts (text?_ofList _) hc
  have right : (do dyadic .add limit a (← dyadic .add limit b c)) = sized limit (s ++ (t ++ u)) := by
    rw [add_texts hb hc]
    exact sized_bind (by simp) fun _ => add_texts ha (text?_ofList _)
  rw [left, right, List.append_assoc]

/-! ### Repetitions -/

theorem replicate_eq_sized (s : List Char) (n : Int64) :
    replicate limit s n = sized limit (List.replicate n.toInt.toNat s).flatten := by
  have size : (List.replicate n.toInt.toNat s).flatten.length = s.length * n.toInt.toNat := by
    simp [Nat.mul_comm]
  rw [replicate, sized, size]
  cases s with
  | nil => simp
  | cons c s => rfl

theorem int_mul_text (ha : a.text? = some s) (n : Int64) :
    dyadic .mul limit (.int n) a = sized limit (List.replicate n.toInt.toNat s).flatten := by
  rw [← replicate_eq_sized]
  cases a with
  | string | char =>
    cases ha
    rfl
  | _ => cases ha

theorem text_mul_int (ha : a.text? = some s) (n : Int64) :
    dyadic .mul limit a (.int n) = sized limit (List.replicate n.toInt.toNat s).flatten := by
  rw [← replicate_eq_sized]
  cases a with
  | string | char =>
    cases ha
    rfl
  | _ => cases ha

/-- Adding a text over and over to a string that fits. -/
theorem foldlM_add (ha : a.text? = some s) (k : Nat) (fits : w.length ≤ limit) :
    (List.replicate k a).foldlM (dyadic .add limit) (.string (String.ofList w)) =
      sized limit (w ++ (List.replicate k s).flatten) := by
  induction k generalizing w with
  | zero =>
    rw [List.replicate_zero, List.replicate_zero, List.flatten_nil, List.append_nil, sized, if_pos fits]
    rfl
  | succ k ih =>
    rw [List.replicate_succ, List.replicate_succ, List.foldlM_cons, List.flatten_cons,
      ← List.append_assoc, add_texts (text?_ofList w) ha]
    exact sized_bind (by simp) ih

theorem sum_eq_sized (ha : a.text? = some s) {k : Nat} (hk : 2 ≤ k) :
    (List.replicate (k - 1) a).foldlM (dyadic .add limit) a =
      sized limit (List.replicate k s).flatten := by
  obtain ⟨k, rfl⟩ : ∃ j, k = j + 2 := ⟨k - 2, by omega⟩
  have twice : (List.replicate (k + 2) s).flatten = s ++ s ++ (List.replicate k s).flatten := by
    simp [List.replicate_succ]
  change (List.replicate (k + 1) a).foldlM _ a = _
  rw [List.replicate_succ, List.foldlM_cons, add_texts ha ha, twice]
  exact sized_bind (by simp) (foldlM_add ha k)

theorem mul_add_mul (ha : a.text? = some s) {m k : Int64} (hm : 0 ≤ m) (hn : 0 ≤ n)
    (hk : k.toInt = m.toInt + n.toInt) :
    (do dyadic .add limit (← dyadic .mul limit (.int m) a) (← dyadic .mul limit (.int n) a)) =
      dyadic .mul limit (.int k) a := by
  rw [Int64.le_iff_toInt_le, Int64.toInt_zero] at hm hn
  have count : k.toInt.toNat = m.toInt.toNat + n.toInt.toNat := by omega
  rw [int_mul_text ha, int_mul_text ha, int_mul_text ha, count, List.replicate_add, List.flatten_append]
  refine sized_bind (by simp) fun _ => ?_
  exact sized_bind (by simp) fun _ => add_texts (text?_ofList _) (text?_ofList _)

theorem sized_empty (limit : Nat) : sized limit [] = .ok (.string "") := if_pos (Nat.zero_le _)

theorem sized_replicate (s : List Char) (n : Int64) :
    sized limit (List.replicate n.toInt.toNat s).flatten =
      if n.toInt * s.length ≤ limit then
        .ok (.string (String.ofList (List.replicate n.toInt.toNat s).flatten))
      else fault (.objectTooLarge limit) := by
  have size : ((List.replicate n.toInt.toNat s).flatten.length : Int) ≤ limit ↔
      n.toInt * s.length ≤ limit := by
    rw [List.length_flatten, List.map_replicate, List.sum_replicate_nat, Int.natCast_mul]
    by_cases positive : 0 ≤ n.toInt
    · rw [Int.toNat_of_nonneg positive]
    · have product : n.toInt * s.length ≤ 0 :=
        Int.mul_nonpos_of_nonpos_of_nonneg (by omega) (by omega)
      rw [Int.toNat_of_nonpos (by omega)]
      omega
  rw [sized]
  exact if_congr (Int.ofNat_le.symm.trans size) rfl rfl

end StandardOperator

namespace Value

open StandardOperator (dyadic monadic)

variable {text : String} {i : Int64} {limit : Nat}

/-! ### Parts -/

theorem contains_characters :
    (Bounds.upTo text.length).contains i = true ↔ 1 ≤ i.toInt ∧ i.toInt ≤ text.length := by
  have hu := i.toInt_lt
  have hlower : (Bounds.upTo text.length).lower.toInt = 1 := rfl
  rw [Bounds.contains_iff, hlower, Bounds.upTo, toInt_saturate]
  omega

theorem dims_characters (text : String) : (characters text).dims = [.upTo text.length] := by
  rw [characters, Row.vector, List.size_toArray, List.length_map, String.length_toList]

theorem select_characters {k : Nat} {c : Char} (hi : i.toInt = k + 1)
    (hc : text.toList[k]? = some c) : (characters text).select [i] = .ok (.char c) := by
  have inside := (List.getElem?_eq_some_iff.mp hc).1
  rw [String.length_toList] at inside
  have within : Row.Within (characters text).dims [i] := by
    rw [dims_characters]
    exact .cons (contains_characters.mpr (by omega)) .nil
  have place : Row.place [.upTo text.length] [i] = k := by
    change (i.toInt - 1).toNat * 1 + 0 = k
    omega
  rw [Row.select_of_within within, Row.elementAt_eq_ok_iff, dims_characters, place, characters,
    Row.vector, List.getElem?_toArray, List.getElem?_map, hc]
  rfl

theorem select_characters_outside (hi : ¬ (1 ≤ i.toInt ∧ i.toInt ≤ text.length)) :
    (characters text).select [i] = fault (.indexOutOfBounds i 1 (saturate text.length)) := by
  rw [Row.select, Row.position, dims_characters, Row.positionIn,
    if_neg (mt contains_characters.mp hi)]
  rfl

theorem upb_string : dyadic .upb limit (.int 1) (.string text) = .ok (.int (saturate text.length)) := by
  have first : (characters text).dims[(0 : Int64).toInt.toNat]? = some (.upTo text.length) := by
    rw [dims_characters]
    rfl
  exact @StandardOperator.onRow_bounds .upb _ _ 1 _ rfl (by decide) (by decide) first

theorem elem_string : dyadic .elem limit (.int i) (.string text) = (characters text).select [i] := rfl

theorem slice_string_at (store : Store) :
    slice store (.string text) [.at i] = (characters text).select [i] := by
  change (do (characters text).select (← (characters text).subscripts [.at i])) = _
  rw [Row.subscripts, Row.dimensions, dims_characters]
  rfl

theorem slice_string_length (store : Store) {indexers : List Indexer} (h : indexers.length ≠ 1) :
    slice store (.string text) indexers = fault (.dimensionMismatch 1 indexers.length) := by
  have one : (characters text).dimensions = 1 := by
    rw [Row.dimensions, dims_characters]
    rfl
  change (if indexers.all Indexer.isSubscript then sliceRow (characters text) indexers else _) = _
  rw [sliceRow]
  split
  · rw [Row.subscripts, one, if_neg h]
    rfl
  · change ((characters text).trim indexers >>= _) = _
    rw [Row.trim, one, if_pos h]
    rfl

theorem ofChars_map (cs : List Char) :
    ofChars (cs.map Value.char).toArray = .string (String.ofList cs) := by
  rw [ofChars, List.filterMap_map]
  congr 2
  exact List.filterMap_some

theorem length_between {first last : Int} (hf : 1 ≤ first) (hl : last ≤ text.length) :
    (between first last text.toList).length = (last - first + 1).toNat := by
  rw [between, List.length_drop, List.length_take, String.length_toList]
  omega

/-- The characters that a trimmer goes through. -/
theorem mapM_select_characters {first last : Int64} (hf : 1 ≤ first.toInt)
    (hl : last.toInt ≤ text.length) :
    (Row.subscriptsWithin [(first, (⟨first, last⟩ : Bounds).count)]).mapM (characters text).select =
      .ok ((between first.toInt last.toInt text.toList).map Value.char) := by
  have hu := last.toInt_lt
  have count : (⟨first, last⟩ : Bounds).count = (last.toInt - first.toInt + 1).toNat := by
    simp only [Bounds.count, Bounds.extent, maxCount]
    omega
  have subscripts (n : Nat) : Row.subscriptsWithin [(first, n)] =
      (List.range n).map fun step : Nat => [saturate (first.toInt + step)] := by
    exact List.flatMap_pure_eq_map _ _
  rw [count, subscripts, Checked.mapM_eq_ok_iff, List.forall₂_map_left_iff,
    List.forall₂_map_right_iff, List.forall₂_iff_get]
  refine ⟨by rw [List.length_range, length_between hf hl], fun k hk hk' => ?_⟩
  rw [List.length_range] at hk
  simp only [List.get_eq_getElem, List.getElem_range]
  have there : text.toList[(first.toInt - 1).toNat + k]? =
      some (between first.toInt last.toInt text.toList)[k] := by
    have h := getElem?_between first.toInt last.toInt text.toList k
    rw [if_pos (by omega), List.getElem?_eq_getElem hk'] at h
    exact h.symm
  refine select_characters ?_ there
  rw [toInt_saturate]
  omega

variable {lower upper : Option Int64}

theorem slice_string_trim (store : Store) :
    slice store (.string text) [.trim lower upper] =
      ((Indexer.trim lower upper).range (.upTo text.length) >>= fun range =>
        (Row.subscriptsWithin [range]).mapM (characters text).select >>= fun cs =>
          pure (ofChars cs.toArray)) := by
  have one : [Indexer.trim lower upper].length = (characters text).dims.length := by
    rw [dims_characters]
    rfl
  change ((characters text).trim [.trim lower upper] >>= fun row => pure (ofChars row.elements)) = _
  rw [Row.trim_eq one, dims_characters, Row.ranges]
  cases (Indexer.trim lower upper).range (.upTo text.length) with
  | error f => rfl
  | ok range =>
    change (((Row.subscriptsWithin [range]).mapM (characters text).select >>= _) >>= _) =
      ((Row.subscriptsWithin [range]).mapM (characters text).select >>= _)
    cases (Row.subscriptsWithin [range]).mapM (characters text).select <;> rfl

/-- A place in a text of a given length, counted from one. -/
abbrev Inside (length : Nat) (i : Int64) : Prop := 1 ≤ i.toInt ∧ i.toInt ≤ length

theorem isEmpty_iff {b : Bounds} : b.isEmpty = true ↔ b.upper.toInt < b.lower.toInt := by
  rw [Bounds.isEmpty, decide_eq_true_iff, Int64.lt_iff_toInt_lt]

/-- What a trimmer leaves of a string: nothing where it ends before it begins, otherwise the characters
between its ends, if these are places of the string. -/
theorem slice_string_eq (store : Store) {first last : Int64} (hf : first = lower.getD 1)
    (hl : last = upper.getD (saturate text.length)) :
    slice store (.string text) [.trim lower upper] =
      if last.toInt < first.toInt then .ok (.string "")
      else if ¬ Inside text.length first then
        fault (.indexOutOfBounds first 1 (saturate text.length))
      else if ¬ Inside text.length last then
        fault (.indexOutOfBounds last 1 (saturate text.length))
      else .ok (.string (String.ofList (between first.toInt last.toInt text.toList))) := by
  have trimmed : Indexer.trimmed (.upTo text.length) lower upper = ⟨first, last⟩ := by
    rw [hf, hl]
    rfl
  rw [slice_string_trim, Indexer.range, trimmed]
  simp only [isEmpty_iff, Bool.not_eq_true', ← Bool.not_eq_true, contains_characters]
  split
  case isTrue h =>
    have none : (⟨first, last⟩ : Bounds).count = 0 := by
      simp only [Bounds.count, Bounds.extent]
      omega
    rw [none]
    rfl
  case isFalse =>
    split
    case isTrue => rfl
    case isFalse lower =>
      split
      case isTrue => rfl
      case isFalse upper =>
        change ((Row.subscriptsWithin [(first, (⟨first, last⟩ : Bounds).count)]).mapM
          (characters text).select >>= _) = _
        rw [mapM_select_characters (not_not.mp lower).1 (not_not.mp upper).2]
        exact congrArg Except.ok (ofChars_map _)

/-- A value that is read as the characters of `s` and then those of `t`: so far it goes, and these are
its elements and its slices. -/
structure Spells (s t : List Char) (v : Value) : Prop where
  bounds : ∀ limit, dyadic .lwb limit (.int 1) v = .ok (.int 1) ∧
    dyadic .upb limit (.int 1) v = .ok (.int (saturate (s.length + t.length))) ∧
    monadic .lwb v = .ok (.int 1) ∧
    monadic .upb v = .ok (.int (saturate (s.length + t.length)))
  front : ∀ limit (i : Int64) (k : Nat) c, s[k]? = some c → i.toInt = k + 1 →
    dyadic .elem limit (.int i) v = .ok (.char c)
  back : ∀ limit (i : Int64) (k : Nat) c, t[k]? = some c → i.toInt = s.length + (k + 1) →
    dyadic .elem limit (.int i) v = .ok (.char c)
  outside : ∀ limit i, ¬ Inside (s.length + t.length) i →
    dyadic .elem limit (.int i) v = fault (.indexOutOfBounds i 1 (saturate (s.length + t.length)))
  subscript : ∀ store limit i, slice store v [.at i] = dyadic .elem limit (.int i) v
  trimmer : ∀ store lower upper first last, first = lower.getD 1 →
    last = upper.getD (saturate (s.length + t.length)) →
    slice store v [.trim lower upper] =
      if last.toInt < first.toInt then .ok (.string "")
      else if ¬ Inside (s.length + t.length) first then
        fault (.indexOutOfBounds first 1 (saturate (s.length + t.length)))
      else if ¬ Inside (s.length + t.length) last then
        fault (.indexOutOfBounds last 1 (saturate (s.length + t.length)))
      else .ok (.string (String.ofList (between first.toInt last.toInt s ++
        between (first.toInt - s.length) (last.toInt - s.length) t)))
  arity : ∀ store (indexers : List Indexer), indexers.length ≠ 1 →
    slice store v indexers = fault (.dimensionMismatch 1 indexers.length)

theorem spells_append (s t : List Char) : Spells s t (.string (String.ofList (s ++ t))) := by
  have size : (String.ofList (s ++ t)).length = s.length + t.length := by
    rw [String.length_ofList, List.length_append]
  have chars : (String.ofList (s ++ t)).toList = s ++ t := String.toList_ofList
  have reach : saturate (String.ofList (s ++ t)).length = saturate (s.length + t.length) := by
    rw [size]
    rfl
  have upb (limit : Nat) : dyadic .upb limit (.int 1) (.string (String.ofList (s ++ t))) =
      .ok (.int (saturate (s.length + t.length))) := by
    rw [← reach]
    exact upb_string
  refine ⟨fun limit => ⟨rfl, upb limit, rfl, upb limit⟩, fun limit i k c hc hi => ?_,
    fun limit i k c hc hi => ?_, fun limit i hi => ?_, fun store limit i => slice_string_at store,
    fun store lower upper first last hf hl => ?_, fun store indexers h => slice_string_length store h⟩
  · refine select_characters hi ?_
    rw [chars, List.getElem?_append_left (List.getElem?_eq_some_iff.mp hc).1, hc]
  · refine select_characters (k := s.length + k) (by omega) ?_
    rw [chars, List.getElem?_append_right (by omega), Nat.add_sub_cancel_left, hc]
  · rw [elem_string, select_characters_outside (size.symm ▸ hi), reach]
  · rw [slice_string_eq store hf (reach.symm ▸ hl), reach, size, chars, between_append]

end Value

open StandardOperator (dyadic) in
/-- Strings are a monoid whose elements are limited in size. A sum of two texts is their characters in
order, if the limit allows as many, and it does not matter how a sum of three is put together. A
repetition is the sum of as many copies, refused just where that is: when the copies together have more
characters than the limit allows. Repetitions of a text add up like their numbers. What is read of a sum
by its bounds, its elements and its slices is read of the first text and then of the second. -/
theorem strings_monoid (limit : Nat) (a b c : Value) (s t u : List Char) (ha : a.text? = some s)
    (hb : b.text? = some t) (hc : c.text? = some u) :
    (dyadic .add limit a b = if s.length + t.length ≤ limit then
        .ok (.string (String.ofList (s ++ t))) else fault (.objectTooLarge limit)) ∧
    dyadic .concat limit a b = dyadic .add limit a b ∧
    (do dyadic .add limit (← dyadic .add limit a b) c) =
      (do dyadic .add limit a (← dyadic .add limit b c)) ∧
    (∀ n : Int64,
      dyadic .mul limit (.int n) a = dyadic .mul limit a (.int n) ∧
      (n ≤ 0 → dyadic .mul limit a (.int n) = .ok (.string "")) ∧
      (2 ≤ n → dyadic .mul limit a (.int n) =
        (List.replicate (n.toInt.toNat - 1) a).foldlM (dyadic .add limit) a) ∧
      (dyadic .mul limit a (.int n) = if n.toInt * s.length ≤ limit then
          .ok (.string (String.ofList (List.replicate n.toInt.toNat s).flatten))
        else fault (.objectTooLarge limit)) ∧
      ((∃ f, dyadic .mul limit a (.int n) = .error f) ↔ (limit : Int) < n.toInt * s.length)) ∧
    (∀ m n k : Int64, 0 ≤ m → 0 ≤ n → k.toInt = m.toInt + n.toInt →
      (do dyadic .add limit (← dyadic .mul limit (.int m) a) (← dyadic .mul limit (.int n) a)) =
        dyadic .mul limit (.int k) a) ∧
    (∀ v, dyadic .add limit a b = .ok v → v.Spells s t) := by
  have sum : dyadic .add limit a b = if s.length + t.length ≤ limit then
      .ok (.string (String.ofList (s ++ t))) else fault (.objectTooLarge limit) := by
    rw [StandardOperator.add_texts ha hb, StandardOperator.sized, List.length_append]
  have repetition (n : Int64) : dyadic .mul limit a (.int n) = if n.toInt * s.length ≤ limit then
        .ok (.string (String.ofList (List.replicate n.toInt.toNat s).flatten))
      else fault (.objectTooLarge limit) := by
    rw [StandardOperator.text_mul_int ha, StandardOperator.sized_replicate]
  refine ⟨sum, ?_, StandardOperator.add_assoc_texts ha hb hc, fun n => ⟨?_, fun hn => ?_, fun hn => ?_,
    repetition n, ?_⟩, fun m n k hm hn hk => StandardOperator.mul_add_mul ha hm hn hk, fun v hv => ?_⟩
  · rw [StandardOperator.concat_texts ha hb, StandardOperator.add_texts ha hb]
  · rw [StandardOperator.int_mul_text ha, StandardOperator.text_mul_int ha]
  · rw [Int64.le_iff_toInt_le, Int64.toInt_zero] at hn
    rw [StandardOperator.text_mul_int ha, Int.toNat_of_nonpos hn]
    exact StandardOperator.sized_empty limit
  · rw [Int64.le_iff_toInt_le] at hn
    have two : 2 ≤ n.toInt.toNat := by
      change (2 : Int) ≤ n.toInt at hn
      omega
    rw [StandardOperator.text_mul_int ha, StandardOperator.sum_eq_sized ha two]
  · rw [repetition]
    split
    case isTrue fits =>
      constructor
      · rintro ⟨f, hf⟩
        cases hf
      · intro above
        omega
    case isFalse above => exact ⟨fun _ => by omega, fun _ => ⟨_, rfl⟩⟩
  · rw [sum] at hv
    split at hv
    · cases hv
      exact Value.spells_append s t
    · cases hv

open StandardOperator (dyadic) in
theorem strings_monoid_of_abc :
    dyadic .add 4 (.char 'a') (.string "bc") = .ok (.string "abc") ∧
    dyadic .mul 4 (.string "bc") (.int 3) = fault (.objectTooLarge 4) ∧
    Value.slice ⟨#[]⟩ (.string "abc") [.trim (some 2) none] = .ok (.string "bc") := by
  obtain ⟨sum, -, -, -, -, parts⟩ :=
    strings_monoid 4 (.char 'a') (.string "bc") (.string "") ['a'] ['b', 'c'] [] rfl rfl rfl
  obtain ⟨-, -, -, repetition, -, -⟩ :=
    strings_monoid 4 (.string "bc") (.char 'a') (.string "") ['b', 'c'] ['a'] [] rfl rfl rfl
  obtain ⟨-, -, -, larger, -⟩ := repetition 3
  refine ⟨sum, larger, ?_⟩
  exact (parts _ sum).trimmer ⟨#[]⟩ (some 2) none 2 3 rfl rfl

end Algol68
