import Mathlib.Data.Finset.Card
import Mathlib.Data.List.TakeWhile

/-! Tables without repetition. An entry is looked up before it is added behind the others, so an entry has
one number, which it keeps, and every number has one entry. The numbers follow the first appearances, and
an index beside the table finds the number of an entry without a search. -/

namespace Algol68

variable {α : Type} [BEq α] {xs : Array α} {x y : α} {ys : List α} {i : Nat}

/-- The number of an entry, and the table with the entry in it. -/
def enter (xs : Array α) (x : α) : Nat × Array α :=
  match xs.idxOf? x with
  | some k => (k, xs)
  | none => (xs.size, xs.push x)

/-- The table with some more entries in it. -/
def enterAll (xs : Array α) (ys : List α) : Array α := ys.foldl (fun xs y => (enter xs y).2) xs

theorem enterAll_cons (xs : Array α) (y : α) (ys : List α) :
    enterAll xs (y :: ys) = enterAll (enter xs y).2 ys := rfl

theorem enterAll_append (xs : Array α) (ys zs : List α) :
    enterAll xs (ys ++ zs) = enterAll (enterAll xs ys) zs := List.foldl_append

variable [LawfulBEq α]

theorem getElem?_of_idxOf? (h : xs.idxOf? x = some i) : xs[i]? = some x := by
  rw [Array.idxOf?_eq_map_finIdxOf?_val, Option.map_eq_some_iff] at h
  obtain ⟨k, hk, rfl⟩ := h
  have hx : xs[k] = x := (Array.finIdxOf?_eq_some_iff.mp hk).1
  rw [← hx]
  exact Array.getElem?_eq_getElem k.isLt

theorem enter_of_notMem (h : x ∉ xs) : enter xs x = (xs.size, xs.push x) := by
  simp only [enter, Array.idxOf?_eq_none_iff.mpr h]

theorem enter_of_mem (h : x ∈ xs) : ∃ k, enter xs x = (k, xs) ∧ xs[k]? = some x := by
  cases hk : xs.idxOf? x with
  | none => exact absurd h (Array.idxOf?_eq_none_iff.mp hk)
  | some k =>
    refine ⟨k, ?_, getElem?_of_idxOf? hk⟩
    simp only [enter, hk]

theorem getElem?_enter (xs : Array α) (x : α) : (enter xs x).2[(enter xs x).1]? = some x := by
  by_cases h : x ∈ xs
  · obtain ⟨k, hk, hx⟩ := enter_of_mem h
    rw [hk]
    exact hx
  · rw [enter_of_notMem h]
    exact Array.getElem?_push_size

theorem getElem?_enter_of_some (x : α) (h : xs[i]? = some y) : (enter xs x).2[i]? = some y := by
  by_cases hx : x ∈ xs
  · obtain ⟨k, hk, -⟩ := enter_of_mem hx
    rw [hk]
    exact h
  · have hi : i < xs.size := (Array.getElem?_eq_some_iff.mp h).1
    rw [enter_of_notMem hx, Array.getElem?_push_lt hi, ← h, Array.getElem?_eq_getElem hi]

theorem mem_enter : y ∈ (enter xs x).2 ↔ y ∈ xs ∨ y = x := by
  by_cases h : x ∈ xs
  · obtain ⟨k, hk, -⟩ := enter_of_mem h
    rw [hk]
    constructor
    · exact .inl
    · rintro (hy | rfl)
      · exact hy
      · exact h
  · rw [enter_of_notMem h, Array.mem_push]

theorem nodup_enter (h : xs.toList.Nodup) (x : α) : (enter xs x).2.toList.Nodup := by
  by_cases hx : x ∈ xs
  · obtain ⟨k, hk, -⟩ := enter_of_mem hx
    rw [hk]
    exact h
  · rw [enter_of_notMem hx, Array.toList_push, List.nodup_append]
    refine ⟨h, List.nodup_singleton x, fun a ha b hb => ?_⟩
    rw [List.mem_singleton.mp hb]
    rintro rfl
    exact hx (Array.mem_toList_iff.mp ha)

/-- In a table without repetition the number of an entry is its place. -/
theorem enter_of_getElem? (hn : xs.toList.Nodup) (h : xs[i]? = some x) : enter xs x = (i, xs) := by
  obtain ⟨k, hk, hx⟩ := enter_of_mem (Array.mem_of_getElem? h)
  rw [hk]
  rw [← Array.getElem?_toList] at h hx
  have hki : k = i := (List.getElem?_inj (List.getElem?_eq_some_iff.mp hx).1 hn).mp (hx.trans h.symm)
  rw [hki]

/-! Several entries, one after the other. -/

theorem getElem?_enterAll (ys : List α) (h : xs[i]? = some x) : (enterAll xs ys)[i]? = some x := by
  induction ys generalizing xs with
  | nil => exact h
  | cons y ys ih => exact ih (getElem?_enter_of_some y h)

theorem mem_enterAll : y ∈ enterAll xs ys ↔ y ∈ xs ∨ y ∈ ys := by
  induction ys generalizing xs with
  | nil => simp [enterAll]
  | cons z ys ih => rw [enterAll_cons, ih, mem_enter, List.mem_cons, or_assoc]

theorem nodup_enterAll (h : xs.toList.Nodup) (ys : List α) : (enterAll xs ys).toList.Nodup := by
  induction ys generalizing xs with
  | nil => exact h
  | cons y ys ih => exact ih (nodup_enter h y)

/-- New entries are added in their order. -/
theorem toList_enterAll (hn : ys.Nodup) (hd : ∀ y ∈ ys, y ∉ xs) :
    (enterAll xs ys).toList = xs.toList ++ ys := by
  induction ys generalizing xs with
  | nil => exact (List.append_nil _).symm
  | cons y ys ih =>
    obtain ⟨hy, hn⟩ := List.nodup_cons.mp hn
    have new : enter xs y = (xs.size, xs.push y) := enter_of_notMem (hd y (List.mem_cons_self ..))
    rw [enterAll_cons, new, ih hn fun z hz hm => ?_, Array.toList_push, List.append_assoc]
    · rfl
    · rcases Array.mem_push.mp hm with hm | rfl
      · exact hd z (List.mem_cons_of_mem _ hz) hm
      · exact hy hz

/-- However many entries come between, two entries have the same number exactly if they are equal. -/
theorem enter_eq_enter_iff (hn : xs.toList.Nodup) (x : α) (ys : List α) (y : α) :
    (enter xs x).1 = (enter (enterAll (enter xs x).2 ys) y).1 ↔ x = y := by
  have there := getElem?_enterAll ys (getElem?_enter xs x)
  have later := nodup_enterAll (nodup_enter hn x) ys
  constructor
  · intro h
    have hy := getElem?_enter (enterAll (enter xs x).2 ys) y
    rw [← h, getElem?_enter_of_some y there] at hy
    exact Option.some.inj hy
  · rintro rfl
    rw [enter_of_getElem? later there]

/-- A table holds what was entered, each entry once, in the order of the first appearances. -/
theorem toList_enterAll_empty (ys : List α) : (enterAll #[] ys).toList = ys.eraseDups := by
  induction ys using List.reverseRecOn with
  | nil => rfl
  | append_singleton ys y ih =>
    rw [enterAll_append, enterAll_cons, List.eraseDups_append, ← ih, List.removeAll]
    by_cases h : y ∈ ys
    · have dropped : [y].filter (!ys.elem ·) = [] := by simp [h]
      obtain ⟨k, hk, -⟩ := enter_of_mem (mem_enterAll.mpr (.inr h) : y ∈ enterAll #[] ys)
      rw [hk, dropped, List.eraseDups_nil, List.append_nil]
      rfl
    · have kept : [y].filter (!ys.elem ·) = [y] := by simp [h]
      have new : y ∉ enterAll #[] ys := by simpa [mem_enterAll] using h
      rw [enter_of_notMem new, kept]
      exact Array.toList_push

section Appearance

variable {β : Type} [DecidableEq β] (ys : List β) (x : β)

theorem size_enterAll_empty : (enterAll #[] ys).size = ys.toFinset.card := by
  have same : (enterAll #[] ys).toList.toFinset = ys.toFinset := by
    ext y
    simp [mem_enterAll]
  rw [← same, List.toFinset_card_of_nodup (nodup_enterAll .nil ys), Array.length_toList]

/-- The number of an entry counts the entries that appeared before it first did. -/
theorem enter_enterAll_empty :
    (enter (enterAll #[] ys) x).1 = (ys.takeWhile (· ≠ x)).toFinset.card := by
  by_cases h : x ∈ ys
  · obtain ⟨us, vs, rfl, hx⟩ := List.eq_append_cons_of_mem h
    have others : (us ++ x :: vs).takeWhile (· ≠ x) = us := by
      rw [List.takeWhile_append_of_pos fun u hu => decide_eq_true (ne_of_mem_of_not_mem hu hx)]
      simp
    have new : x ∉ enterAll #[] us := by simpa [mem_enterAll] using hx
    have once := nodup_enterAll (nodup_enter (nodup_enterAll .nil us) x) vs
    rw [others, enterAll_append, enterAll_cons,
      enter_of_getElem? once (getElem?_enterAll vs (getElem?_enter (enterAll #[] us) x)),
      enter_of_notMem new, size_enterAll_empty]
  · have new : x ∉ enterAll #[] ys := by simpa [mem_enterAll] using h
    have all : ys.takeWhile (· ≠ x) = ys :=
      List.takeWhile_eq_self_iff.mpr fun y hy => decide_eq_true (ne_of_mem_of_not_mem hy h)
    rw [all, enter_of_notMem new, size_enterAll_empty]

end Appearance

section Index

variable [Hashable α] {ι : Type} {number : ι → Nat} {index : Std.HashMap α ι} {k : ι}

/-- An index of a table has the number of each of its entries, and of nothing else. -/
def Indexes (number : ι → Nat) (index : Std.HashMap α ι) (xs : Array α) : Prop :=
  ∀ x k, index[x]? = some k ↔ xs[number k]? = some x

theorem Indexes.empty (number : ι → Nat) : Indexes number (∅ : Std.HashMap α ι) #[] := by
  intro x k
  simp

omit [LawfulBEq α] in
theorem Indexes.getElem?_of_notMem (h : Indexes number index xs) (hx : x ∉ xs) :
    index[x]? = none := by
  refine Option.eq_none_iff_forall_ne_some.mpr fun k hk => hx ?_
  exact Array.mem_of_getElem? ((h x k).mp hk)

/-- An entry that is pushed onto the table goes into the index with its place. -/
theorem Indexes.push (h : Indexes number index xs) (injective : number.Injective) (hx : x ∉ xs)
    (hk : number k = xs.size) : Indexes number (index.insert x k) (xs.push x) := by
  intro y j
  rw [Std.HashMap.getElem?_insert, Array.getElem?_push]
  by_cases hy : x = y
  · subst hy
    simp only [beq_self_eq_true, if_true, Option.some.injEq]
    constructor
    · rintro rfl
      rw [if_pos hk]
    · intro hj
      split at hj
      · next he => exact injective (hk.trans he.symm)
      · exact absurd (Array.mem_of_getElem? hj) hx
  · rw [if_neg (by simpa using hy), h y j]
    split
    · next he => simp [he, hy]
    · exact Iff.rfl

end Index

end Algol68
