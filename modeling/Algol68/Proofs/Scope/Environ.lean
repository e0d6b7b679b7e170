import Algol68.Proofs.Scope.Enclosure
import Mathlib.Data.Fintype.Pigeonhole

/-! The environ of a routine text. Its level is that of the deepest range outside the text that the
body refers to, however deep in the body the reference stands. -/

namespace Algol68

namespace Tree

variable (t : Tree)

/-- A node is a part of another one, nested `k` deep. -/
inductive Path : Nat → NodeId → NodeId → Prop where
  | here (n : NodeId) : Path 0 n n
  | down {k : Nat} {n c x : NodeId} (hc : c ∈ t.children (t.kind n)) (h : Path k c x) :
      Path (k + 1) n x

variable {t}

namespace Path

variable {i j k : Nat} {n x y : NodeId}

theorem append (h : t.Path i n x) (h' : t.Path j x y) : t.Path (i + j) n y := by
  induction h with
  | here => simpa using h'
  | @down i n c x hc _ ih =>
    rw [Nat.add_right_comm]
    exact .down hc (ih h')

theorem split (h : t.Path k n x) (hi : i ≤ k) : ∃ y, t.Path i n y ∧ t.Path (k - i) y x := by
  induction h generalizing i with
  | here n =>
    obtain rfl : i = 0 := by omega
    exact ⟨n, .here n, .here n⟩
  | @down k n c x hc h ih =>
    cases i with
    | zero => exact ⟨n, .here n, .down hc h⟩
    | succ i =>
      obtain ⟨y, hy, hx⟩ := ih (Nat.le_of_succ_le_succ hi)
      exact ⟨y, .down hc hy, by simpa using hx⟩

theorem children_nil (h : t.size ≤ n.index) : t.children (t.kind n) = [] := by
  have : t.kind n = .punct := by
    simp only [kind, node, Array.getD_eq_getD_getElem?]
    rw [Array.getElem?_eq_none h]
    rfl
  rw [this]
  rfl

theorem index_lt (h : t.Path k n x) (hx : x.index < t.size) : n.index < t.size := by
  cases h with
  | here => exact hx
  | @down _ _ c _ hc =>
    by_contra hn
    rw [children_nil (Nat.le_of_not_lt hn)] at hc
    cases hc

/-- A part of a node is not nested deeper than there are nodes. -/
theorem exists_short (h : t.Path k n x) (hx : x.index < t.size) : ∃ i < t.size, t.Path i n x := by
  induction k using Nat.strong_induction_on with
  | _ k ih =>
    by_cases hk : k < t.size
    · exact ⟨k, hk, h⟩
    have each (i : Fin (k + 1)) := h.split (Nat.le_of_lt_succ i.isLt)
    choose f hf hf' using each
    have inside (i : Fin (k + 1)) : (f i).index < t.size := (hf' i).index_lt hx
    -- more nodes on the way than in the tree: one of them is met twice, and the way round is cut out
    obtain ⟨a, b, hne, hab⟩ := Fintype.exists_ne_map_eq_of_card_lt
      (fun i => (⟨(f i).index, inside i⟩ : Fin t.size)) (by simp; omega)
    have same : f a = f b := by
      have := congrArg Fin.val hab
      cases ha : f a
      cases hb : f b
      simp_all
    have shorter {a b : Fin (k + 1)} (hlt : a.val < b.val) (same : f a = f b) :
        ∃ i < t.size, t.Path i n x := by
      have hp := (hf a).append (same ▸ hf' b)
      exact ih _ (by omega) hp
    rcases Nat.lt_or_gt_of_ne (Fin.val_ne_of_ne hne) with hlt | hlt
    · exact shorter hlt same
    · exact shorter hlt same.symm

end Path

variable {scopes : ScopeTable} {labels : LabelTable} {own : Nat}

theorem le_foldl_max {l a : Nat} {L : List Nat} (h : l ≤ a ∨ l ∈ L) : l ≤ L.foldl max a := by
  induction L generalizing a with
  | nil => simpa using h
  | cons b L ih =>
    refine ih ?_
    rcases h with h | h
    · exact .inl (Nat.le_trans h (Nat.le_max_left ..))
    · rcases List.mem_cons.mp h with rfl | h
      · exact .inl (Nat.le_max_right ..)
      · exact .inr h

theorem foldl_max_mem {a : Nat} {L : List Nat} : L.foldl max a = a ∨ L.foldl max a ∈ L := by
  induction L generalizing a with
  | nil => exact .inl rfl
  | cons b L ih =>
    rcases @ih (max a b) with h | h
    · rw [List.foldl_cons, h]
      rcases Nat.le_total a b with hab | hab
      · exact .inr (by simp [Nat.max_eq_right hab])
      · exact .inl (Nat.max_eq_left hab)
    · exact .inr (List.mem_cons_of_mem _ h)

/-- Every level below its own that a node nested less than `depth` deep refers to is found. -/
theorem le_youngestAt {k depth l : Nat} {n x : NodeId} (h : t.Path k n x) (hk : k < depth)
    (hl : l ∈ levels scopes labels (t.kind x)) (ho : l < own) :
    l ≤ t.youngestAt scopes labels own depth n := by
  induction h generalizing depth with
  | here n =>
    cases depth with
    | zero => omega
    | succ depth =>
      refine le_foldl_max (.inr (List.mem_append_left _ ?_))
      exact List.mem_filter.mpr ⟨hl, by simpa using ho⟩
  | @down k n c x hc _ ih =>
    cases depth with
    | zero => omega
    | succ depth =>
      have hle : l ≤ t.youngestAt scopes labels own depth c := ih (by omega) hl
      refine Nat.le_trans hle (le_foldl_max (.inr (List.mem_append_right _ ?_)))
      exact List.mem_map_of_mem hc

/-- What is found is zero or a level below its own that some part refers to. -/
theorem youngestAt_mem (depth : Nat) (n : NodeId) :
    t.youngestAt scopes labels own depth n = 0 ∨ ∃ k x, t.Path k n x ∧
      t.youngestAt scopes labels own depth n ∈ levels scopes labels (t.kind x) ∧
      t.youngestAt scopes labels own depth n < own := by
  induction depth generalizing n with
  | zero => exact .inl rfl
  | succ depth ih =>
    rw [youngestAt]
    rcases foldl_max_mem (a := 0)
        (L := (levels scopes labels (t.kind n)).filter (· < own) ++
          (t.children (t.kind n)).map (t.youngestAt scopes labels own depth)) with h | h
    · exact .inl h
    rcases List.mem_append.mp h with h' | h'
    · obtain ⟨hl, ho⟩ := List.mem_filter.mp h'
      exact .inr ⟨0, n, .here n, hl, by simpa using ho⟩
    · obtain ⟨c, hc, he⟩ := List.mem_map.mp h'
      rw [← he]
      rcases ih c with hz | ⟨k, x, hx, hl, ho⟩
      · exact .inl hz
      · exact .inr ⟨k + 1, x, .down hc hx, hl, ho⟩

end Tree

end Algol68
