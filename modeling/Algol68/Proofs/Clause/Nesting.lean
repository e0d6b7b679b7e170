import Algol68.Proofs.Clause.Items
import Mathlib.Data.Fintype.Pigeonhole

/-! The items of a clause without a bound on their nesting. However deep groups, declaration lists and
inner serial clauses stand in each other, as long as none of them contains itself, they are not nested
deeper than there are nodes, and the bounded traversals see all of them. -/

namespace Algol68

/-- How an item stands in a clause. -/
inductive ItemShape where
  /-- Its own items stand in its place. -/
  | inlined (items : List NodeId)
  | nothing
  | one (i : ClauseItem)

namespace Tree

def shape (t : Tree) (item : NodeId) : ItemShape :=
  match t.kind item with
  | .group items | .declarationList items | .serialClause _ items => .inlined (t.list items)
  | .separator => .one .boundary
  | .punct => .nothing
  | .exit => .one .exit
  | .labeled _ unit => .one (.labelled item unit)
  | _ => .one (.unit item)

variable {t : Tree}

/-- Some items of a clause stand for a text: the items in the order of the text, with those that are
inlined in the place of what contains them. -/
inductive Reads (t : Tree) : List NodeId → List ClauseItem → Prop where
  | nil : Reads t [] []
  | inlined {item : NodeId} {items rest : List NodeId} {L M : List ClauseItem}
      (h : t.shape item = .inlined items) (hi : Reads t items L) (hr : Reads t rest M) :
      Reads t (item :: rest) (L ++ M)
  | nothing {item : NodeId} {rest : List NodeId} {M : List ClauseItem}
      (h : t.shape item = .nothing) (hr : Reads t rest M) : Reads t (item :: rest) M
  | one {item : NodeId} {rest : List NodeId} {i : ClauseItem} {M : List ClauseItem}
      (h : t.shape item = .one i) (hr : Reads t rest M) : Reads t (item :: rest) (i :: M)

theorem itemsOf_succ (depth : Nat) (item : NodeId) :
    t.itemsOf (depth + 1) item =
      match t.shape item with
      | .inlined items => items.flatMap (t.itemsOf depth)
      | .nothing => []
      | .one i => [i] := by
  cases hk : t.kind item <;> simp only [itemsOf, shape, hk]

theorem shape_of_size_le {item : NodeId} (h : t.size ≤ item.index) : t.shape item = .nothing := by
  have hk : t.kind item = .punct := by
    simp only [kind, node, Array.getD_eq_getD_getElem?]
    rw [Array.getElem?_eq_none h]
    rfl
  simp only [shape, hk]

/-- Nothing in an item is nested `depth` deep or deeper. -/
def Shallow (t : Tree) : (depth : Nat) → NodeId → Prop
  | 0, item => t.size ≤ item.index
  | depth + 1, item => ∀ items, t.shape item = .inlined items → ∀ c ∈ items, t.Shallow depth c

namespace Shallow

variable {d e : Nat} {item : NodeId}

theorem succ (h : t.Shallow d item) : t.Shallow (d + 1) item := by
  induction d generalizing item with
  | zero =>
    intro items hs
    rw [shape_of_size_le h] at hs
    cases hs
  | succ d ih =>
    intro items hs c hc
    exact ih (h items hs c hc)

theorem of_le (h : t.Shallow d item) (hle : d ≤ e) : t.Shallow e item := by
  induction hle with
  | refl => exact h
  | step _ ih => exact ih.succ

/-- The depth of an item is `d`. -/
def Exactly (t : Tree) (d : Nat) (item : NodeId) : Prop :=
  t.Shallow d item ∧ ∀ e < d, ¬ t.Shallow e item

theorem exists_exactly (h : t.Shallow d item) : ∃ e ≤ d, Exactly t e item := by
  induction d with
  | zero => exact ⟨0, Nat.le_refl _, h, fun e he => absurd he (Nat.not_lt_zero e)⟩
  | succ d ih =>
    by_cases hd : t.Shallow d item
    · obtain ⟨e, he, hx⟩ := ih hd
      exact ⟨e, by omega, hx⟩
    · refine ⟨d + 1, Nat.le_refl _, h, fun e he hs => hd (hs.of_le (by omega))⟩

theorem Exactly.unique (h : Exactly t d item) (h' : Exactly t e item) : d = e := by
  rcases Nat.lt_trichotomy d e with hlt | heq | hlt
  · exact absurd h.1 (h'.2 d hlt)
  · exact heq
  · exact absurd h'.1 (h.2 e hlt)

theorem Exactly.exists_inner (h : Exactly t (d + 2) item) : ∃ c, Exactly t (d + 1) c := by
  have deep : ¬ t.Shallow (d + 1) item := h.2 _ (by omega)
  simp only [Shallow, not_forall] at deep
  obtain ⟨items, hs, c, hc, hd⟩ := deep
  exact ⟨c, h.1 items hs c hc, fun e he hse => hd (hse.of_le (by omega))⟩

theorem Exactly.exists_at (h : Exactly t d item) : ∀ k < d, ∃ c, Exactly t (k + 1) c := by
  induction d generalizing item with
  | zero => exact fun k hk => absurd hk (Nat.not_lt_zero k)
  | succ d ih =>
    intro k hk
    cases d with
    | zero =>
      obtain rfl : k = 0 := by omega
      exact ⟨item, h⟩
    | succ d =>
      by_cases hkd : k = d + 1
      · exact ⟨item, hkd ▸ h⟩
      · obtain ⟨c, hc⟩ := h.exists_inner
        exact ih hc k (by omega)

/-- There are nodes of each depth below that of an item, so that is at most the number of nodes. -/
theorem short (h : t.Shallow d item) : t.Shallow t.size item := by
  obtain ⟨e, -, hx⟩ := h.exists_exactly
  refine hx.1.of_le ?_
  by_contra hlt
  have each (i : Fin e) := hx.exists_at i i.isLt
  choose f hf using each
  have inside (i : Fin e) : (f i).index < t.size := by
    have := (hf i).2 0 (Nat.succ_pos _)
    exact Nat.lt_of_not_le this
  obtain ⟨a, b, hne, hab⟩ := Fintype.exists_ne_map_eq_of_card_lt
    (fun i => (⟨(f i).index, inside i⟩ : Fin t.size)) (by simpa using hlt)
  have same : f a = f b := by
    have := congrArg Fin.val hab
    cases ha : f a
    cases hb : f b
    simp_all
  have := (hf a).unique (same ▸ hf b)
  exact hne (Fin.ext (by omega))

end Shallow

namespace Reads

variable {items : List NodeId} {L : List ClauseItem}

theorem shallow (h : t.Reads items L) : ∃ d, ∀ c ∈ items, t.Shallow d c := by
  have leaf {item : NodeId} {rest : List NodeId} (hs : ∀ items, t.shape item ≠ .inlined items)
      (ih : ∃ d, ∀ c ∈ rest, t.Shallow d c) : ∃ d, ∀ c ∈ item :: rest, t.Shallow d c := by
    obtain ⟨d, hd⟩ := ih
    refine ⟨d + 1, fun c hc => ?_⟩
    rcases List.mem_cons.mp hc with rfl | hc
    · exact fun items h => absurd h (hs items)
    · exact (hd c hc).succ
  induction h with
  | nil => exact ⟨0, by simp⟩
  | @inlined item items rest L M h _ _ ihi ihr =>
    obtain ⟨d, hd⟩ := ihi
    obtain ⟨e, he⟩ := ihr
    refine ⟨max d e + 1, fun c hc => ?_⟩
    rcases List.mem_cons.mp hc with rfl | hc
    · intro items' h' c hc
      cases h.symm.trans h'
      exact (hd c hc).of_le (Nat.le_max_left ..)
    · exact (he c hc).of_le (by omega)
  | nothing h _ ih =>
    apply leaf _ ih
    intro items hs
    cases h.symm.trans hs
  | one h _ ih =>
    apply leaf _ ih
    intro items hs
    cases h.symm.trans hs

theorem flatMap_eq (h : t.Reads items L) {d : Nat} (hd : ∀ c ∈ items, t.Shallow d c) :
    items.flatMap (t.itemsOf d) = L := by
  induction h generalizing d with
  | nil => rfl
  | @inlined item items rest L M h _ _ ihi ihr =>
    have hrest := ihr fun c hc => hd c (List.mem_cons_of_mem _ hc)
    have hitem := hd item (List.mem_cons_self ..)
    rw [List.flatMap_cons, hrest]
    congr 1
    cases d with
    | zero =>
      rw [shape_of_size_le hitem] at h
      cases h
    | succ d =>
      simp only [itemsOf_succ, h]
      exact ihi (hitem items h)
  | @nothing item rest M h _ ih =>
    have hrest := ih fun c hc => hd c (List.mem_cons_of_mem _ hc)
    rw [List.flatMap_cons, hrest]
    cases d with
    | zero => rfl
    | succ d => simp only [itemsOf_succ, h, List.nil_append]
  | @one item rest i M h _ ih =>
    have hrest := ih fun c hc => hd c (List.mem_cons_of_mem _ hc)
    have hitem := hd item (List.mem_cons_self ..)
    rw [List.flatMap_cons, hrest]
    cases d with
    | zero =>
      rw [shape_of_size_le hitem] at h
      cases h
    | succ d => simp only [itemsOf_succ, h, List.cons_append, List.nil_append]

/-- The bounded traversal reads the whole text. -/
theorem clauseItems_eq (h : t.Reads items L) : t.clauseItems items = L := by
  obtain ⟨d, hd⟩ := h.shallow
  exact h.flatMap_eq fun c hc => (hd c hc).short

end Reads

end Tree

end Algol68
