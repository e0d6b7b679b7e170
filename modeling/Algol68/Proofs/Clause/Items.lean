import Algol68.Program.Chain

/-! The items of a clause in the order of the text. The chain of a clause is what stands before its
first `EXIT`, and a walk that looks for a labelled unit is the chain of the text from that unit on. -/

namespace Algol68

/-- An item of a clause, with nothing inlined left in it. -/
inductive ClauseItem where
  | unit (node : NodeId)
  | labelled (item unit : NodeId)
  | boundary
  | exit
  deriving DecidableEq

namespace ClauseItem

/-- The unit that an item evaluates. -/
def unit? : ClauseItem → Option NodeId
  | .unit n | .labelled _ n => some n
  | .boundary | .exit => none

/-- What stands before the first `EXIT`. -/
def chain : List ClauseItem → Chain
  | [] => .empty
  | .exit :: _ => ⟨[], false⟩
  | .unit n :: L | .labelled _ n :: L => ⟨.unit n :: (chain L).steps, (chain L).reachesEnd⟩
  | .boundary :: L => ⟨.boundary :: (chain L).steps, (chain L).reachesEnd⟩

/-- What stands after the labelled unit looked for, up to the next `EXIT`. -/
def walk : Option NodeId → List ClauseItem → Walk
  | pending, [] => .idle pending
  | none, L => ⟨(chain L).steps, none, (chain L).reachesEnd⟩
  | some target, .labelled item n :: L =>
    if target = item then ⟨.unit n :: (chain L).steps, none, (chain L).reachesEnd⟩
    else walk (some target) L
  | some target, _ :: L => walk (some target) L

theorem chain_append (L M : List ClauseItem) :
    chain (L ++ M) = if (chain L).reachesEnd
      then ⟨(chain L).steps ++ (chain M).steps, (chain M).reachesEnd⟩ else chain L := by
  induction L with
  | nil => rfl
  | cons i L ih =>
    cases i with
    | exit => rfl
    | _ =>
      simp only [List.cons_append, chain, ih]
      split <;> simp_all

theorem walk_none (L : List ClauseItem) :
    walk none L = ⟨(chain L).steps, none, (chain L).reachesEnd⟩ := by
  cases L <;> rfl

theorem walk_append (pending : Option NodeId) (L M : List ClauseItem) :
    walk pending (L ++ M) = if (walk pending L).reachesEnd
      then { walk (walk pending L).pending M with
        steps := (walk pending L).steps ++ (walk (walk pending L).pending M).steps }
      else walk pending L := by
  cases pending with
  | none =>
    simp only [walk_none, chain_append]
    split <;> simp_all
  | some target =>
    induction L with
    | nil => simp [walk, Walk.idle]
    | cons i L ih =>
      cases i with
      | labelled item n =>
        simp only [List.cons_append, walk, chain_append]
        split
        · split <;> simp_all [walk_none]
        · exact ih
      | _ =>
        simp only [List.cons_append, walk]
        exact ih

/-- A walk that found the labelled unit it looked for is the chain of the text from there on. -/
theorem walk_found {target : NodeId} {L : List ClauseItem}
    (h : (walk (some target) L).pending = none) :
    ∃ before n after, L = before ++ .labelled target n :: after ∧
      (walk (some target) L).steps = (chain (.labelled target n :: after)).steps := by
  induction L with
  | nil => simp [walk, Walk.idle] at h
  | cons i L ih =>
    have later (h : (walk (some target) L).pending = none)
        (hw : walk (some target) (i :: L) = walk (some target) L) :
        ∃ before n after, i :: L = before ++ .labelled target n :: after ∧
          (walk (some target) (i :: L)).steps = (chain (.labelled target n :: after)).steps := by
      obtain ⟨before, n, after, rfl, hs⟩ := ih h
      exact ⟨i :: before, n, after, rfl, by rw [hw]; exact hs⟩
    cases i with
    | labelled item n =>
      by_cases ht : target = item
      · subst ht
        exact ⟨[], n, L, rfl, by simp [walk, chain]⟩
      · have hw : walk (some target) (.labelled item n :: L) = walk (some target) L := by
          simp [walk, ht]
        exact later (hw ▸ h) hw
    | _ => exact later h rfl

/-- A walk finds the labelled unit it looks for where that is one of the items. -/
theorem walk_finds {target n : NodeId} {L : List ClauseItem} (h : .labelled target n ∈ L) :
    (walk (some target) L).pending = none := by
  induction L with
  | nil => cases h
  | cons i L ih =>
    cases i with
    | labelled item k =>
      rw [walk]
      split
      · rfl
      · next ht =>
        refine ih ((List.mem_cons.mp h).resolve_left ?_)
        rintro ⟨⟩
        exact ht rfl
    | _ => exact ih ((List.mem_cons.mp h).resolve_left (by simp))

theorem exists_of_mem_chain {n : NodeId} {L : List ClauseItem} (h : .unit n ∈ (chain L).steps) :
    ∃ i ∈ L, i.unit? = some n := by
  induction L with
  | nil => cases h
  | cons i L ih =>
    have later (h : .unit n ∈ (chain L).steps) : ∃ j ∈ i :: L, j.unit? = some n := by
      obtain ⟨j, hj, hn⟩ := ih h
      exact ⟨j, List.mem_cons_of_mem _ hj, hn⟩
    cases i with
    | exit => cases h
    | boundary =>
      rcases List.mem_cons.mp h with h | h
      · cases h
      · exact later h
    | unit k | labelled item k =>
      rcases List.mem_cons.mp h with h | h
      · cases h
        exact ⟨_, List.mem_cons_self .., rfl⟩
      · exact later h

theorem exists_of_mem_walk {n : NodeId} {pending : Option NodeId} {L : List ClauseItem}
    (h : .unit n ∈ (walk pending L).steps) : ∃ i ∈ L, i.unit? = some n := by
  cases pending with
  | none =>
    rw [walk_none] at h
    exact exists_of_mem_chain h
  | some target =>
    induction L with
    | nil => cases h
    | cons i L ih =>
      have later (h : .unit n ∈ (walk (some target) L).steps) :
          ∃ j ∈ i :: L, j.unit? = some n := by
        obtain ⟨j, hj, hn⟩ := ih h
        exact ⟨j, List.mem_cons_of_mem _ hj, hn⟩
      cases i with
      | labelled item k =>
        rw [walk] at h
        split at h
        · exact exists_of_mem_chain (L := .labelled item k :: L) h
        · exact later h
      | _ => exact later h

end ClauseItem

/-- Whether the parts of a node of this kind are items of the clause around it. -/
def NodeKind.inlines : NodeKind → Bool
  | .group _ | .declarationList _ | .serialClause .. | .labeled .. => true
  | _ => false

namespace Tree

theorem kind_of_size_le {t : Tree} {n : NodeId} (h : t.size ≤ n.index) : t.kind n = .punct := by
  simp only [kind, node, Array.getD_eq_getD_getElem?]
  rw [Array.getElem?_eq_none h]
  rfl

theorem index_lt_of_kind {t : Tree} {n : NodeId} (h : t.kind n ≠ .punct) : n.index < t.size :=
  Nat.lt_of_not_le fun hn => h (kind_of_size_le hn)

/-- The items an item stands for, those inlined in it nested less than `depth` deep. -/
def itemsOf (t : Tree) : (depth : Nat) → NodeId → List ClauseItem
  | 0, _ => []
  | depth + 1, item =>
    match t.kind item with
    | .group items | .declarationList items | .serialClause _ items =>
      (t.list items).flatMap (t.itemsOf depth)
    | .separator => [.boundary]
    | .punct => []
    | .exit => [.exit]
    | .labeled _ unit => [.labelled item unit]
    | _ => [.unit item]

/-- The items of a clause in the order of the text. -/
def clauseItems (t : Tree) (items : List NodeId) : List ClauseItem :=
  items.flatMap (t.itemsOf t.size)

theorem kind_of_mem_itemsOf {t : Tree} {depth : Nat} {n item unit : NodeId}
    (h : .labelled item unit ∈ t.itemsOf depth n) : ∃ l, t.kind item = .labeled l unit := by
  induction depth generalizing n with
  | zero => cases h
  | succ depth ih =>
    rw [itemsOf] at h
    cases hk : t.kind n with
    | group items | declarationList items | serialClause scope items =>
      simp only [hk, List.mem_flatMap] at h
      obtain ⟨c, -, h⟩ := h
      exact ih h
    | labeled l u =>
      simp only [hk, List.mem_singleton, ClauseItem.labelled.injEq] at h
      obtain ⟨rfl, rfl⟩ := h
      exact ⟨l, hk⟩
    | _ => simp [hk] at h

theorem concat_chain {chain : NodeId → Chain} {items : NodeId → List ClauseItem}
    (h : ∀ n, chain n = ClauseItem.chain (items n)) (ns : List NodeId) :
    Chain.concat chain ns = ClauseItem.chain (ns.flatMap items) := by
  induction ns with
  | nil => rfl
  | cons n ns ih =>
    simp only [Chain.concat, List.flatMap_cons, ClauseItem.chain_append, h, ih]

theorem flattenItem_eq (t : Tree) (depth : Nat) (n : NodeId) :
    t.flattenItem depth n = ClauseItem.chain (t.itemsOf depth n) := by
  induction depth generalizing n with
  | zero => rfl
  | succ depth ih =>
    cases hk : t.kind n with
    | group items | declarationList items | serialClause _ items =>
      simp only [flattenItem, itemsOf, hk]
      exact concat_chain ih _
    | _ =>
      simp only [flattenItem, itemsOf, hk]
      rfl

theorem flatten_eq (t : Tree) (items : List NodeId) :
    t.flatten items = (ClauseItem.chain (t.clauseItems items)).steps :=
  congrArg Chain.steps (concat_chain (t.flattenItem_eq t.size) items)

theorem concat_walk {walk : Option NodeId → NodeId → Walk} {items : NodeId → List ClauseItem}
    (h : ∀ p n, walk p n = ClauseItem.walk p (items n)) (p : Option NodeId) (ns : List NodeId) :
    Walk.concat walk p ns = ClauseItem.walk p (ns.flatMap items) := by
  induction ns generalizing p with
  | nil => cases p <;> rfl
  | cons n ns ih =>
    simp only [Walk.concat, List.flatMap_cons, ClauseItem.walk_append, h, ih]

theorem walkItem_eq (t : Tree) (depth : Nat) (p : Option NodeId) (n : NodeId) :
    t.walkItem depth p n = ClauseItem.walk p (t.itemsOf depth n) := by
  induction depth generalizing p n with
  | zero => cases p <;> rfl
  | succ depth ih =>
    cases hk : t.kind n with
    | group items | declarationList items | serialClause _ items =>
      simp only [walkItem, itemsOf, hk]
      exact concat_walk ih p _
    | labeled label unit =>
      simp only [walkItem, itemsOf, hk]
      cases p with
      | none => rfl
      | some target =>
        by_cases ht : target = n
        · simp [ht, Walk.one, ClauseItem.walk, ClauseItem.chain, Chain.empty]
        · simp [ht, Walk.one, ClauseItem.walk]
    | _ =>
      simp only [walkItem, itemsOf, hk]
      cases p <;> rfl

theorem walk_eq (t : Tree) (p : Option NodeId) (items : List NodeId) :
    t.walk p items = ClauseItem.walk p (t.clauseItems items) :=
  concat_walk (t.walkItem_eq t.size) p items

section

variable {t : Tree} {Q : NodeId → Prop} {items : List NodeId} {u : NodeId}

/-- What holds of the items of a clause, and of the parts of what is inlined, holds of the units. -/
theorem forall_itemsOf
    (hQ : ∀ n, Q n → (t.kind n).inlines → ∀ c ∈ t.children (t.kind n), Q c) (depth : Nat)
    {n : NodeId} (hn : Q n) {i : ClauseItem} (hi : i ∈ t.itemsOf depth n)
    (hu : i.unit? = some u) : Q u := by
  induction depth generalizing n with
  | zero => cases hi
  | succ depth ih =>
    have parts := hQ n hn
    rw [itemsOf] at hi
    cases hk : t.kind n with
    | group items | declarationList items | serialClause scope items =>
      simp only [hk, List.mem_flatMap] at hi
      obtain ⟨c, hc, hi⟩ := hi
      exact ih (parts (by rw [hk]; rfl) c (by rw [hk]; exact hc)) hi
    | labeled label unit =>
      simp only [hk, List.mem_singleton] at hi
      subst hi
      cases hu
      exact parts (by rw [hk]; rfl) u (by rw [hk]; exact List.mem_singleton_self _)
    | separator | exit =>
      simp only [hk, List.mem_singleton] at hi
      subst hi
      cases hu
    | punct =>
      simp only [hk] at hi
      cases hi
    | _ =>
      simp only [hk, List.mem_singleton] at hi
      subst hi
      cases hu
      exact hn

theorem forall_clauseItems
    (hQ : ∀ n, Q n → (t.kind n).inlines → ∀ c ∈ t.children (t.kind n), Q c)
    (h : ∀ n ∈ items, Q n) {i : ClauseItem} (hi : i ∈ t.clauseItems items)
    (hu : i.unit? = some u) : Q u := by
  obtain ⟨n, hn, hi⟩ := List.mem_flatMap.mp hi
  exact forall_itemsOf hQ _ (h n hn) hi hu

theorem forall_flatten
    (hQ : ∀ n, Q n → (t.kind n).inlines → ∀ c ∈ t.children (t.kind n), Q c)
    (h : ∀ n ∈ items, Q n) (hu : .unit u ∈ t.flatten items) : Q u := by
  rw [flatten_eq] at hu
  obtain ⟨i, hi, hu⟩ := ClauseItem.exists_of_mem_chain hu
  exact forall_clauseItems hQ h hi hu

theorem forall_walk
    (hQ : ∀ n, Q n → (t.kind n).inlines → ∀ c ∈ t.children (t.kind n), Q c)
    (h : ∀ n ∈ items, Q n) {pending : Option NodeId}
    (hu : .unit u ∈ (t.walk pending items).steps) : Q u := by
  rw [walk_eq] at hu
  obtain ⟨i, hi, hu⟩ := ClauseItem.exists_of_mem_walk hu
  exact forall_clauseItems hQ h hi hu

end

end Tree

end Algol68
