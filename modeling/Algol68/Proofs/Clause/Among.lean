import Algol68.Proofs.Clause.Items
import Algol68.Proofs.Build.Tables
import Algol68.Proofs.Scope.Environ
import Mathlib.Logic.Relation

/-! What stands among the items of a clause. Nodes of some kinds are looked into for their parts; what is met
so is met within a depth of the number of nodes, whether the tree has cycles or not. A walk is taken up at the
labelled units that are met through groups, declaration lists and inlined serial clauses, and the labels of a
clause are those of the labelled units that are met through groups and inlined serial clauses only. -/

namespace Algol68

/-- Whether a clause runs the parts of a node of this kind as its own items. -/
def NodeKind.transparent : NodeKind → Bool
  | .group _ | .declarationList _ | .serialClause .. => true
  | _ => false

namespace Tree

variable {t t' : Tree} {p q : NodeKind → Bool} {n c x u : NodeId} {l : LabelId}
  {items : List NodeId}

/-- A node is looked into, and has the part. -/
def Into (t : Tree) (p : NodeKind → Bool) (n c : NodeId) : Prop :=
  p (t.kind n) ∧ c ∈ t.children (t.kind n)

/-- A node is one of the items, or is met among them where nodes of some kinds are looked into. -/
def Among (t : Tree) (p : NodeKind → Bool) (items : List NodeId) (x : NodeId) : Prop :=
  ∃ n ∈ items, Relation.ReflTransGen (t.Into p) n x

/-- A walk over the items that looks for the node finds it. -/
def ResumesAt (t : Tree) (items : List NodeId) (x : NodeId) : Prop :=
  (t.walk (some x) items).pending = none

/-- A tree with nothing left of the nodes that are not looked into. -/
def prune (t : Tree) (p : NodeKind → Bool) : Tree :=
  { t with nodes := t.nodes.map fun x => if p x.kind then x else ⟨.punct, x.mode, x.span⟩ }

theorem size_prune : (t.prune p).size = t.size := Array.size_map

theorem kind_prune : (t.prune p).kind n = if p (t.kind n) then t.kind n else .punct := by
  simp only [kind, node, prune, Array.getD_eq_getD_getElem?, Array.getElem?_map]
  cases t.nodes[n.index]? with
  | none => simp
  | some x =>
    simp only [Option.map_some, Option.getD_some]
    split <;> rfl

theorem children_prune (kind : NodeKind) : (t.prune p).children kind = t.children kind := by
  cases kind <;> rfl

theorem mem_children_prune : c ∈ (t.prune p).children ((t.prune p).kind n) ↔ t.Into p n c := by
  rw [kind_prune, children_prune, Into]
  split
  · next h => simp [h]
  · next h => simp [h, children]

theorem reflTransGen_into_iff :
    Relation.ReflTransGen (t.Into p) n x ↔ ∃ k, (t.prune p).Path k n x := by
  constructor
  · intro h
    induction h using Relation.ReflTransGen.head_induction_on with
    | refl => exact ⟨0, .here x⟩
    | head hc _ ih =>
      obtain ⟨k, hk⟩ := ih
      exact ⟨k + 1, .down (mem_children_prune.mpr hc) hk⟩
  · rintro ⟨k, hk⟩
    induction hk with
    | here n => exact .refl
    | down hc _ ih => exact .head (mem_children_prune.mp hc) ih

section

variable {α : Type} {f : Nat → NodeId → List α} {a : α}
  (zero : ∀ n, f 0 n = [])
  (inner : ∀ d n, p (t.kind n) → f (d + 1) n = (t.children (t.kind n)).flatMap (f d))
  (outer : ∀ d n, ¬ p (t.kind n) → f (d + 1) n = f 1 n)

include zero inner outer

/-- What is gathered to a depth belongs to nodes that are not looked into, at the ends of shorter paths. -/
theorem mem_gathered_iff {d : Nat} : a ∈ f d n ↔
    ∃ k < d, ∃ x, (t.prune p).Path k n x ∧ ¬ p (t.kind x) ∧ a ∈ f 1 x := by
  induction d generalizing n with
  | zero => simp [zero]
  | succ d ih =>
    by_cases hp : p (t.kind n)
    · rw [inner d n hp, List.mem_flatMap]
      constructor
      · rintro ⟨c, hc, ha⟩
        obtain ⟨k, hk, x, hx, h⟩ := ih.mp ha
        exact ⟨k + 1, Nat.succ_lt_succ hk, x, .down (mem_children_prune.mpr ⟨hp, hc⟩) hx, h⟩
      · rintro ⟨k, hk, x, hx, h⟩
        cases hx with
        | here => exact absurd hp h.1
        | down hc hx =>
          exact ⟨_, (mem_children_prune.mp hc).2, ih.mpr ⟨_, Nat.lt_of_succ_lt_succ hk, x, hx, h⟩⟩
    · rw [outer d n hp]
      constructor
      · exact fun ha => ⟨0, Nat.succ_pos d, n, .here n, hp, ha⟩
      · rintro ⟨k, hk, x, hx, h⟩
        cases hx with
        | here => exact h.2
        | down hc _ => exact absurd (mem_children_prune.mp hc).1 hp

/-- To the depth of the number of nodes, all that is met is gathered. -/
theorem mem_gathered_size_iff (there : ∀ x, a ∈ f 1 x → x.index < t.size) : a ∈ f t.size n ↔
    ∃ x, Relation.ReflTransGen (t.Into p) n x ∧ ¬ p (t.kind x) ∧ a ∈ f 1 x := by
  rw [mem_gathered_iff zero inner outer]
  constructor
  · rintro ⟨k, -, x, hx, h⟩
    exact ⟨x, reflTransGen_into_iff.mpr ⟨k, hx⟩, h⟩
  · rintro ⟨x, hx, h⟩
    obtain ⟨k, hk⟩ := reflTransGen_into_iff.mp hx
    -- the path may run in a cycle; without the rounds it is shorter than the number of nodes
    obtain ⟨i, hi, hx⟩ := hk.exists_short (by rw [size_prune]; exact there x h.2)
    exact ⟨i, by rwa [size_prune] at hi, x, hx, h⟩

end

/-- The labels of a clause are those of the labelled units among its items, but for declaration lists. -/
theorem mem_labelsOf_iff :
    l ∈ t.labelsOf items ↔ ∃ x, t.IsLabelled l x ∧ t.Among NodeKind.gathers items x := by
  have single (x : NodeId) : ¬ (t.kind x).gathers ∧ l ∈ t.labelsOfItem 1 x ↔ t.IsLabelled l x := by
    rw [labelsOfItem, IsLabelled]
    cases t.kind x <;> simp [NodeKind.gathers, labelsOfItem, eq_comm]
  have item (n : NodeId) : l ∈ t.labelsOfItem t.size n ↔
      ∃ x, Relation.ReflTransGen (t.Into NodeKind.gathers) n x ∧ t.IsLabelled l x := by
    rw [mem_gathered_size_iff (p := NodeKind.gathers) (fun n => rfl)]
    · simp only [single]
    · intro d n hp
      cases hk : t.kind n with
      | group items | serialClause scope items =>
        rw [labelsOfItem, hk]
        rfl
      | _ =>
        rw [hk] at hp
        cases hp
    · intro d n hp
      cases hk : t.kind n with
      | group items | serialClause scope items =>
        rw [hk] at hp
        exact absurd rfl hp
      | _ => rw [labelsOfItem, labelsOfItem, hk]
    · intro x hx
      apply index_lt_of_kind
      intro hk
      simp [labelsOfItem, hk] at hx
  simp only [labelsOf, List.mem_flatMap, item, Among]
  constructor
  · rintro ⟨n, hn, x, hx, h⟩
    exact ⟨x, h, n, hn, hx⟩
  · rintro ⟨x, h, n, hn, hx⟩
    exact ⟨n, hn, x, hx, h⟩

theorem mem_clauseItems_iff : .labelled x u ∈ t.clauseItems items ↔
    (∃ l, t.kind x = .labeled l u) ∧ t.Among NodeKind.transparent items x := by
  have single (y : NodeId) : ¬ (t.kind y).transparent ∧ .labelled x u ∈ t.itemsOf 1 y ↔
      y = x ∧ ∃ l, t.kind x = .labeled l u := by
    rw [itemsOf]
    constructor
    · rintro ⟨hp, hy⟩
      cases hk : t.kind y <;> simp_all [NodeKind.transparent]
    · rintro ⟨rfl, l, hk⟩
      simp [hk, NodeKind.transparent]
  have item (n : NodeId) : .labelled x u ∈ t.itemsOf t.size n ↔
      Relation.ReflTransGen (t.Into NodeKind.transparent) n x ∧ ∃ l, t.kind x = .labeled l u := by
    rw [mem_gathered_size_iff (p := NodeKind.transparent) (fun n => rfl)]
    · simp only [single]
      constructor
      · rintro ⟨_, hx, rfl, h⟩
        exact ⟨hx, h⟩
      · exact fun h => ⟨x, h.1, rfl, h.2⟩
    · intro d n hp
      cases hk : t.kind n with
      | group items | declarationList items | serialClause scope items =>
        rw [itemsOf, hk]
        rfl
      | _ =>
        rw [hk] at hp
        cases hp
    · intro d n hp
      cases hk : t.kind n with
      | group items | declarationList items | serialClause scope items =>
        rw [hk] at hp
        exact absurd rfl hp
      | _ => rw [itemsOf, itemsOf, hk]
    · intro y hy
      apply index_lt_of_kind
      intro hk
      simp [itemsOf, hk] at hy
  simp only [clauseItems, List.mem_flatMap, item, Among]
  constructor
  · rintro ⟨n, hn, hx, h⟩
    exact ⟨h, n, hn, hx⟩
  · rintro ⟨h, n, hn, hx⟩
    exact ⟨n, hn, hx, h⟩

theorem resumesAt_iff : t.ResumesAt items x ↔
    (∃ l, t.IsLabelled l x) ∧ t.Among NodeKind.transparent items x := by
  rw [ResumesAt, walk_eq]
  constructor
  · intro h
    obtain ⟨before, u, after, hitems, -⟩ := ClauseItem.walk_found h
    obtain ⟨⟨l, hk⟩, hx⟩ := mem_clauseItems_iff.mp (hitems ▸ by simp : .labelled x u ∈ t.clauseItems items)
    exact ⟨⟨l, u, hk⟩, hx⟩
  · rintro ⟨⟨l, u, hk⟩, hx⟩
    exact ClauseItem.walk_finds (mem_clauseItems_iff.mpr ⟨⟨l, hk⟩, hx⟩)

/-! Looking into more kinds, and into larger trees. -/

theorem transparent_of_gathers {kind : NodeKind} (h : kind.gathers) : kind.transparent := by
  cases kind with
  | group items | serialClause scope items => rfl
  | _ => cases h

theorem Among.imp (h : t.Among p items x) (hi : ∀ n c, t.Into p n c → t'.Into q n c) :
    t'.Among q items x := by
  obtain ⟨n, hn, hx⟩ := h
  exact ⟨n, hn, Relation.ReflTransGen.mono hi _ _ hx⟩

theorem Among.transparent (h : t.Among NodeKind.gathers items x) :
    t.Among NodeKind.transparent items x :=
  h.imp fun _ _ hi => ⟨transparent_of_gathers hi.1, hi.2⟩

theorem mem_list_iff {r : NodeRange} :
    c ∈ t.list r ↔ ∃ i < r.length, t.lists[r.start + i]? = some c := by
  rw [list, Segment.read, List.mem_iff_getElem?]
  simp only [Array.getElem?_toList, Array.getElem?_extract]
  refine exists_congr fun i => ?_
  split
  · next hi =>
    have : i < r.length := by omega
    simp [this]
  · next hi =>
    simp only [reduceCtorEq, false_iff, not_and]
    intro hlt hc
    obtain ⟨hs, -⟩ := Array.getElem?_eq_some_iff.mp hc
    omega

theorem Extends.mem_list (h : t.Extends t') {r : NodeRange} (hc : c ∈ t.list r) : c ∈ t'.list r := by
  obtain ⟨i, hi, hc⟩ := mem_list_iff.mp hc
  obtain ⟨hs, -⟩ := Array.getElem?_eq_some_iff.mp hc
  exact mem_list_iff.mpr ⟨i, hi, (h.lists _ hs).trans hc⟩

/-- Where only kinds of clauses are looked into, what was met is met in a larger tree. -/
theorem Extends.into (h : t.Extends t') (hp : ∀ kind, p kind → kind.transparent)
    (hi : t.Into p n c) : t'.Into p n c := by
  have ht := hp _ hi.1
  have hk := h.kind_eq (n := n) (index_lt_of_kind fun hk => by simp [hk, NodeKind.transparent] at ht)
  have part : c ∈ t'.children (t.kind n) := by
    have hc := hi.2
    cases hk : t.kind n with
    | group items | declarationList items | serialClause scope items =>
      rw [hk] at hc
      exact h.mem_list hc
    | _ =>
      rw [hk] at ht
      cases ht
  exact ⟨hk ▸ hi.1, hk ▸ part⟩

/-- Among nodes that were there, no more is met in a larger tree. -/
theorem Extends.among_of_orderly (h : t.Extends t') (ho : t.Orderly)
    (hi : ∀ n ∈ items, n.index < t.size) (hx : t'.Among p items x) :
    x.index < t.size ∧ t.Among p items x := by
  obtain ⟨n, hn, hx⟩ := hx
  suffices hs : n.index < t.size → x.index < t.size ∧ Relation.ReflTransGen (t.Into p) n x from
    ⟨(hs (hi n hn)).1, n, hn, (hs (hi n hn)).2⟩
  clear hn
  induction hx using Relation.ReflTransGen.head_induction_on with
  | refl => exact fun hn => ⟨hn, .refl⟩
  | @head n c hc _ ih =>
    intro hn
    have into : t.Into p n c := by
      rw [Into, h.kind_eq hn, h.children_eq (ho.refers n hn)] at hc
      exact hc
    obtain ⟨hx, hr⟩ := ih (Nat.lt_trans (ho.earlier n c into.2) hn)
    exact ⟨hx, .head into hr⟩

theorem carries_iff_into :
    t.Carries n x ↔ ∃ c, t.Into NodeKind.gathers n c ∧
      Relation.ReflTransGen (t.Into NodeKind.gathers) c x := by
  constructor
  · intro h
    induction h with
    | item hn hc => exact ⟨_, ⟨hn, hc⟩, .refl⟩
    | inner hn hc _ ih =>
      obtain ⟨d, hd, hx⟩ := ih
      exact ⟨_, ⟨hn, hc⟩, .head hd hx⟩
  · rintro ⟨c, hc, h⟩
    induction h using Relation.ReflTransGen.head_induction_on generalizing n with
    | refl => exact .item hc.1 hc.2
    | head hd _ ih => exact .inner hc.1 hc.2 (ih hd)

theorem carries_iff_among {scope : ScopeId} {r : NodeRange} (hk : t.kind n = .serialClause scope r) :
    t.Carries n x ↔ t.Among NodeKind.gathers (t.list r) x := by
  simp only [carries_iff_into, Into, hk, NodeKind.gathers, children, true_and, Among]

theorem Claims.mem_labelsOf {scope : ScopeId} {r : NodeRange} (h : t.Claims n l)
    (hk : t.kind n = .serialClause scope r) : l ∈ t.labelsOf (t.list r) := by
  obtain ⟨-, x, hx, hl⟩ := h
  exact mem_labelsOf_iff.mpr ⟨x, hl, (carries_iff_among hk).mp hx⟩

theorem Extends.claims (h : t.Extends t') (hc : t.Claims n l) : t'.Claims n l := by
  obtain ⟨⟨scope, r, hk⟩, x, hx, u, hu⟩ := hc
  have there {n : NodeId} (hn : t.kind n ≠ .punct) : t'.kind n = t.kind n :=
    h.kind_eq (index_lt_of_kind hn)
  have into {n c : NodeId} : t.Into NodeKind.gathers n c → t'.Into NodeKind.gathers n c :=
    h.into fun _ => transparent_of_gathers
  obtain ⟨c, hc, hx⟩ := carries_iff_into.mp hx
  refine ⟨⟨scope, r, (there (by simp [hk])).trans hk⟩, x, ?_, u, (there (by simp [hu])).trans hu⟩
  exact carries_iff_into.mpr ⟨c, into hc, Relation.ReflTransGen.mono (fun _ _ => into) _ _ hx⟩

end Tree

end Algol68
