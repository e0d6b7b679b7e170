import Algol68.Program.Builder
import Algol68.Proofs.Clause.Items

/-! Tables as a builder makes them. Nodes are made of earlier ones and stay as they are, and labels and
ranges change only where an entry is modified. -/

namespace Algol68

namespace NodeKind

/-- The list of nodes that a node of this kind refers to. -/
def range? : NodeKind → Option NodeRange
  | .serialClause _ r | .group r | .declarationList r | .collateral r | .parallel r | .call _ r
  | .slice _ r | .generator _ r | .integerCase _ _ r _ | .conformityCase _ _ r _ => some r
  | _ => none

/-- Whether the labels among the parts of a node of this kind are those of the clause around it. -/
def gathers : NodeKind → Bool
  | .serialClause .. | .group _ => true
  | _ => false

end NodeKind

namespace Tree

variable {t t' : Tree} {n c x u : NodeId} {l : LabelId} {kind : NodeKind}

/-- What a kind refers to is there. -/
structure Refers (t : Tree) (kind : NodeKind) : Prop where
  range : ∀ r ∈ kind.range?, r.start + r.length ≤ t.lists.size
  loop : ∀ l, kind = .loop l → l.index < t.loops.size
  alternative : ∀ a, kind = .conformityAlternative a → a.index < t.alternatives.size
  parts : ∀ c ∈ t.children kind, c.index < t.size

/-- All that is in one tree is at the same place in another one. -/
structure Extends (t t' : Tree) : Prop where
  nodes : ∀ i < t.nodes.size, t'.nodes[i]? = t.nodes[i]?
  lists : ∀ i < t.lists.size, t'.lists[i]? = t.lists[i]?
  loops : ∀ i < t.loops.size, t'.loops[i]? = t.loops[i]?
  alternatives : ∀ i < t.alternatives.size, t'.alternatives[i]? = t.alternatives[i]?

/-- Every node is made of earlier ones. -/
structure Orderly (t : Tree) : Prop where
  refers : ∀ n, n.index < t.size → t.Refers (t.kind n)
  earlier : ∀ n, ∀ c ∈ t.children (t.kind n), c.index < n.index

/-- A node stands among the items of a serial clause or group, directly or in groups and inlined
serial clauses. -/
inductive Carries (t : Tree) : NodeId → NodeId → Prop where
  | item {n c : NodeId} (hn : (t.kind n).gathers) (hc : c ∈ t.children (t.kind n)) : Carries t n c
  | inner {n c x : NodeId} (hn : (t.kind n).gathers) (hc : c ∈ t.children (t.kind n))
      (h : Carries t c x) : Carries t n x

def IsSerial (t : Tree) (n : NodeId) : Prop := ∃ scope items, t.kind n = .serialClause scope items

def IsLabelled (t : Tree) (l : LabelId) (n : NodeId) : Prop := ∃ unit, t.kind n = .labeled l unit

/-- A serial clause takes the label when it is made. -/
def Claims (t : Tree) (s : NodeId) (l : LabelId) : Prop :=
  t.IsSerial s ∧ ∃ n, t.Carries s n ∧ t.IsLabelled l n

theorem IsLabelled.index_lt (h : t.IsLabelled l n) : n.index < t.size := by
  obtain ⟨u, hk⟩ := h
  exact index_lt_of_kind (by simp [hk])

/-! Larger trees. -/

theorem size_le_of_same {α : Type} {a b : Array α} (h : ∀ i < a.size, b[i]? = a[i]?) :
    a.size ≤ b.size := by
  apply Nat.le_of_not_lt
  intro hi
  have := h b.size hi
  rw [Array.getElem?_eq_none (Nat.le_refl _), Array.getElem?_eq_getElem hi] at this
  cases this

theorem read_eq_of_same {k : Table} {a b : Array (Index k)} (h : ∀ i < a.size, b[i]? = a[i]?)
    {r : Segment k} (hr : r.start + r.length ≤ a.size) : r.read b = r.read a := by
  have hle := size_le_of_same h
  apply List.ext_getElem?
  intro i
  simp only [Segment.read, Array.getElem?_toList, Array.getElem?_extract, Nat.min_eq_left hr,
    Nat.min_eq_left (Nat.le_trans hr hle)]
  split
  · exact h _ (by omega)
  · rfl

namespace Extends

variable (h : t.Extends t')

include h

theorem size_le : t.size ≤ t'.size := size_le_of_same h.nodes

theorem kind_eq (hn : n.index < t.size) : t'.kind n = t.kind n := by
  simp only [kind, node, Array.getD_eq_getD_getElem?]
  rw [h.nodes n.index hn]

theorem list_eq {r : NodeRange} (hr : r.start + r.length ≤ t.lists.size) :
    t'.list r = t.list r := read_eq_of_same h.lists hr

theorem loopParts_eq {l : LoopId} (hl : l.index < t.loops.size) :
    t'.loopParts l = t.loopParts l := by
  simp only [loopParts, Array.getD_eq_getD_getElem?]
  rw [h.loops l.index hl]

theorem alternative_eq {a : AlternativeId} (ha : a.index < t.alternatives.size) :
    t'.alternative a = t.alternative a := by
  simp only [alternative, Array.getD_eq_getD_getElem?]
  rw [h.alternatives a.index ha]

theorem children_eq (hr : t.Refers kind) : t'.children kind = t.children kind := by
  cases kind with
  | serialClause | group | declarationList | collateral | parallel | generator =>
    exact h.list_eq (hr.range _ rfl)
  | call | slice => exact congrArg (List.cons _) (h.list_eq (hr.range _ rfl))
  | integerCase | conformityCase =>
    simp only [children, h.list_eq (hr.range _ rfl)]
  | conformityAlternative a => simp only [children, h.alternative_eq (hr.alternative a rfl)]
  | loop l => simp only [children, h.loopParts_eq (hr.loop l rfl)]
  | _ => rfl

theorem isLabelled_iff (hn : n.index < t.size) : t'.IsLabelled l n ↔ t.IsLabelled l n := by
  simp only [IsLabelled, h.kind_eq hn]

end Extends

theorem Extends.refl (t : Tree) : t.Extends t :=
  ⟨fun _ _ => rfl, fun _ _ => rfl, fun _ _ => rfl, fun _ _ => rfl⟩

theorem Extends.trans {t'' : Tree} (h : t.Extends t') (h' : t'.Extends t'') : t.Extends t'' := by
  constructor
  · intro i hi
    exact (h'.nodes i (Nat.lt_of_lt_of_le hi (size_le_of_same h.nodes))).trans (h.nodes i hi)
  · intro i hi
    exact (h'.lists i (Nat.lt_of_lt_of_le hi (size_le_of_same h.lists))).trans (h.lists i hi)
  · intro i hi
    exact (h'.loops i (Nat.lt_of_lt_of_le hi (size_le_of_same h.loops))).trans (h.loops i hi)
  · intro i hi
    exact (h'.alternatives i (Nat.lt_of_lt_of_le hi (size_le_of_same h.alternatives))).trans
      (h.alternatives i hi)

theorem getElem?_push_of_lt {α : Type} {a : Array α} {x : α} {i : Nat} (h : i < a.size) :
    (a.push x)[i]? = a[i]? := by
  rw [Array.getElem?_push_lt h, Array.getElem?_eq_getElem h]

theorem extends_push (t : Tree) (x : Node) : t.Extends (t.push x).2 :=
  ⟨fun _ h => getElem?_push_of_lt h, fun _ _ => rfl, fun _ _ => rfl, fun _ _ => rfl⟩

theorem extends_pushList (t : Tree) (ns : List NodeId) : t.Extends (t.pushList ns).2 := by
  refine ⟨fun _ _ => rfl, fun i h => ?_, fun _ _ => rfl, fun _ _ => rfl⟩
  rw [← Array.getElem?_toList, ← Array.getElem?_toList, pushList, Array.toList_appendList,
    List.getElem?_append_left h]

theorem size_append {α : Type} (a : Array α) (xs : List α) :
    (a ++ xs).size = a.size + xs.length := by
  rw [← Array.length_toList, Array.toList_appendList, List.length_append, Array.length_toList]

theorem read_append {k : Table} (a : Array (Index k)) (xs : List (Index k)) :
    Segment.read ⟨a.size, xs.length⟩ (a ++ xs) = xs := by
  simp [Segment.read]

theorem list_pushList (t : Tree) (ns : List NodeId) :
    (t.pushList ns).2.list (t.pushList ns).1 = ns := read_append t.lists ns

theorem extends_pushLoop (t : Tree) (p : LoopParts) : t.Extends (t.pushLoop p).2 :=
  ⟨fun _ _ => rfl, fun _ _ => rfl, fun _ h => getElem?_push_of_lt h, fun _ _ => rfl⟩

theorem extends_pushAlternative (t : Tree) (a : Alternative) :
    t.Extends (t.pushAlternative a).2 :=
  ⟨fun _ _ => rfl, fun _ _ => rfl, fun _ _ => rfl, fun _ h => getElem?_push_of_lt h⟩

/-- The node that is made next. -/
def next (t : Tree) : NodeId := ⟨t.size⟩

theorem kind_push (t : Tree) (x : Node) : (t.push x).2.kind t.next = x.kind := by
  simp [kind, node, push, next, size]

theorem eq_next_of_push {x : Node} (h : t.size ≤ n.index) (h' : n.index < (t.push x).2.size) :
    n = t.next := by
  cases n
  simp only [push, size, Array.size_push] at h h'
  simp only [next, size, Index.mk.injEq]
  omega

end Tree

namespace LabelTable

variable {t : LabelTable} {l k : LabelId} {n : NodeId}

theorem get_push (x : Label) (h : l.index < t.size) : (t.push x).2.get l = t.get l := by
  simp only [get, push, Array.getD_eq_getD_getElem?]
  rw [Tree.getElem?_push_of_lt h]

theorem get_push_size (t : LabelTable) (x : Label) : (t.push x).2.get ⟨t.size⟩ = x := by
  simp only [get, push, size, Array.getD_eq_getD_getElem?, Array.getElem?_push_size, Option.getD_some]

theorem get_modify (t : LabelTable) (k l : LabelId) (f : Label → Label) :
    (LabelTable.mk (t.labels.modify k.index f)).get l =
      if k = l ∧ l.index < t.size then f (t.get l) else t.get l := by
  have same : k = l ↔ k.index = l.index := by
    constructor
    · exact congrArg Index.index
    · intro h
      cases k
      cases l
      exact congrArg Index.mk h
  simp only [get, Array.getD_eq_getD_getElem?, Array.getElem?_modify, same]
  by_cases hk : k.index = l.index
  · by_cases hl : l.index < t.size
    · have hl' : l.index < t.labels.size := hl
      simp [hk, hl, hl']
    · rw [if_pos hk, Array.getElem?_eq_none (Nat.le_of_not_lt hl)]
      simp [hl]
  · simp [hk]

theorem size_foldl_setOwner (ls : List LabelId) (n : NodeId) :
    (ls.foldl (·.setOwner · n) t).size = t.size := by
  induction ls generalizing t with
  | nil => rfl
  | cons k ls ih => exact ih.trans (by simp [setOwner, size])

/-- The labels that were given to a clause belong to it, and are as they were otherwise. -/
theorem get_foldl_setOwner (ls : List LabelId) (n : NodeId) (hl : l.index < t.size) :
    (ls.foldl (·.setOwner · n) t).get l =
      if l ∈ ls then { t.get l with owner := some n } else t.get l := by
  induction ls generalizing t with
  | nil => rfl
  | cons k ls ih =>
    have hsize : (t.setOwner k n).size = t.size := by simp [setOwner, size]
    have first : (t.setOwner k n).get l = _ := t.get_modify k l _
    rw [List.foldl_cons, ih (by rw [hsize]; exact hl), first]
    by_cases hk : k = l
    · simp [hk, hl]
    · simp [hk, Ne.symm hk]

end LabelTable

theorem ScopeTable.hasLabels_modify (t : ScopeTable) (k s : ScopeId) (f : Scope → Scope)
    (hf : ∀ x, x.hasLabels → (f x).hasLabels) (h : (t.get s).hasLabels) :
    ((ScopeTable.mk (t.scopes.modify k.index f)).get s).hasLabels := by
  simp only [get, Array.getD_eq_getD_getElem?, Array.getElem?_modify] at h ⊢
  cases hs : t.scopes[s.index]? with
  | none => simp [hs, Scope.standard] at h
  | some x =>
    rw [hs] at h
    by_cases hk : k.index = s.index
    · simpa [hk] using hf x h
    · simpa [hk] using h

theorem ScopeTable.hasLabels_push (t : ScopeTable) (parent s : ScopeId)
    (h : (t.get s).hasLabels) : ((t.push parent).2.get s).hasLabels := by
  have hs : s.index < t.scopes.size := by
    apply Nat.lt_of_not_le
    intro hle
    rw [get, Array.getD_eq_getD_getElem?, Array.getElem?_eq_none hle] at h
    cases h
  simp only [get, push, Array.getD_eq_getD_getElem?] at h ⊢
  rw [Tree.getElem?_push_of_lt hs]
  exact h

theorem ScopeTable.hasLabels_markLabels (t : ScopeTable) {s : ScopeId} (h : s.index < t.size) :
    ((t.markLabels s).get s).hasLabels := by
  have hs : s.index < t.scopes.size := h
  simp only [get, markLabels, Array.getD_eq_getD_getElem?, Array.getElem?_modify]
  rw [if_pos trivial, Array.getElem?_eq_getElem hs]
  rfl

/-- The builder after a step of assembly. -/
abbrev Builder.after (b : Builder) {α : Type} (x : Build α) : Builder := (x.run b).2

end Algol68
