import Algol68.Proofs.Build.Traversal
import Algol68.Proofs.Clause.Among

/-! What the calls that assemble a program make of its labels. A label belongs to the last serial clause that
a call for serial clauses has made with its labelled unit among the items, and it is a call for labelled units
that gives it a target. Nodes of these kinds can be made without such a call, and then change no label. -/

namespace Algol68

theorem LabelTable.get_of_size_le {t : LabelTable} {l : LabelId} (h : t.size ≤ l.index) :
    t.get l = default := by
  rw [get, Array.getD_eq_getD_getElem?, Array.getElem?_eq_none h]
  rfl

namespace Builder

/-- The serial clause that a call makes and gives the labels among its items. -/
def Call.clause? (b : Builder) : Call → Option NodeId
  | .serial s ns m => some ((Builder.serial s ns m).run b).1
  | .statements s ns m => some ((Builder.statements s ns m).run b).1
  | _ => none

/-- The labelled unit that a call makes and gives its label for a target. -/
def Call.labelled? (b : Builder) : Call → Option NodeId
  | .labeled l n => some ((Builder.labeled l n).run b).1
  | _ => none

/-- The nodes that are found in the calls, one after the other. -/
def nodesOf (f : Builder → Call → Option NodeId) (b : Builder) : List Call → List NodeId
  | [] => []
  | c :: cs => (f b c).toList ++ (c.run b).nodesOf f cs

/-- A part of each label is as it was, or is one of the nodes. -/
def Passes (part : Label → Option NodeId) (holds : Tree → NodeId → LabelId → Prop) (b b' : Builder)
    (ns : List NodeId) : Prop :=
  ∀ l, part (b'.labels.get l) = part (b.labels.get l) ∨
    ∃ n ∈ ns, part (b'.labels.get l) = some n ∧ holds b'.tree n l

/-- The range of every label knows that it has labels. -/
def Marked (b : Builder) : Prop :=
  ∀ l : LabelId, l.index < b.labels.size → (b.scopes.get (b.labels.get l).scope).hasLabels

variable {b b' : Builder} {scope : ScopeId} {items : List NodeId} {mode : ModeId} {l : LabelId}
  {s n x : NodeId} {c : Call} {cs : List Call}

/-! One call. -/

/-- Each label that a new serial clause takes belongs to it, the others are as they were. -/
theorem get_serial (h : (serial scope items mode).run b = (s, b')) (hl : l.index < b.labels.size) :
    (l ∈ b'.tree.labelsOf items → b'.labels.get l = { b.labels.get l with owner := some s }) ∧
    (l ∉ b'.tree.labelsOf items → b'.labels.get l = b.labels.get l) := by
  cases h
  have get := LabelTable.get_foldl_setOwner (t := b.labels)
    ((b.after (serial scope items mode)).tree.labelsOf items) b.tree.next hl
  exact ⟨fun h => get.trans (if_pos h), fun h => get.trans (if_neg h)⟩

theorem labels_size_serial (h : (serial scope items mode).run b = (s, b')) :
    b'.labels.size = b.labels.size := by
  cases h
  exact LabelTable.size_foldl_setOwner _ _

theorem get_serial_of_size_le (h : (serial scope items mode).run b = (s, b'))
    (hl : b.labels.size ≤ l.index) : b'.labels.get l = b.labels.get l := by
  rw [LabelTable.get_of_size_le hl, LabelTable.get_of_size_le]
  rwa [labels_size_serial h]

theorem claims_serial (h : (serial scope items mode).run b = (s, b'))
    (hl : l ∈ b'.tree.labelsOf items) : b'.tree.Claims s l := by
  obtain ⟨r, hk, hr⟩ := b.serial_after scope items mode []
  cases h
  obtain ⟨x, hx, ha⟩ := Tree.mem_labelsOf_iff.mp hl
  exact ⟨⟨scope, r, hk⟩, x, (Tree.carries_iff_among hk).mpr (by rwa [hr]), hx⟩

/-- Separators are added to the tree, and nothing else changes. -/
theorem after_separated (b : Builder) (units : List NodeId) :
    b.after (separated units) = { b with tree := (b.after (separated units)).tree } := by
  induction units generalizing b with
  | nil => rfl
  | cons unit rest ih =>
    cases rest with
    | nil => rfl
    | cons next rest => exact ih (b.after (node .separator .void .dummy))

theorem run_statements (b : Builder) (scope : ScopeId) (units : List NodeId) (mode : ModeId) :
    (statements scope units mode).run b =
      (serial scope ((separated units).run b).1 mode).run (b.after (separated units)) := rfl

theorem get_label (b : Builder) (scope : ScopeId) (name : String) (l : LabelId) :
    ((b.after (label scope name)).labels.get l).owner = (b.labels.get l).owner ∧
      ((b.after (label scope name)).labels.get l).target = (b.labels.get l).target := by
  change ((b.labels.labels.push _).getD l.index default).owner = _ ∧
    ((b.labels.labels.push _).getD l.index default).target = _
  rw [LabelTable.get, Array.getD_eq_getD_getElem?, Array.getD_eq_getD_getElem?, Array.getElem?_push]
  split
  · next hl =>
    rw [hl, Array.getElem?_eq_none (Nat.le_refl _)]
    exact ⟨rfl, rfl⟩
  · exact ⟨rfl, rfl⟩

theorem get_labeled (b : Builder) (k : LabelId) (unit : NodeId) (l : LabelId) :
    (b.after (labeled k unit)).labels.get l =
      if k = l ∧ l.index < b.labels.size then { b.labels.get l with target := some b.tree.next }
      else b.labels.get l := b.labels.get_modify k l _

theorem passes_serial (b : Builder) (scope : ScopeId) (items : List NodeId) (mode : ModeId) :
    b.Passes Label.owner Tree.Claims (b.after (serial scope items mode))
      [((serial scope items mode).run b).1] := by
  intro l
  by_cases hl : l.index < b.labels.size
  · obtain ⟨taken, left⟩ := get_serial (rfl : (serial scope items mode).run b = _) hl
    by_cases hm : l ∈ (b.after (serial scope items mode)).tree.labelsOf items
    · exact .inr ⟨_, List.mem_singleton_self _, congrArg Label.owner (taken hm), claims_serial rfl hm⟩
    · exact .inl (congrArg Label.owner (left hm))
  · exact .inl (congrArg Label.owner (get_serial_of_size_le rfl (Nat.le_of_not_lt hl)))

theorem Call.passes_owner (b : Builder) (c : Call) :
    b.Passes Label.owner Tree.Claims (c.run b) (c.clause? b).toList := by
  cases c with
  | label scope name => exact fun l => .inl (b.get_label scope name l).1
  | labeled k unit =>
    intro l
    refine .inl ?_
    rw [Call.run, get_labeled]
    split <;> rfl
  | serial scope items mode => exact b.passes_serial scope items mode
  | statements scope units mode =>
    have h := (b.after (separated units)).passes_serial scope ((separated units).run b).1 mode
    intro l
    have before : (b.after (separated units)).labels = b.labels := by
      rw [b.after_separated units]
    rw [← before]
    exact h l
  | _ => exact fun l => .inl rfl

theorem target_serial (h : (serial scope items mode).run b = (s, b')) (l : LabelId) :
    (b'.labels.get l).target = (b.labels.get l).target := by
  by_cases hl : l.index < b.labels.size
  · obtain ⟨taken, left⟩ := get_serial h hl
    by_cases hm : l ∈ b'.tree.labelsOf items
    · rw [taken hm]
    · rw [left hm]
  · rw [get_serial_of_size_le h (Nat.le_of_not_lt hl)]

theorem Call.passes_target (b : Builder) (c : Call) :
    b.Passes Label.target (fun t n l => t.IsLabelled l n) (c.run b) (c.labelled? b).toList := by
  cases c with
  | label scope name => exact fun l => .inl (b.get_label scope name l).2
  | labeled k unit =>
    intro l
    rw [Call.run, get_labeled]
    split
    · next h =>
      obtain ⟨rfl, -⟩ := h
      exact .inr ⟨_, List.mem_singleton_self _, rfl, unit, b.tree.kind_push _⟩
    · exact .inl rfl
  | serial scope items mode => exact fun l => .inl (target_serial rfl l)
  | statements scope units mode =>
    intro l
    have before : (b.after (separated units)).labels = b.labels := by
      rw [b.after_separated units]
    rw [← before]
    exact .inl (target_serial (b.run_statements scope units mode) l)
  | _ => exact fun l => .inl rfl

/-- What a call finds is a new node. -/
theorem Call.new_of_clause? (h : c.clause? b = some s) :
    b.tree.size ≤ s.index ∧ s.index < (c.run b).tree.size := by
  cases c with
  | serial scope items mode =>
    cases h
    exact ⟨Nat.le_refl _, Nat.lt_of_lt_of_eq (Nat.lt_succ_self _) (Array.size_push _).symm⟩
  | statements scope units mode =>
    cases h
    exact ⟨(b.grows_separated units).tree.size_le,
      Nat.lt_of_lt_of_eq (Nat.lt_succ_self _) (Array.size_push _).symm⟩
  | _ => cases h

theorem Marked.of_same (h : b.Marked) (hg : b.Grows b') (hl : b'.labels.size = b.labels.size)
    (hs : ∀ s, (b.scopes.get s).hasLabels → (b'.scopes.get s).hasLabels) : b'.Marked := by
  intro l hlt
  rw [hl] at hlt
  rw [hg.declared l hlt]
  exact hs _ (h l hlt)

theorem Marked.label (h : b.Marked) (hs : scope.index < b.scopes.size) (name : String) :
    (b.after (Builder.label scope name)).Marked := by
  intro l hl
  have hsize : (b.after (Builder.label scope name)).labels.size = b.labels.size + 1 :=
    Array.size_push _
  by_cases hlt : l.index < b.labels.size
  · rw [(b.grows_label scope name).declared l hlt]
    exact ScopeTable.hasLabels_modify _ scope _ _ (fun _ _ => rfl) (h l hlt)
  · obtain rfl : l = ⟨b.labels.size⟩ := by
      rw [hsize] at hl
      exact congrArg Index.mk (Nat.le_antisymm (Nat.le_of_lt_succ hl) (Nat.le_of_not_lt hlt))
    have new : ((b.after (Builder.label scope name)).labels.get ⟨b.labels.size⟩).scope = scope :=
      congrArg Label.scope (b.labels.get_push_size _)
    rw [new]
    exact b.scopes.hasLabels_markLabels hs

theorem Call.marked (h : b.Marked) (hc : c.Known b) : (c.run b).Marked := by
  cases c with
  | label scope name => exact h.label hc name
  | scope parent =>
    exact h.of_same (Call.grows b _) rfl fun s => ScopeTable.hasLabels_push _ parent s
  | declare scope mode =>
    exact h.of_same (Call.grows b _) rfl fun s =>
      ScopeTable.hasLabels_modify _ scope s _ fun _ h => h
  | labeled k unit => exact h.of_same (Call.grows b _) Array.size_modify fun _ h => h
  | serial scope items mode =>
    exact h.of_same (Call.grows b _) (LabelTable.size_foldl_setOwner _ _) fun _ h => h
  | statements scope units mode =>
    have same := b.after_separated units
    refine h.of_same (Call.grows b _) ?_ fun s hs => ?_
    · exact (LabelTable.size_foldl_setOwner _ _).trans (congrArg (·.labels.size) same)
    · exact (congrArg (fun b : Builder => (b.scopes.get s).hasLabels = true) same).mpr hs
  | _ => exact h.of_same (Call.grows b _) rfl fun _ h => h

/-! All calls. -/

theorem Passes.trans {part : Label → Option NodeId} {holds : Tree → NodeId → LabelId → Prop}
    {b'' : Builder} {ns ns' : List NodeId} (h : b.Passes part holds b' ns)
    (h' : b'.Passes part holds b'' ns') (kept : ∀ n l, holds b'.tree n l → holds b''.tree n l) :
    b.Passes part holds b'' (ns ++ ns') := by
  intro l
  rcases h' l with same | ⟨n, hn, taken⟩
  · rcases h l with same' | ⟨n, hn, hs, hc⟩
    · exact .inl (same.trans same')
    · exact .inr ⟨n, List.mem_append_left _ hn, same.trans hs, kept n l hc⟩
  · exact .inr ⟨n, List.mem_append_right _ hn, taken⟩

theorem passes_calls {part : Label → Option NodeId} {holds : Tree → NodeId → LabelId → Prop}
    {f : Builder → Call → Option NodeId}
    (step : ∀ b c, Passes part holds b (Call.run b c) (f b c).toList)
    (kept : ∀ t t' n l, Tree.Extends t t' → holds t n l → holds t' n l) (b : Builder)
    (cs : List Call) : b.Passes part holds (b.calls cs) (b.nodesOf f cs) := by
  induction cs generalizing b with
  | nil => exact fun l => .inl rfl
  | cons c cs ih =>
    exact (step b c).trans (ih _) fun n l => kept _ _ n l (calls_grows _ cs).tree

theorem owner_calls (b : Builder) (cs : List Call) :
    b.Passes Label.owner Tree.Claims (b.calls cs) (b.nodesOf Call.clause? cs) :=
  passes_calls Call.passes_owner (fun _ _ _ _ h => h.claims) b cs

theorem target_calls (b : Builder) (cs : List Call) :
    b.Passes Label.target (fun t n l => t.IsLabelled l n) (b.calls cs)
      (b.nodesOf Call.labelled? cs) :=
  passes_calls Call.passes_target
    (fun _ _ _ _ h hn => (h.isLabelled_iff hn.index_lt).mpr hn) b cs

theorem marked_calls (h : b.Marked) (hc : b.Admits cs) : (b.calls cs).Marked := by
  induction cs generalizing b with
  | nil => exact h
  | cons c cs ih => exact ih (c.marked h hc.1) hc.2

theorem le_of_mem_clauses (h : s ∈ b.nodesOf Call.clause? cs) : b.tree.size ≤ s.index := by
  induction cs generalizing b with
  | nil => cases h
  | cons c cs ih =>
    rcases List.mem_append.mp h with now | later
    · exact (Call.new_of_clause? (Option.mem_toList.mp now)).1
    · exact Nat.le_trans (c.grows b).tree.size_le (ih later)

/-- The label of a unit that is met in a serial clause, whatever comes later, belonged to it when it was
made. -/
theorem owner_serial (h : (serial scope items mode).run b = (s, b')) (hg : b'.Grounded)
    (ds : List Call) (hl : (b'.calls ds).tree.IsLabelled l x)
    (hx : (b'.calls ds).tree.Among NodeKind.gathers items x) :
    (b'.labels.get l).owner = some s := by
  have hi (n : NodeId) (hn : n ∈ items) : n.index < b'.tree.size := by
    obtain ⟨r, -, hr⟩ := b.serial_after scope items mode []
    cases h
    exact hg.lists n (Tree.mem_of_mem_list (hr.symm ▸ hn))
  -- later nodes do not come among items that were there, so the unit was met when the clause was made
  obtain ⟨there, met⟩ := (calls_grows b' ds).tree.among_of_orderly hg.orderly hi hx
  have labelled := ((calls_grows b' ds).tree.isLabelled_iff there).mp hl
  have declared : l.index < b.labels.size := by
    obtain ⟨u, hu⟩ := labelled
    rw [← labels_size_serial h]
    exact (hg.knows x there).label l (by rw [hu]; rfl)
  exact congrArg Label.owner ((get_serial h declared).1 (Tree.mem_labelsOf_iff.mpr ⟨x, labelled, met⟩))

theorem owner_serial_of_claims (hg : (b.after (serial scope items mode)).Grounded) (ds : List Call)
    (h : ((b.after (serial scope items mode)).calls ds).tree.Claims
      ((serial scope items mode).run b).1 l) :
    ((b.after (serial scope items mode)).labels.get l).owner =
      some ((serial scope items mode).run b).1 := by
  obtain ⟨-, x, hx, hl⟩ := h
  obtain ⟨r, hk, hr⟩ := b.serial_after scope items mode ds
  have met := (Tree.carries_iff_among hk).mp hx
  rw [hr] at met
  exact owner_serial rfl hg ds hl met

/-- The owner of a label that some serial clause takes is the last one that takes it. -/
theorem exists_owner (hg : b.Grounded) (hc : b.Admits cs) (hs : s ∈ b.nodesOf Call.clause? cs)
    (h : (b.calls cs).tree.Claims s l) :
    ∃ s' ∈ b.nodesOf Call.clause? cs, ((b.calls cs).labels.get l).owner = some s' ∧
      (b.calls cs).tree.Claims s' l ∧ s.index ≤ s'.index := by
  induction cs generalizing b with
  | nil => cases hs
  | cons c cs ih =>
    have hg' := c.grounded hg hc.1
    rcases List.mem_append.mp hs with now | later
    · have made := Option.mem_toList.mp now
      have owned : ((c.run b).labels.get l).owner = some s := by
        cases c with
        | serial scope items mode =>
          cases made
          exact owner_serial_of_claims hg' cs h
        | statements scope units mode =>
          cases made
          exact owner_serial_of_claims hg' cs h
        | _ => cases made
      rcases owner_calls (c.run b) cs l with same | ⟨s', hs', taken, claims⟩
      · exact ⟨s, hs, same.trans owned, h, Nat.le_refl _⟩
      · refine ⟨s', List.mem_append_right _ hs', taken, claims, Nat.le_of_lt ?_⟩
        exact Nat.lt_of_lt_of_le (Call.new_of_clause? made).2 (le_of_mem_clauses hs')
    · obtain ⟨s', hs', owner⟩ := ih hg' hc.2 later h
      exact ⟨s', List.mem_append_right _ hs', owner⟩

theorem exists_target (hc : b.Admits cs) (hx : x ∈ b.nodesOf Call.labelled? cs)
    (h : (b.calls cs).tree.IsLabelled l x) :
    ∃ y, ((b.calls cs).labels.get l).target = some y ∧ (b.calls cs).tree.IsLabelled l y := by
  induction cs generalizing b with
  | nil => cases hx
  | cons c cs ih =>
    rcases List.mem_append.mp hx with now | later
    · have made := Option.mem_toList.mp now
      have target : ((c.run b).labels.get l).target = some x := by
        cases c with
        | labeled k unit =>
          cases made
          have new : (Call.run b (.labeled k unit)).tree.kind b.tree.next = .labeled k unit :=
            b.tree.kind_push _
          have there : b.tree.next.index < (Call.run b (.labeled k unit)).tree.size :=
            Tree.index_lt_of_kind (by simp [new])
          obtain ⟨u, hk⟩ := ((calls_grows _ cs).tree.isLabelled_iff there).mp h
          obtain ⟨rfl, -⟩ := NodeKind.labeled.inj (new.symm.trans hk)
          have declared : k.index < b.labels.size := hc.1.label k rfl
          rw [Call.run, get_labeled, if_pos ⟨rfl, declared⟩]
          rfl
        | _ => cases made
      rcases target_calls (c.run b) cs l with same | ⟨y, -, hy⟩
      · exact ⟨x, same.trans target, h⟩
      · exact ⟨y, hy⟩
    · exact ih hc.2 later h

end Builder

end Algol68
