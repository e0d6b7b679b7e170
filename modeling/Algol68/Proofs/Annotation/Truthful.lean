import Algol68.Machine.Unit

/-! What the machine records about nodes is true of them. A recorded chain is the chain of the node,
and a recorded strategy evaluates the node itself or, for a closed clause that can be reduced, its
only unit. -/

namespace Algol68

@[simp] theorem ChainStep.units_map_unit (ns : List NodeId) :
    ChainStep.units (ns.map .unit) = ns := by
  induction ns with
  | nil => rfl
  | cons n ns ih => exact congrArg (n :: ·) ih

theorem ChainStep.mem_units {n : NodeId} {steps : List ChainStep} :
    n ∈ ChainStep.units steps ↔ .unit n ∈ steps := by
  induction steps with
  | nil => simp [units]
  | cons step steps ih => cases step <;> simp_all [units]

namespace Program

/-- The chain there is to record for a node. -/
def chainOf (p : Program) (n : NodeId) : Option (List ChainStep) :=
  match p.tree.kind n with
  | .serialClause scope items =>
    if (p.scopes.get scope).hasLabels then none else some (p.tree.flatten (p.tree.list items))
  | .integerCase _ _ items _ | .conformityCase _ _ items _ =>
    some ((ChainStep.units (p.tree.flatten (p.tree.list items))).map .unit)
  | _ => none

/-- A closed clause without locals and labels that consists of one unit of its own mode. -/
structure Reduces (p : Program) (closed inner : NodeId) : Prop where
  clause : ∃ scope serial range items, p.tree.kind closed = .closed scope serial ∧
    (p.scopes.get scope).locals = #[] ∧ p.tree.kind serial = .serialClause range items ∧
    (p.scopes.get range).hasLabels = false ∧ p.tree.flatten (p.tree.list items) = [.unit inner]
  mode : p.tree.mode inner = p.tree.mode closed

end Program

namespace Annotations

variable {job : Job} {a : Annotations}

structure Truthful (job : Job) (a : Annotations) : Prop where
  chain : ∀ n c, a.chain n = some c → job.program.chainOf n = some c
  labelFree : ∀ n, (a.flags n).labelFree → ∃ scope items,
    job.program.tree.kind n = .serialClause scope items
  strategy : ∀ n s, a.strategy n = some s →
    s.source = n ∨ s.kind = .unit ∧ job.program.Reduces n s.source

theorem entry_new (nodes : Nat) (n : NodeId) : (Annotations.new nodes).entry n = .blank := by
  simp only [entry, Annotations.new, Array.getD_eq_getD_getElem?]
  rw [Array.getElem?_replicate]
  split <;> rfl

theorem Truthful.new (nodes : Nat) : (Annotations.new nodes).Truthful job := by
  refine ⟨fun n c h => ?_, fun n h => ?_, fun n s h => ?_⟩
  · simp [Annotations.chain, entry_new, Annotation.blank] at h
  · simp [Annotations.flags, entry_new, Annotation.blank, Flags.none] at h
  · simp [Annotations.strategy, entry_new, Annotation.blank] at h

theorem entry_modify (a : Annotations) (n k : NodeId) (f : Annotation → Annotation) :
    (Annotations.mk (a.entries.modify n.index f)).entry k = a.entry k ∨
      k = n ∧ (Annotations.mk (a.entries.modify n.index f)).entry k = f (a.entry k) := by
  simp only [entry, Array.getD_eq_getD_getElem?, Array.getElem?_modify]
  by_cases h : n.index = k.index
  · cases hk : a.entries[k.index]? with
    | none => simp
    | some e =>
      refine .inr ⟨?_, by simp [h]⟩
      cases n
      cases k
      simp_all
  · simp [h]

namespace Truthful

theorem modify (h : a.Truthful job) {n : NodeId} {f : Annotation → Annotation}
    (hchain : ∀ c, (f (a.entry n)).chain = some c → job.program.chainOf n = some c)
    (hfree : (f (a.entry n)).flags.labelFree → ∃ scope items,
      job.program.tree.kind n = .serialClause scope items)
    (hstrategy : ∀ s, (f (a.entry n)).strategy = some s →
      s.source = n ∨ s.kind = .unit ∧ job.program.Reduces n s.source) :
    Truthful job ⟨a.entries.modify n.index f⟩ := by
  refine ⟨fun k c hk => ?_, fun k hk => ?_, fun k s hk => ?_⟩
  · rcases a.entry_modify n k f with he | ⟨rfl, he⟩
    · exact h.chain k c (by simpa only [Annotations.chain, he] using hk)
    · exact hchain c (by simpa only [Annotations.chain, he] using hk)
  · rcases a.entry_modify n k f with he | ⟨rfl, he⟩
    · exact h.labelFree k (by simpa only [Annotations.flags, he] using hk)
    · exact hfree (by simpa only [Annotations.flags, he] using hk)
  · rcases a.entry_modify n k f with he | ⟨rfl, he⟩
    · exact h.strategy k s (by simpa only [Annotations.strategy, he] using hk)
    · exact hstrategy s (by simpa only [Annotations.strategy, he] using hk)

theorem beginLinearizing (h : a.Truthful job) (n : NodeId) :
    (a.beginLinearizing n).2.Truthful job := by
  simp only [Annotations.beginLinearizing]
  split
  · exact h
  · exact h.modify (h.chain n) (h.labelFree n) (h.strategy n)

theorem finishLinearizing (h : a.Truthful job) {n : NodeId} {c : List ChainStep} {extra : Flags}
    (hc : job.program.chainOf n = some c)
    (he : extra.labelFree → ∃ scope items, job.program.tree.kind n = .serialClause scope items) :
    (a.finishLinearizing n c extra).2.Truthful job := by
  unfold Annotations.finishLinearizing
  split
  · exact h
  · refine h.modify (fun c' hc' => ?_) (fun hf => ?_) (h.strategy n)
    · cases hc'
      exact hc
    · simp only [chainFlags, Flags.union, Flags.none, Bool.or_eq_true, Bool.or_false] at hf
      exact hf.elim (h.labelFree n) he

/-- A closed clause is evaluated by its only unit only where it can be reduced to it. -/
theorem closedStrategy (h : a.Truthful job) {n serial : NodeId} {scope : ScopeId}
    (hk : job.program.tree.kind n = .closed scope serial) :
    (Exec.closedStrategy job a n scope serial).source = n ∨
      (Exec.closedStrategy job a n scope serial).kind = .unit ∧
        job.program.Reduces n (Exec.closedStrategy job a n scope serial).source := by
  simp only [Exec.closedStrategy]
  split
  · next inner hc =>
    split
    · next hr =>
      simp only [Bool.and_eq_true, decide_eq_true_eq, Array.isEmpty_iff] at hr
      obtain ⟨range, items, hs⟩ := h.labelFree serial hr.1.1.2
      have hchain := h.chain serial _ hc
      simp only [Program.chainOf, hs] at hchain
      split at hchain
      · cases hchain
      · next hl =>
        refine .inr ⟨rfl, ⟨scope, serial, range, items, hk, hr.1.2, hs, ?_, ?_⟩, hr.2⟩
        · simpa using hl
        · simpa using hchain
    · exact .inl rfl
  · exact .inl rfl

theorem memoize (h : a.Truthful job) (n : NodeId) :
    (a.memoize n (Exec.strategyOf job a n)).Truthful job := by
  refine h.modify (h.chain n) (h.labelFree n) fun s hs => ?_
  cases hold : (a.entry n).strategy with
  | some t =>
    simp only [hold, Option.getD_some, Option.some.injEq] at hs
    subst hs
    exact h.strategy n t hold
  | none =>
    simp only [hold, Option.getD_none, Option.some.injEq] at hs
    subst hs
    unfold Exec.strategyOf
    split
    · next hk => exact h.closedStrategy hk
    all_goals exact .inl rfl

end Truthful

end Annotations

end Algol68
