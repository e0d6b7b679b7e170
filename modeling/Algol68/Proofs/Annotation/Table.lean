import Algol68.Proofs.Annotation.Lesson
import Algol68.Proofs.Clause.Items
import Mathlib.Data.Finset.Card
import Mathlib.Data.Finset.Range

/-! What stands in the table of annotations. The flags of a node tell of its chain and of nothing else,
and what is recorded is what there is to record. What a task teaches keeps this, and never changes a
chain or a strategy that is recorded. -/

namespace Algol68

variable {job : Job} {p : Program} {a a' : Annotations} {n k : NodeId} {c : List ChainStep}

/-- The flags of a node with a chain, or without one. -/
def Program.flagsOf (p : Program) (n : NodeId) : Option (List ChainStep) → Flags
  | none => .none
  | some c => ⟨false, true, (p.tree.kind n).isSerial, match c with | [.unit _] => true | _ => false⟩

namespace Annotations

theorem entry_modify_self (hn : n.index < a.size) (f : Annotation → Annotation) :
    (Annotations.mk (a.entries.modify n.index f)).entry n = f (a.entry n) := by
  have hn : n.index < a.entries.size := hn
  simp [entry, Array.getD_eq_getD_getElem?, Array.getElem_modify, hn]

theorem entry_modify_of_ne (hk : k ≠ n) (f : Annotation → Annotation) :
    (Annotations.mk (a.entries.modify n.index f)).entry k = a.entry k := by
  rcases a.entry_modify n k f with h | ⟨rfl, -⟩
  · exact h
  · exact absurd rfl hk

/-- All that is recorded in one table is recorded in another one of the same size. -/
structure Extends (a a' : Annotations) : Prop where
  size : a'.size = a.size
  chain : ∀ n c, a.chain n = some c → a'.chain n = some c
  strategy : ∀ n s, a.strategy n = some s → a'.strategy n = some s

namespace Extends

theorem refl (a : Annotations) : Extends a a := ⟨rfl, fun _ _ h => h, fun _ _ h => h⟩

theorem trans {b : Annotations} (h : Extends a a') (h' : Extends a' b) : Extends a b :=
  ⟨h'.size.trans h.size, fun n c hc => h'.chain n c (h.chain n c hc),
    fun n s hs => h'.strategy n s (h.strategy n s hs)⟩

theorem modify {f : Annotation → Annotation}
    (hchain : ∀ c, (a.entry n).chain = some c → (f (a.entry n)).chain = some c)
    (hstrategy : ∀ s, (a.entry n).strategy = some s → (f (a.entry n)).strategy = some s) :
    Extends a ⟨a.entries.modify n.index f⟩ := by
  refine ⟨Array.size_modify .., fun k c hk => ?_, fun k s hk => ?_⟩
  · rcases a.entry_modify n k f with he | ⟨rfl, he⟩
    · exact (congrArg Annotation.chain he).trans hk
    · exact (congrArg Annotation.chain he).trans (hchain c hk)
  · rcases a.entry_modify n k f with he | ⟨rfl, he⟩
    · exact (congrArg Annotation.strategy he).trans hk
    · exact (congrArg Annotation.strategy he).trans (hstrategy s hk)

theorem beginLinearizing (a : Annotations) (n : NodeId) : Extends a (a.beginLinearizing n).2 := by
  simp only [Annotations.beginLinearizing]
  split
  · exact .refl a
  · exact .modify (fun _ h => h) fun _ h => h

theorem finishLinearizing (a : Annotations) (n : NodeId) (c : List ChainStep) (extra : Flags) :
    Extends a (a.finishLinearizing n c extra).2 := by
  unfold Annotations.finishLinearizing
  split
  · exact .refl a
  · next hnone =>
    refine .modify (fun c hc => ?_) fun _ h => h
    cases hnone.symm.trans hc

theorem charted (p : Program) (a : Annotations) (n : NodeId) : Extends a (a.charted p n) := by
  unfold Annotations.charted
  split
  · exact (beginLinearizing a n).trans (finishLinearizing _ n _ _)
  · exact .refl a

theorem memoize (a : Annotations) (n : NodeId) (s : Strategy) : Extends a (a.memoize n s) := by
  refine .modify (fun _ h => h) fun s hs => ?_
  simp [hs]

theorem lesson (t : Task) (a : Annotations) : Extends a (t.lesson job a) := by
  rcases t.lesson_cases job a with ⟨n, rfl⟩ | ⟨n, hn⟩ | ha
  · exact .memoize a n _
  · rw [hn]
    exact .charted _ a n
  · rw [ha]
    exact .refl a

end Extends

theorem chain_charted (hn : n.index < a.size) (hc : (p.chainOf n).isSome) :
    ((a.charted p n).chain n).isSome := by
  cases hknown : a.chain n with
  | some c => rw [charted_of_known hknown, hknown]; rfl
  | none =>
    obtain ⟨c, hc⟩ := Option.isSome_iff_exists.mp hc
    have size : n.index < (a.beginLinearizing n).2.size := by
      rw [(Extends.beginLinearizing a n).size]
      exact hn
    rw [charted_of_new hknown hc, finishLinearizing]
    split
    · next h => rw [h]; rfl
    · rw [chain, entry_modify_self size]
      rfl

theorem strategy_memoize (hn : n.index < a.size) (s : Strategy) :
    ((a.memoize n s).strategy n).isSome := by
  rw [strategy, memoize, entry_modify_self hn]
  rfl

theorem strategy_memoize_cases {s s' : Strategy} (h : (a.memoize n s).strategy k = some s') :
    a.strategy k = some s' ∨ k = n ∧ s' = s := by
  simp only [strategy, memoize] at h
  rcases a.entry_modify n k (fun e => { e with strategy := some (e.strategy.getD s) })
    with he | ⟨rfl, he⟩
  · rw [he] at h
    exact .inl h
  · rw [he] at h
    cases hold : a.strategy k with
    | some old =>
      have hold' : (a.entry k).strategy = some old := hold
      rw [hold', Option.getD_some] at h
      exact .inl h
    | none =>
      have hold' : (a.entry k).strategy = none := hold
      rw [hold', Option.getD_none, Option.some.injEq] at h
      exact .inr ⟨rfl, h.symm⟩

theorem chainFlags_new (p : Program) (n : NodeId) (c : List ChainStep) :
    chainFlags { Flags.none with linearizing := true } c
      { Flags.none with labelFree := (p.tree.kind n).isSerial } = p.flagsOf n (some c) := by
  unfold Program.flagsOf
  cases (p.tree.kind n).isSerial <;> rfl

theorem entry_charted (hn : n.index < a.size) (hfresh : a.flags n = .none) (hnone : a.chain n = none)
    (hc : p.chainOf n = some c) (k : NodeId) : (a.charted p n).entry k =
      if k = n then ⟨p.flagsOf n (some c), some c, a.strategy n⟩ else a.entry k := by
  -- beginning the chain sets the flag that finishing it takes back
  have begun : (a.beginLinearizing n).2 = ⟨a.entries.modify n.index fun e =>
      { e with flags := { e.flags with linearizing := true } }⟩ := by
    simp [beginLinearizing, hfresh, Flags.none]
  have hfresh : (a.entry n).flags = .none := hfresh
  have hnone' : (a.entry n).chain = none := hnone
  have hself := entry_modify_self hn fun e => { e with flags := { e.flags with linearizing := true } }
  have size : n.index < (Annotations.mk (a.entries.modify n.index fun e =>
      { e with flags := { e.flags with linearizing := true } })).size := by
    simpa [Annotations.size] using hn
  rw [charted_of_new hnone hc, begun]
  simp only [finishLinearizing, chain, hself, hnone']
  split
  · next h =>
    subst h
    rw [entry_modify_self size, hself]
    simp only [hfresh, chainFlags_new, strategy]
  · next h => rw [entry_modify_of_ne h, entry_modify_of_ne h]

/-- The evaluation of a node shows all that its strategy depends on: for a closed clause, the chain of
its serial clause, if that has one. -/
structure Shown (p : Program) (a : Annotations) (n : NodeId) : Prop where
  node : n.index < p.tree.size
  chain : ∀ scope serial, p.tree.kind n = .closed scope serial →
    (p.tree.kind serial).isSerial → a.chain serial = p.chainOf serial

/-- The chains that are recorded are those there are to record, and the flags tell of them. -/
structure Charts (p : Program) (a : Annotations) : Prop where
  size : a.size = p.tree.size
  flags : ∀ n, a.flags n = p.flagsOf n (a.chain n)
  chain : ∀ n c, a.chain n = some c → p.chainOf n = some c

/-- What is recorded is what there is to record. -/
structure Faithful (job : Job) (a : Annotations) : Prop extends Charts job.program a where
  strategy : ∀ n s, a.strategy n = some s →
    a.Shown job.program n ∧ s = Exec.strategyOf job a n

theorem Faithful.new : (Annotations.new job.program.tree.size).Faithful job := by
  refine ⟨⟨by simp [Annotations.size, Annotations.new], fun n => ?_, fun n c h => ?_⟩,
    fun n s h => ?_⟩
  · simp [Annotations.flags, Annotations.chain, entry_new, Annotation.blank, Program.flagsOf]
  · simp [Annotations.chain, entry_new, Annotation.blank] at h
  · simp [Annotations.strategy, entry_new, Annotation.blank] at h

namespace Charts

theorem flags_of_chain (h : a.Charts p) (hc : a.chain n = some c) :
    a.flags n = p.flagsOf n (some c) := by rw [h.flags, hc]

theorem flags_of_chainless (h : a.Charts p) (hc : a.chain n = none) : a.flags n = .none := by
  rw [h.flags, hc]
  rfl

/-- What the strategy of a closed clause is, told from the chain of its serial clause. -/
theorem closedStrategy_eq (h : a.Charts job.program) (n : NodeId) (scope : ScopeId)
    (serial : NodeId) : Exec.closedStrategy job a n scope serial =
      match if (job.program.tree.kind serial).isSerial then a.chain serial else none with
      | some [.unit inner] =>
        if (job.program.scopes.get scope).locals.isEmpty &&
          job.program.tree.mode inner = job.program.tree.mode n then ⟨.unit, inner⟩
        else ⟨.closed, n⟩
      | _ => ⟨.closed, n⟩ := by
  simp only [Exec.closedStrategy]
  split
  · next inner hc =>
    rw [h.flags_of_chain hc, hc]
    cases hs : (job.program.tree.kind serial).isSerial <;> simp [Program.flagsOf, hs]
  · next hc =>
    split
    · split <;> simp_all
    · rfl

theorem strategyOf_eq (h : a.Charts job.program) (h' : a'.Charts job.program)
    (hs : a.Shown job.program n) (hs' : a'.Shown job.program n) :
    Exec.strategyOf job a' n = Exec.strategyOf job a n := by
  unfold Exec.strategyOf
  cases hk : job.program.tree.kind n with
  | closed scope serial =>
    have same : (if (job.program.tree.kind serial).isSerial then a'.chain serial else none) =
        if (job.program.tree.kind serial).isSerial then a.chain serial else none := by
      split
      · next hserial => rw [hs.chain scope serial hk hserial, hs'.chain scope serial hk hserial]
      · rfl
    simp only [h.closedStrategy_eq, h'.closedStrategy_eq, same]
  | _ => rfl

theorem shown_of_extends (h' : a'.Charts p) (he : Extends a a') (hs : a.Shown p n) :
    a'.Shown p n := by
  refine ⟨hs.node, fun scope serial hk hserial => ?_⟩
  have known := hs.chain scope serial hk hserial
  cases hc : p.chainOf serial with
  | some c => exact he.chain serial c (known.trans hc)
  | none =>
    cases hc' : a'.chain serial with
    | none => rfl
    | some c => cases hc.symm.trans (h'.chain serial c hc')

theorem node_of_chainOf (hc : p.chainOf n = some c) : n.index < p.tree.size := by
  apply Tree.index_lt_of_kind
  intro hk
  simp [Program.chainOf, hk] at hc

theorem entry_eq (h : a.Charts p) (hnone : a.chain n = none) (hc : p.chainOf n = some c)
    (k : NodeId) : (a.charted p n).entry k =
      if k = n then ⟨p.flagsOf n (some c), some c, a.strategy n⟩ else a.entry k := by
  refine entry_charted ?_ (h.flags_of_chainless hnone) hnone hc k
  rw [h.size]
  exact node_of_chainOf hc

theorem charted (h : a.Charts p) (n : NodeId) : (a.charted p n).Charts p := by
  cases hknown : a.chain n with
  | some c => rwa [charted_of_known hknown]
  | none =>
    cases hc : p.chainOf n with
    | none => rwa [charted_of_chainless hc]
    | some c =>
      refine ⟨(Extends.charted p a n).size.trans h.size, fun k => ?_, fun k d hd => ?_⟩
      · simp only [Annotations.flags, Annotations.chain, h.entry_eq hknown hc]
        split
        · next hk => rw [hk]
        · exact h.flags k
      · simp only [Annotations.chain, h.entry_eq hknown hc] at hd
        split at hd
        · next hk =>
          rw [hk, hc]
          exact hd
        · exact h.chain k d hd

theorem strategy_charted (h : a.Charts p) (n k : NodeId) :
    (a.charted p n).strategy k = a.strategy k := by
  cases hknown : a.chain n with
  | some c => rw [charted_of_known hknown]
  | none =>
    cases hc : p.chainOf n with
    | none => rw [charted_of_chainless hc]
    | some c =>
      simp only [strategy, h.entry_eq hknown hc]
      split
      · next hk => rw [hk]
      · rfl

theorem chain_memoize (a : Annotations) (n : NodeId) (s : Strategy) (k : NodeId) :
    (a.memoize n s).flags k = a.flags k ∧ (a.memoize n s).chain k = a.chain k := by
  simp only [Annotations.flags, Annotations.chain, Annotations.memoize]
  rcases a.entry_modify n k (fun e => { e with strategy := some (e.strategy.getD s) })
    with he | ⟨rfl, he⟩ <;> simp [he]

theorem memoize (h : a.Charts p) (n : NodeId) (s : Strategy) : (a.memoize n s).Charts p := by
  refine ⟨(Extends.memoize a n s).size.trans h.size, fun k => ?_, fun k c hc => ?_⟩
  · rw [(chain_memoize a n s k).1, (chain_memoize a n s k).2]
    exact h.flags k
  · rw [(chain_memoize a n s k).2] at hc
    exact h.chain k c hc

end Charts

namespace Faithful

/-- Strategies stay what there is to record while the table grows. -/
theorem of_extends (h : a.Faithful job) (he : Extends a a') (hc : a'.Charts job.program)
    (hs : ∀ n s, a'.strategy n = some s → a.strategy n = some s ∨
      a.Shown job.program n ∧ s = Exec.strategyOf job a n) : a'.Faithful job := by
  refine ⟨hc, fun n s hn => ?_⟩
  obtain ⟨shown, rfl⟩ : a.Shown job.program n ∧ s = Exec.strategyOf job a n := by
    rcases hs n s hn with hold | hnew
    · exact h.strategy n s hold
    · exact hnew
  have shown' := hc.shown_of_extends he shown
  exact ⟨shown', (h.strategyOf_eq hc shown shown').symm⟩

/-- What a task teaches is what there is to record, if an evaluation that ends has shown all its strategy
depends on. -/
theorem lesson (h : a.Faithful job) (t : Task)
    (hs : ∀ n, t = .settle n → a.Shown job.program n) : (t.lesson job a).Faithful job := by
  rcases t.lesson_cases job a with ⟨n, rfl⟩ | ⟨n, hn⟩ | ha
  · refine h.of_extends (.memoize a n _) (h.toCharts.memoize n _) fun k s hk => ?_
    rcases strategy_memoize_cases hk with hold | ⟨rfl, hnew⟩
    · exact .inl hold
    · exact .inr ⟨hs k rfl, hnew⟩
  · rw [hn]
    refine h.of_extends (.charted _ a n) (h.toCharts.charted n) fun k s hk => .inl ?_
    rwa [← h.strategy_charted n k]
  · rwa [ha]

/-- Only the end of an evaluation teaches a strategy, and only that of its unit. -/
theorem strategy_lesson (h : a.Faithful job) {t : Task} {s : Strategy}
    (hs : (t.lesson job a).strategy n = some s) : a.strategy n = some s ∨ t = .settle n := by
  rcases t.lesson_cases job a with ⟨k, rfl⟩ | ⟨k, hk⟩ | ha
  · rcases strategy_memoize_cases hs with hold | ⟨rfl, -⟩
    · exact .inl hold
    · exact .inr rfl
  · rw [hk, h.strategy_charted] at hs
    exact .inl hs
  · rw [ha] at hs
    exact .inl hs

/-- A node is evaluated by another one only if it is a closed clause that consists of that one. -/
theorem reduced (h : a.Faithful job) {s : Strategy} (hs : a.strategy n = some s)
    (hne : s.source ≠ n) : ∃ scope serial, job.program.tree.kind n = .closed scope serial ∧
      (job.program.scopes.get scope).locals = #[] ∧ (job.program.tree.kind serial).isSerial ∧
      a.chain serial = some [.unit s.source] ∧
      job.program.tree.mode s.source = job.program.tree.mode n := by
  obtain ⟨-, rfl⟩ := h.strategy n s hs
  unfold Exec.strategyOf at hne ⊢
  cases hk : job.program.tree.kind n with
  | closed scope serial =>
    simp only [hk, h.closedStrategy_eq] at hne ⊢
    split at hne
    · next inner hc =>
      split at hne
      · next hr =>
        simp only [Bool.and_eq_true, decide_eq_true_eq, Array.isEmpty_iff] at hr
        cases hserial : (job.program.tree.kind serial).isSerial with
        | false => simp [hserial] at hc
        | true =>
          simp only [hserial, if_true] at hc
          refine ⟨scope, serial, rfl, hr.1, hserial, ?_⟩
          simp [hc, hr]
      · exact absurd rfl hne
    · exact absurd rfl hne
  | _ =>
    rw [hk] at hne
    exact absurd rfl hne

end Faithful

/-! The serial clauses whose chain is recorded. -/

/-- The nodes that are marked as free of labels. -/
def labelFree (a : Annotations) : Finset Nat :=
  (Finset.range a.size).filter fun i => (a.flags ⟨i⟩).labelFree

theorem labelFree_new (nodes : Nat) : (Annotations.new nodes).labelFree = ∅ := by
  simp [labelFree, Annotations.flags, entry_new, Annotation.blank, Flags.none]

theorem labelFree_eq {b : Annotations} (hsize : b.size = a.size)
    (h : ∀ k, (b.flags k).labelFree = (a.flags k).labelFree) : b.labelFree = a.labelFree := by
  simp only [labelFree, hsize, h]

/-- Looking for a chain marks the clause when it is a serial clause whose chain was not known. -/
theorem Charts.card_labelFree_charted (h : a.Charts p) (n : NodeId) :
    (a.charted p n).labelFree.card = a.labelFree.card +
      ((p.tree.kind n).isSerial && (p.chainOf n).isSome && (a.chain n).isNone).toNat := by
  cases hknown : a.chain n with
  | some c => simp [charted_of_known hknown]
  | none =>
    cases hc : p.chainOf n with
    | none => simp [charted_of_chainless hc]
    | some c =>
      have size := (Extends.charted p a n).size
      -- a node without a chain has no flags, so the mark of a serial clause is a new one
      have unmarked : (a.flags n).labelFree = false := by
        rw [h.flags_of_chainless hknown]
        rfl
      have marked (k : NodeId) : ((a.charted p n).flags k).labelFree =
          if k = n then (p.tree.kind n).isSerial else (a.flags k).labelFree := by
        simp only [Annotations.flags, h.entry_eq hknown hc]
        split <;> rfl
      cases hs : (p.tree.kind n).isSerial with
      | false =>
        rw [labelFree_eq size fun k => ?_]
        · rfl
        · rw [marked]
          split
          · next hk => rw [hk, hs, unmarked]
          · rfl
      | true =>
        have here : n.index ∉ a.labelFree := by simp [labelFree, unmarked]
        have more : (a.charted p n).labelFree = insert n.index a.labelFree := by
          ext i
          have hn : n.index < a.size := by
            rw [h.size]
            exact node_of_chainOf hc
          simp only [labelFree, size, marked, hs, Finset.mem_filter, Finset.mem_range,
            Finset.mem_insert]
          by_cases hi : i = n.index
          · subst hi
            simp [hn]
          · have hne : (⟨i⟩ : NodeId) ≠ n := fun heq => hi (congrArg Index.index heq)
            simp [hi, hne]
        rw [more, Finset.card_insert_of_notMem here]
        rfl

theorem Charts.card_labelFree_lesson (h : a.Charts job.program) (t : Task) :
    (t.lesson job a).labelFree.card =
      a.labelFree.card + (t.finds job.program a).toNat := by
  cases t with
  | settle n =>
    exact congrArg Finset.card <| labelFree_eq (Extends.memoize a n _).size fun k =>
      congrArg Flags.labelFree (Charts.chain_memoize a n _ k).1
  | clause n enquiry =>
    simp only [Task.lesson, Task.finds]
    split
    · exact h.card_labelFree_charted n
    · next hs => simp [hs]
  | elaborate n =>
    simp only [Task.lesson, Task.finds]
    split
    · next hk =>
      have serial := NodeKind.isSerial_of_isCase hk
      simpa [serial] using h.card_labelFree_charted n
    · rfl
  | _ => rfl

end Annotations

end Algol68
