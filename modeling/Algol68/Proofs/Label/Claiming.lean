import Algol68.Proofs.Label.Resumption

/-! The labels that a serial clause takes when it is made. They are those of the labelled units at which a
walk over its items can be taken up, except that declaration lists, which a walk looks into, are passed over. -/

namespace Algol68

/-- No labelled unit among the items is met through a declaration list only. -/
def Tree.Undeclared (t : Tree) (items : List NodeId) : Prop :=
  ∀ l x, t.IsLabelled l x → t.Among NodeKind.transparent items x →
    t.Among NodeKind.gathers items x

namespace Builder

variable {b b' : Builder} {scope : ScopeId} {items : List NodeId} {mode : ModeId} {l : LabelId}
  {s x : NodeId}

theorem claims_of_owner {cs ds : List Call} (hb : b = new.calls cs)
    (h : ((b.calls ds).labels.get l).owner = some s) : (b.calls ds).tree.Claims s l := by
  have all : b.calls ds = new.calls (cs ++ ds) := hb ▸ List.foldl_append.symm
  rw [all] at h ⊢
  rcases owner_calls new (cs ++ ds) l with same | ⟨s', -, hs, hc⟩
  · cases h.symm.trans same
  · cases h.symm.trans hs
    exact hc

/-- Labelled units that are met in a clause keep an owner. -/
theorem owner_ne_none (h : (serial scope items mode).run b = (s, b')) (hg : b'.Grounded)
    (ds : List Call) (hl : (b'.calls ds).tree.IsLabelled l x)
    (hx : (b'.calls ds).tree.Among NodeKind.gathers items x) :
    ((b'.calls ds).labels.get l).owner ≠ none := by
  rcases owner_calls b' ds l with same | ⟨s', -, hs, -⟩
  · rw [same, owner_serial h hg ds hl hx]
    exact nofun
  · rw [hs]
    exact nofun

end Builder

/-- A label stands before one unit only, which is its target. -/
structure Builder.AttachedOnce (b : Builder) (l : LabelId) (n : NodeId) : Prop where
  target : (b.labels.get l).target = some n
  only : ∀ x, b.tree.IsLabelled l x → x = n

/-- A serial clause that takes a label attached once is resumed at its target. -/
theorem Builder.AttachedOnce.resume {b : Builder} {l : LabelId} {n s : NodeId}
    (h : b.AttachedOnce l n) (hc : b.tree.Claims s l) :
    ∃ scope r u, b.tree.kind s = .serialClause scope r ∧ b.tree.kind n = .labeled l u ∧
      ∀ (job : Job) root (c : LabelledClause), job.program = b.finish root →
        c.items = b.tree.list r →
        ∃ steps, c.resume job (job.program.labels.get l).target =
          .ok (.unit u :: steps ++ [.labelled c]) := by
  obtain ⟨⟨scope, r, hk⟩, x, hx, hl⟩ := hc
  obtain rfl := h.only x hl
  obtain ⟨u, hu⟩ := hl
  refine ⟨scope, r, u, hk, hu, fun job root c hj hc => ?_⟩
  have mem := Tree.mem_clauseItems_iff.mpr
    ⟨⟨l, hu⟩, ((Tree.carries_iff_among hk).mp hx).transparent⟩
  have tree : job.program.tree = b.tree := congrArg Program.tree hj
  have target : (job.program.labels.get l).target = some x := by
    rw [congrArg Program.labels hj]
    exact h.target
  rw [target]
  exact LabelledClause.resume_of_mem (by rwa [tree]) (by rwa [tree, hc])

/-- A serial clause takes the labels at which the walk over its items can be taken up, but for those in
declaration lists. A walk can be taken up at the labelled units that it meets in groups, declaration lists and
inlined serial clauses. When the clause is made it becomes the owner of the labels of those of them that are
met in groups and inlined serial clauses, and no other label changes; so where no labelled unit stands in a
declaration list these are the labels of all units at which the walk can be taken up. Where calls name what is
there, they have an owner from then on. Whatever is called, the owner of a label attached once is resumed at
its target. -/
theorem labels_claimed {b b' : Builder} {scope : ScopeId} {items : List NodeId} {mode : ModeId}
    {s : NodeId} (h : (Builder.serial scope items mode).run b = (s, b')) :
    (∀ x, b'.tree.ResumesAt items x ↔
      (∃ l, b'.tree.IsLabelled l x) ∧ b'.tree.Among NodeKind.transparent items x) ∧
    (∀ l : LabelId, l.index < b.labels.size →
      ((∃ x, b'.tree.IsLabelled l x ∧ b'.tree.Among NodeKind.gathers items x) →
        b'.labels.get l = { b.labels.get l with owner := some s }) ∧
      ((¬ ∃ x, b'.tree.IsLabelled l x ∧ b'.tree.Among NodeKind.gathers items x) →
        b'.labels.get l = b.labels.get l) ∧
      (b'.tree.Undeclared items →
        ((∃ x, b'.tree.IsLabelled l x ∧ b'.tree.Among NodeKind.gathers items x) ↔
          ∃ x, b'.tree.IsLabelled l x ∧ b'.tree.ResumesAt items x))) ∧
    (b'.Made → ∀ ds l x, (b'.calls ds).tree.IsLabelled l x →
      (b'.calls ds).tree.Among NodeKind.gathers items x →
      ((b'.calls ds).labels.get l).owner ≠ none) ∧
    ∀ cs, b' = Builder.new.calls cs → ∀ ds l n owner, (b'.calls ds).AttachedOnce l n →
      ((b'.calls ds).labels.get l).owner = some owner →
      ∃ scope r u, (b'.calls ds).tree.kind owner = .serialClause scope r ∧
        (b'.calls ds).tree.kind n = .labeled l u ∧
        ∀ (job : Job) root (c : LabelledClause), job.program = (b'.calls ds).finish root →
          c.items = (b'.calls ds).tree.list r →
          ∃ steps, c.resume job (job.program.labels.get l).target =
            .ok (.unit u :: steps ++ [.labelled c]) := by
  refine ⟨fun x => Tree.resumesAt_iff, fun l hl => ?_,
    fun made ds l x hl hx => Builder.owner_ne_none h made.grounded ds hl hx,
    fun cs hb ds l n owner once ho => once.resume (Builder.claims_of_owner hb ho)⟩
  obtain ⟨taken, left⟩ := Builder.get_serial h hl
  rw [Tree.mem_labelsOf_iff] at taken left
  refine ⟨taken, left, fun hu => exists_congr fun x => and_congr_right fun hx => ?_⟩
  rw [Tree.resumesAt_iff, and_iff_right ⟨l, hx⟩]
  exact ⟨Tree.Among.transparent, hu l x hx⟩

/-- A jump, and the labelled unit that it leads to in a list of items of the given kind. -/
def cove (holds : NodeRange → NodeKind) : List Builder.Call :=
  [.scope .standard, .label ⟨1⟩ "l", .node (.jump ⟨0⟩) .void .dummy,
    .node .separator .void .dummy, .node .skip .void .dummy, .labeled ⟨0⟩ ⟨2⟩, .list [⟨3⟩],
    .node (holds ⟨0, 1⟩) .void .dummy]

/-- The clause of the jump and the labelled unit, in a closed clause of its own. -/
def shore (holds : NodeRange → NodeKind) : List Builder.Call :=
  cove holds ++ [.serial ⟨1⟩ [⟨0⟩, ⟨1⟩, ⟨4⟩] .void, .closed ⟨1⟩ ⟨5⟩]

def ashore (holds : NodeRange → NodeKind) : Job where
  program := (Builder.new.calls (shore holds)).finish ⟨6⟩
  oracle := ModeTable.oracle .new
  config := .default

/-- The clause takes the label from a group, and a jump to the label resumes it there. -/
theorem cove_claimed :
    ∃ s b', (Builder.serial ⟨1⟩ [⟨0⟩, ⟨1⟩, ⟨4⟩] .void).run (Builder.new.calls (cove .group)) = (s, b') ∧
      (b'.labels.get ⟨0⟩).owner = some s ∧
      (b'.calls [.closed ⟨1⟩ ⟨5⟩]).AttachedOnce ⟨0⟩ ⟨3⟩ ∧
      (∀ c : LabelledClause, c.items = [⟨0⟩, ⟨1⟩, ⟨4⟩] → ∃ steps,
        c.resume (ashore .group) (some ⟨3⟩) = .ok (.unit ⟨2⟩ :: steps ++ [.labelled c])) ∧
      ((b'.calls [.closed ⟨1⟩ ⟨5⟩]).labels.get ⟨0⟩).owner ≠ none := by
  refine ⟨_, _, rfl, ?_⟩
  obtain ⟨-, taken, keeps, resumed⟩ := @labels_claimed (Builder.new.calls (cove .group)) _ ⟨1⟩
    [⟨0⟩, ⟨1⟩, ⟨4⟩] .void _ rfl
  have once : (Builder.new.calls (shore .group)).AttachedOnce ⟨0⟩ ⟨3⟩ := by
    refine ⟨rfl, fun ⟨k⟩ ⟨u, hk⟩ => ?_⟩
    have hn : k < 7 := Tree.index_lt_of_kind (by rw [hk]; simp)
    interval_cases k <;> cases hk
    rfl
  have made : (Builder.new.calls
      (cove .group ++ [.serial ⟨1⟩ [⟨0⟩, ⟨1⟩, ⟨4⟩] .void])).Made := ⟨_, by decide, rfl⟩
  obtain ⟨scope, r, u, hs, hn, resumes⟩ := resumed (cove .group ++
    [.serial ⟨1⟩ [⟨0⟩, ⟨1⟩, ⟨4⟩] .void]) rfl [.closed ⟨1⟩ ⟨5⟩] ⟨0⟩ ⟨3⟩ ⟨5⟩ once rfl
  cases hs
  cases hn
  refine ⟨congrArg Label.owner ((taken ⟨0⟩ (by decide)).1 ?_), once,
    fun c hc => resumes (ashore .group) ⟨6⟩ c rfl hc, ?_⟩
  · exact ⟨⟨3⟩, ⟨⟨2⟩, rfl⟩, ⟨4⟩, by decide, .single ⟨rfl, by decide⟩⟩
  · exact keeps made [.closed ⟨1⟩ ⟨5⟩] ⟨0⟩ ⟨3⟩ ⟨⟨2⟩, rfl⟩
      ⟨⟨4⟩, by decide, .single ⟨rfl, by decide⟩⟩

/-- The label of a unit in a declaration list has no owner though the walk of the clause can be taken up
there, and the jump to it ends in an internal fault. -/
theorem declared_label_dangles :
    ∃ s b', (Builder.serial ⟨1⟩ [⟨0⟩, ⟨1⟩, ⟨4⟩] .void).run
        (Builder.new.calls (cove .declarationList)) = (s, b') ∧
      b'.AttachedOnce ⟨0⟩ ⟨3⟩ ∧ b'.tree.ResumesAt [⟨0⟩, ⟨1⟩, ⟨4⟩] ⟨3⟩ ∧
      (b'.labels.get ⟨0⟩).owner = none ∧
      ((Session.new (ashore .declarationList) none false).run 100).1.fault?.map Fault.cause =
        some (.danglingJump "l") := by
  refine ⟨_, _, rfl, ⟨rfl, fun ⟨k⟩ ⟨u, hk⟩ => ?_⟩, rfl, rfl, by decide +kernel⟩
  have hn : k < 6 := Tree.index_lt_of_kind (by rw [hk]; simp)
  interval_cases k <;> cases hk
  rfl

end Algol68
