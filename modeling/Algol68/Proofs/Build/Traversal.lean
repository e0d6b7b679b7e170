import Algol68.Proofs.Build.Calls
import Algol68.Proofs.Scope.Environ

/-! Traversals of the trees that calls make. Parts are earlier than what is made of them, so going from a
node to its parts comes to an end, inside the tree, whatever depth is allowed for; and a list is read as it
was made however much is made after it. -/

namespace Algol68

namespace Tree

variable {t : Tree} {n x : NodeId} {d e k : Nat}

section

variable (ho : ∀ n, ∀ c ∈ t.children (t.kind n), c.index < n.index)

include ho

theorem acc_children (n : NodeId) : Acc (fun c n => c ∈ t.children (t.kind n)) n :=
  Subrelation.accessible (fun h => ho _ _ h)
    (InvImage.accessible Index.index (Nat.lt_wfRel.wf.apply _))

/-- What a function of nodes gives for the parts of a node to a bounded depth is what it gives for them at
all, where the bound is beyond the number of the node. -/
theorem deep_enough {α : Type} {f : Nat → NodeId → α}
    (hf : ∀ n d e, (∀ c ∈ t.children (t.kind n), f d c = f e c) → f (d + 1) n = f (e + 1) n)
    (hd : n.index < d) (he : n.index < e) : f d n = f e n := by
  induction d generalizing n e with
  | zero => omega
  | succ d ih =>
    cases e with
    | zero => omega
    | succ e =>
      refine hf n d e fun c hc => ih ?_ ?_ <;>
      · have := ho n c hc
        omega

theorem itemsOf_deep (hd : n.index < d) (he : n.index < e) : t.itemsOf d n = t.itemsOf e n := by
  refine deep_enough ho (fun n d e h => ?_) hd he
  rw [itemsOf, itemsOf]
  cases hk : t.kind n with
  | group items | declarationList items | serialClause scope items =>
    rw [hk] at h
    exact List.flatMap_congr h
  | _ => rfl

theorem labelsOfItem_deep (hd : n.index < d) (he : n.index < e) :
    t.labelsOfItem d n = t.labelsOfItem e n := by
  refine deep_enough ho (fun n d e h => ?_) hd he
  rw [labelsOfItem, labelsOfItem]
  cases hk : t.kind n with
  | group items | serialClause scope items =>
    rw [hk] at h
    exact List.flatMap_congr h
  | _ => rfl

theorem youngestAt_deep (scopes : ScopeTable) (labels : LabelTable) (own : Nat)
    (hd : n.index < d) (he : n.index < e) :
    t.youngestAt scopes labels own d n = t.youngestAt scopes labels own e n := by
  refine deep_enough ho (fun n d e h => ?_) hd he
  rw [youngestAt, youngestAt, List.map_congr_left h]

theorem Path.length_le (h : t.Path k n x) : k + x.index ≤ n.index := by
  induction h with
  | here n => omega
  | down hc _ ih =>
    have := ho _ _ hc
    omega

end

end Tree

namespace Builder

/-- A builder that calls have made, each of which names what is there. -/
def Made (b : Builder) : Prop := ∃ cs, new.Admits cs ∧ b = new.calls cs

/-- What a traversal reads of a node is there. -/
structure Readable (b : Builder) (n : NodeId) : Prop where
  node : n.index < b.tree.size
  knows : b.Knows (b.tree.kind n)
  scope : ∀ l ∈ (b.tree.kind n).label?, (b.labels.get l).scope.index < b.scopes.size

variable {b : Builder} {n x : NodeId} {k : Nat}

theorem Made.grounded (h : b.Made) : b.Grounded := by
  obtain ⟨cs, hc, rfl⟩ := h
  exact grounded_calls .new hc

theorem Grounded.readable (h : b.Grounded) (hn : n.index < b.tree.size) : b.Readable n :=
  ⟨hn, h.knows n hn, fun l hl => h.labels l ((h.knows n hn).label l hl)⟩

/-- Below a node of the tree a traversal meets nodes of the tree only. -/
theorem Grounded.readable_below (h : b.Grounded) (hn : n.index < b.tree.size)
    (hp : b.tree.Path k n x) : b.Readable x :=
  h.readable (Nat.lt_of_le_of_lt (Nat.le_of_add_left_le (hp.length_le h.earlier)) hn)

/-! Lists are read as they were made. -/

theorem list_after (b : Builder) (ns : List NodeId) (ds : List Call) :
    ((b.after (list ns)).calls ds).tree.list ((list ns).run b).1 = ns := by
  rw [(calls_grows _ ds).tree.list_eq (Nat.le_of_eq (Tree.size_append _ _).symm)]
  exact b.tree.list_pushList ns

theorem modeList_after (b : Builder) (ms : List ModeId) (ds : List Call) :
    ((b.after (modeList ms)).calls ds).tree.modeList ((modeList ms).run b).1 = ms := by
  rw [(calls_grows _ ds).modeList_eq (Nat.le_of_eq (Tree.size_append _ _).symm)]
  exact Tree.read_append b.tree.modeLists ms

theorem serial_after (b : Builder) (scope : ScopeId) (ns : List NodeId) (mode : ModeId)
    (ds : List Call) :
    ∃ r, ((b.after (serial scope ns mode)).calls ds).tree.kind
        ((serial scope ns mode).run b).1 = .serialClause scope r ∧
      ((b.after (serial scope ns mode)).calls ds).tree.list r = ns := by
  have later := calls_grows (b.after (serial scope ns mode)) ds
  refine ⟨(b.tree.pushList ns).1, ?_, ?_⟩
  · rw [later.tree.kind_eq]
    · exact (b.tree.pushList ns).2.kind_push _
    · exact Nat.lt_of_lt_of_eq (Nat.lt_succ_self _) (Array.size_push _).symm
  · rw [later.tree.list_eq]
    · exact b.tree.list_pushList ns
    · exact Nat.le_of_eq (Tree.size_append _ _).symm

end Builder

/-- Calls that name what is there make a tree without cycles, and what they put into it stays. Every part of
a node has a smaller number than the node. A list, one of nodes, of modes or of the items of a serial clause,
is read as it was made after any further calls and in the program. So a traversal comes to an end, at a depth
that the number of the node bounds, wherever it goes from a node to its parts; all that it reads is there; and
the chain and the walk of an item, its labels and the level of its environ do not depend on the depth that is
allowed for. -/
theorem trees_acyclic {b : Builder} (h : b.Made) :
    (∀ n, ∀ c ∈ b.tree.children (b.tree.kind n), c.index < n.index) ∧
    (∀ ds, ∀ n : NodeId, n.index < b.tree.size →
      (b.calls ds).tree.node n = b.tree.node n ∧
      (b.calls ds).tree.children (b.tree.kind n) = b.tree.children (b.tree.kind n)) ∧
    (∀ ns ds, ((b.after (Builder.list ns)).calls ds).tree.list ((Builder.list ns).run b).1 = ns) ∧
    (∀ ms ds,
      ((b.after (Builder.modeList ms)).calls ds).tree.modeList ((Builder.modeList ms).run b).1 = ms) ∧
    (∀ scope ns mode ds, ∃ r,
      ((b.after (Builder.serial scope ns mode)).calls ds).tree.kind
        ((Builder.serial scope ns mode).run b).1 = .serialClause scope r ∧
      ((b.after (Builder.serial scope ns mode)).calls ds).tree.list r = ns) ∧
    (∀ ds root, ((b.calls ds).finish root).tree = (b.calls ds).tree) ∧
    (∀ n, Acc (fun c n => c ∈ b.tree.children (b.tree.kind n)) n) ∧
    (∀ n : NodeId, n.index < b.tree.size → ∀ k x, b.tree.Path k n x →
      k ≤ n.index ∧ b.Readable x) ∧
    ∀ (n : NodeId) d e, n.index < d → n.index < e →
      b.tree.flattenItem d n = b.tree.flattenItem e n ∧
      (∀ pending, b.tree.walkItem d pending n = b.tree.walkItem e pending n) ∧
      b.tree.labelsOfItem d n = b.tree.labelsOfItem e n ∧
      ∀ own, b.tree.youngestAt b.scopes b.labels own d n =
        b.tree.youngestAt b.scopes b.labels own e n := by
  have hg := h.grounded
  refine ⟨hg.earlier, fun ds n hn => ?_, b.list_after, b.modeList_after, b.serial_after,
    fun ds root => rfl, Tree.acc_children hg.earlier, fun n hn k x hp => ?_, fun n d e hd he => ?_⟩
  · have later := b.calls_grows ds
    refine ⟨?_, later.tree.children_eq (hg.refers (hg.knows n hn))⟩
    simp only [Tree.node, Array.getD_eq_getD_getElem?]
    rw [later.tree.nodes n.index hn]
  · exact ⟨Nat.le_of_add_right_le (hp.length_le hg.earlier), hg.readable_below hn hp⟩
  · have items := Tree.itemsOf_deep hg.earlier hd he
    refine ⟨?_, fun pending => ?_, Tree.labelsOfItem_deep hg.earlier hd he,
      fun own => Tree.youngestAt_deep hg.earlier b.scopes b.labels own hd he⟩
    · rw [Tree.flattenItem_eq, Tree.flattenItem_eq, items]
    · rw [Tree.walkItem_eq, Tree.walkItem_eq, items]

/-- A loop over a `SKIP`, and a group of the two. -/
def Builder.roundabout : List Builder.Call :=
  [.node .skip .void .dummy,
    .loop ⟨.standard, .standard, none, none, none, none, none, ⟨0⟩, none⟩,
    .list [⟨1⟩, ⟨0⟩], .node (.group ⟨0, 2⟩) .void .dummy]

/-- The parts of the group come before it, are as they were after further calls, and are met at any depth. -/
theorem roundabout_acyclic :
    (Builder.new.calls Builder.roundabout).Made ∧
    (Builder.new.calls Builder.roundabout).tree.children (.group ⟨0, 2⟩) = [⟨1⟩, ⟨0⟩] ∧
    Builder.Readable (Builder.new.calls Builder.roundabout) ⟨0⟩ ∧
    (∀ ds, ((Builder.new.calls Builder.roundabout).calls ds).tree.children (.group ⟨0, 2⟩) =
      [⟨1⟩, ⟨0⟩]) ∧
    (Builder.new.calls Builder.roundabout).tree.flattenItem 100 ⟨2⟩ =
      (Builder.new.calls Builder.roundabout).tree.flattenItem 3 ⟨2⟩ := by
  have made : (Builder.new.calls Builder.roundabout).Made := ⟨_, by decide, rfl⟩
  obtain ⟨-, stays, -, -, -, -, -, below, deep⟩ := trees_acyclic made
  have parts : (Builder.new.calls Builder.roundabout).tree.children (.group ⟨0, 2⟩) =
      [⟨1⟩, ⟨0⟩] := rfl
  refine ⟨made, parts, (below ⟨2⟩ (by decide) 1 ⟨0⟩ (.down ?_ (.here _))).2, fun ds => ?_,
    (deep ⟨2⟩ 100 3 (by decide) (by decide)).1⟩
  · exact List.mem_of_mem_getLast? rfl
  · exact (stays ds ⟨2⟩ (by decide)).2.trans parts

end Algol68
