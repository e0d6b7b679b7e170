import Algol68.Proofs.Build.Tables

/-! The calls that assemble a program, one after the other. Whatever is called, what is in the pools stays
there. Where calls name only what is there already, every node is made of earlier ones and all that it
refers to can be found. -/

namespace Algol68

/-- The parts of a loop clause from left to right. -/
def LoopParts.nodes (p : LoopParts) : List NodeId :=
  p.fromPart.toList ++ p.byPart.toList ++ p.toPart.toList ++ p.whilePart.toList ++ [p.doPart] ++
    p.untilPart.toList

namespace NodeKind

/-- The nodes that a kind names itself. -/
def nodes : NodeKind → List NodeId
  | .labeled _ n | .cast n | .identityDeclaration _ n | .call n _ | .slice n _ | .selection _ n
  | .monadic _ n | .transpose n | .coercion _ n | .routineText _ _ n | .assertion n | .closed _ n => [n]
  | .variableDeclaration _ n init => n :: init.toList
  | .trimmer lower upper | .bound lower upper => lower.toList ++ upper.toList
  | .formula _ m n | .identityRelation _ m n | .andFunction m n | .orFunction m n
  | .assignation m n => [m, n]
  | .diagonal offset n | .rowFunction offset n | .columnFunction offset n => offset.toList ++ [n]
  | .conditional _ enquiry thenPart elsePart => enquiry :: thenPart :: elsePart.toList
  | .integerCase _ enquiry _ outPart | .conformityCase _ enquiry _ outPart =>
    enquiry :: outPart.toList
  | _ => []

/-- The range that a node of this kind runs in. -/
def scope? : NodeKind → Option ScopeId
  | .serialClause s _ | .routineText s _ _ | .closed s _ | .conditional s _ _ _
  | .integerCase s _ _ _ | .conformityCase s _ _ _ => some s
  | _ => none

def label? : NodeKind → Option LabelId
  | .labeled l _ | .jump l => some l
  | _ => none

def loop? : NodeKind → Option LoopId
  | .loop l => some l
  | _ => none

def alternative? : NodeKind → Option AlternativeId
  | .conformityAlternative a => some a
  | _ => none

end NodeKind

namespace Tree

variable {t : Tree} {kind : NodeKind} {c : NodeId}

/-- The parts of a node are named in its kind, in its list, in its loop or in its alternative. -/
theorem mem_children_iff : c ∈ t.children kind ↔
    c ∈ kind.nodes ∨ (∃ r ∈ kind.range?, c ∈ t.list r) ∨
    (∃ l ∈ kind.loop?, c ∈ (t.loopParts l).nodes) ∨
    ∃ a ∈ kind.alternative?, c = (t.alternative a).unit := by
  cases kind with
  | integerCase | conformityCase =>
    simp only [children, NodeKind.nodes, NodeKind.range?, NodeKind.loop?, NodeKind.alternative?,
      List.mem_cons, List.mem_append, Option.mem_def, Option.some.injEq, exists_eq_left',
      reduceCtorEq, false_and, exists_false, or_false]
    grind
  | _ =>
    simp [children, NodeKind.nodes, NodeKind.range?, NodeKind.loop?, NodeKind.alternative?,
      LoopParts.nodes]

theorem mem_of_mem_list {r : NodeRange} (h : c ∈ t.list r) : c ∈ t.lists := by
  obtain ⟨i, hi, rfl⟩ := Array.mem_extract_iff_getElem.mp (Array.mem_def.mpr h)
  exact Array.getElem_mem _

theorem loopParts_mem {l : LoopId} (h : l.index < t.loops.size) : t.loopParts l ∈ t.loops := by
  rw [loopParts, Array.getD_eq_getD_getElem?, Array.getElem?_eq_getElem h]
  exact Array.getElem_mem h

theorem alternative_mem {a : AlternativeId} (h : a.index < t.alternatives.size) :
    t.alternative a ∈ t.alternatives := by
  rw [alternative, Array.getD_eq_getD_getElem?, Array.getElem?_eq_getElem h]
  exact Array.getElem_mem h

end Tree

namespace Builder

/-- What there is in one builder is there in another one, at the same place. -/
structure Grows (b b' : Builder) : Prop where
  tree : b.tree.Extends b'.tree
  modeLists : ∀ i < b.tree.modeLists.size, b'.tree.modeLists[i]? = b.tree.modeLists[i]?
  scopes : b.scopes.size ≤ b'.scopes.size
  labels : b.labels.size ≤ b'.labels.size
  declared : ∀ l : LabelId, l.index < b.labels.size →
    (b'.labels.get l).scope = (b.labels.get l).scope

/-- What a kind names is there. -/
structure Knows (b : Builder) (kind : NodeKind) : Prop where
  nodes : ∀ n ∈ kind.nodes, n.index < b.tree.size
  range : ∀ r ∈ kind.range?, r.start + r.length ≤ b.tree.lists.size
  loop : ∀ l ∈ kind.loop?, l.index < b.tree.loops.size
  alternative : ∀ a ∈ kind.alternative?, a.index < b.tree.alternatives.size
  scope : ∀ s ∈ kind.scope?, s.index < b.scopes.size
  label : ∀ l ∈ kind.label?, l.index < b.labels.size

/-- Nodes are made of earlier ones, and what the tables name is there. -/
structure Grounded (b : Builder) : Prop where
  earlier : ∀ n, ∀ c ∈ b.tree.children (b.tree.kind n), c.index < n.index
  knows : ∀ n, n.index < b.tree.size → b.Knows (b.tree.kind n)
  lists : ∀ n ∈ b.tree.lists, n.index < b.tree.size
  loops : ∀ p ∈ b.tree.loops, ∀ n ∈ p.nodes, n.index < b.tree.size
  alternatives : ∀ a ∈ b.tree.alternatives, a.unit.index < b.tree.size
  labels : ∀ l : LabelId, l.index < b.labels.size →
    (b.labels.get l).scope.index < b.scopes.size

/-- A call that assembles a program. -/
inductive Call where
  | intern (text : String)
  | mode (m : Mode)
  | scope (parent : ScopeId)
  | declare (scope : ScopeId) (mode : ModeId)
  | label (scope : ScopeId) (name : String)
  | node (kind : NodeKind) (mode : ModeId) (span : Span)
  | list (ns : List NodeId)
  | modeList (ms : List ModeId)
  | labeled (label : LabelId) (unit : NodeId)
  | serial (scope : ScopeId) (items : List NodeId) (mode : ModeId)
  | statements (scope : ScopeId) (units : List NodeId) (mode : ModeId)
  | closed (scope : ScopeId) (serial : NodeId)
  | loop (parts : LoopParts)
  | alternative (a : Alternative)

/-- The builder after a call. -/
def Call.run (b : Builder) : Call → Builder
  | .intern text => b.after (Builder.intern text)
  | .mode m => b.after (Builder.mode m)
  | .scope s => b.after (Builder.scope s)
  | .declare s m => b.after (Builder.declare s m)
  | .label s name => b.after (Builder.label s name)
  | .node kind m span => b.after (Builder.node kind m span)
  | .list ns => b.after (Builder.list ns)
  | .modeList ms => b.after (Builder.modeList ms)
  | .labeled l n => b.after (Builder.labeled l n)
  | .serial s ns m => b.after (Builder.serial s ns m)
  | .statements s ns m => b.after (Builder.statements s ns m)
  | .closed s n => b.after (Builder.closed s n)
  | .loop parts => b.after (Builder.loop parts)
  | .alternative a => b.after (Builder.alternative a)

/-- What a call names of the program is there. -/
def Call.Known (b : Builder) : Call → Prop
  | .label s _ => s.index < b.scopes.size
  | .node kind _ _ => b.Knows kind
  | .list ns => ∀ n ∈ ns, n.index < b.tree.size
  | .labeled l n => b.Knows (.labeled l n)
  | .serial s ns _ | .statements s ns _ =>
    s.index < b.scopes.size ∧ ∀ n ∈ ns, n.index < b.tree.size
  | .closed s n => b.Knows (.closed s n)
  | .loop parts => ∀ n ∈ parts.nodes, n.index < b.tree.size
  | .alternative a => a.unit.index < b.tree.size
  | .intern _ | .mode _ | .scope _ | .declare _ _ | .modeList _ => True

/-- The builder after some calls. -/
def calls (b : Builder) (cs : List Call) : Builder := cs.foldl Call.run b

/-- Each call names what is there when it is made. -/
def Admits (b : Builder) : List Call → Prop
  | [] => True
  | c :: cs => c.Known b ∧ (c.run b).Admits cs

instance (b : Builder) (kind : NodeKind) : Decidable (b.Knows kind) :=
  decidable_of_iff ((∀ n ∈ kind.nodes, n.index < b.tree.size) ∧
    (∀ r ∈ kind.range?, r.start + r.length ≤ b.tree.lists.size) ∧
    (∀ l ∈ kind.loop?, l.index < b.tree.loops.size) ∧
    (∀ a ∈ kind.alternative?, a.index < b.tree.alternatives.size) ∧
    (∀ s ∈ kind.scope?, s.index < b.scopes.size) ∧ ∀ l ∈ kind.label?, l.index < b.labels.size)
    ⟨fun ⟨n, r, l, a, s, h⟩ => ⟨n, r, l, a, s, h⟩,
      fun h => ⟨h.nodes, h.range, h.loop, h.alternative, h.scope, h.label⟩⟩

instance (b : Builder) : (c : Call) → Decidable (c.Known b)
  | .label .. => inferInstanceAs (Decidable (_ < _))
  | .node .. | .labeled .. | .closed .. => inferInstanceAs (Decidable (b.Knows _))
  | .list _ => inferInstanceAs (Decidable (∀ n ∈ _, _))
  | .serial .. | .statements .. => inferInstanceAs (Decidable (_ ∧ ∀ n ∈ _, _))
  | .loop _ => inferInstanceAs (Decidable (∀ n ∈ _, _))
  | .alternative _ => inferInstanceAs (Decidable (_ < _))
  | .intern _ | .mode _ | .scope _ | .declare .. | .modeList _ => inferInstanceAs (Decidable True)

instance decidableAdmits : (b : Builder) → (cs : List Call) → Decidable (b.Admits cs)
  | _, [] => inferInstanceAs (Decidable True)
  | b, c :: cs =>
    have := decidableAdmits (c.run b) cs
    inferInstanceAs (Decidable (_ ∧ _))

variable {b b' b'' : Builder} {kind : NodeKind}

/-! Growth, whatever is called. -/

namespace Grows

theorem refl (b : Builder) : b.Grows b :=
  ⟨.refl _, fun _ _ => rfl, Nat.le_refl _, Nat.le_refl _, fun _ _ => rfl⟩

theorem trans (h : b.Grows b') (h' : b'.Grows b'') : b.Grows b'' := by
  refine ⟨h.tree.trans h'.tree, fun i hi => ?_, Nat.le_trans h.scopes h'.scopes,
    Nat.le_trans h.labels h'.labels, fun l hl => ?_⟩
  · have hle := Tree.size_le_of_same h.modeLists
    exact (h'.modeLists i (Nat.lt_of_lt_of_le hi hle)).trans (h.modeLists i hi)
  · exact (h'.declared l (Nat.lt_of_lt_of_le hl h.labels)).trans (h.declared l hl)

theorem of_tree {t : Tree} (h : b.tree.Extends t)
    (hm : ∀ i < b.tree.modeLists.size, t.modeLists[i]? = b.tree.modeLists[i]?) :
    b.Grows { b with tree := t } :=
  ⟨h, hm, Nat.le_refl _, Nat.le_refl _, fun _ _ => rfl⟩

theorem modeList_eq (h : b.Grows b') {r : ModeRange}
    (hr : r.start + r.length ≤ b.tree.modeLists.size) : b'.tree.modeList r = b.tree.modeList r :=
  Tree.read_eq_of_same h.modeLists hr

theorem node_lt (h : b.Grows b') {n : NodeId} (hn : n.index < b.tree.size) :
    n.index < b'.tree.size := Nat.lt_of_lt_of_le hn h.tree.size_le

theorem knows (h : b.Grows b') (hk : b.Knows kind) : b'.Knows kind where
  nodes n hn := h.node_lt (hk.nodes n hn)
  range r hr := Nat.le_trans (hk.range r hr) (Tree.size_le_of_same h.tree.lists)
  loop l hl := Nat.lt_of_lt_of_le (hk.loop l hl) (Tree.size_le_of_same h.tree.loops)
  alternative a ha :=
    Nat.lt_of_lt_of_le (hk.alternative a ha) (Tree.size_le_of_same h.tree.alternatives)
  scope s hs := Nat.lt_of_lt_of_le (hk.scope s hs) h.scopes
  label l hl := Nat.lt_of_lt_of_le (hk.label l hl) h.labels

end Grows

section

variable (b)

theorem grows_node (kind : NodeKind) (mode : ModeId) (span : Span) :
    b.Grows (b.after (node kind mode span)) := .of_tree (b.tree.extends_push _) fun _ _ => rfl

theorem grows_list (ns : List NodeId) : b.Grows (b.after (list ns)) :=
  .of_tree (b.tree.extends_pushList ns) fun _ _ => rfl

theorem grows_modeList (ms : List ModeId) : b.Grows (b.after (modeList ms)) := by
  refine .of_tree ⟨fun _ _ => rfl, fun _ _ => rfl, fun _ _ => rfl, fun _ _ => rfl⟩ fun i h => ?_
  change (b.tree.modeLists ++ ms)[i]? = _
  rw [← Array.getElem?_toList, ← Array.getElem?_toList, Array.toList_appendList,
    List.getElem?_append_left h]

theorem grows_setTarget (l : LabelId) (n : NodeId) :
    b.Grows { b with labels := b.labels.setTarget l n } := by
  refine ⟨.refl _, fun _ _ => rfl, Nat.le_refl _, by simp [LabelTable.setTarget, LabelTable.size],
    fun k _ => ?_⟩
  change (LabelTable.get ⟨_⟩ k).scope = _
  rw [LabelTable.get_modify]
  split <;> rfl

theorem grows_claim (items : List NodeId) (owner : NodeId) :
    b.Grows (b.after (claim items owner)) := by
  refine ⟨.refl _, fun _ _ => rfl, Nat.le_refl _, ?_, fun l hl => ?_⟩
  · exact Nat.le_of_eq (LabelTable.size_foldl_setOwner _ _).symm
  · change (LabelTable.get (List.foldl _ _ _) l).scope = _
    rw [LabelTable.get_foldl_setOwner _ _ hl]
    split <;> rfl

theorem grows_serial (scope : ScopeId) (items : List NodeId) (mode : ModeId) :
    b.Grows (b.after (serial scope items mode)) :=
  ((b.grows_list items).trans (grows_node ..)).trans (grows_claim ..)

theorem grows_separated (units : List NodeId) : b.Grows (b.after (separated units)) := by
  induction units generalizing b with
  | nil => exact .refl b
  | cons unit rest ih =>
    cases rest with
    | nil => exact .refl b
    | cons next rest => exact (b.grows_node ..).trans (ih _)

theorem grows_label (scope : ScopeId) (name : String) : b.Grows (b.after (label scope name)) := by
  refine ⟨.refl _, fun _ _ => rfl, ?_, ?_, fun l hl => ?_⟩
  · exact Nat.le_of_eq Array.size_modify.symm
  · exact Nat.le_trans (Nat.le_succ _) (Nat.le_of_eq (Array.size_push _).symm)
  · exact congrArg Label.scope (LabelTable.get_push _ hl)

end

theorem Call.grows (b : Builder) (c : Call) : b.Grows (c.run b) := by
  cases c with
  | intern | mode => exact ⟨.refl _, fun _ _ => rfl, Nat.le_refl _, Nat.le_refl _, fun _ _ => rfl⟩
  | scope parent =>
    refine ⟨.refl _, fun _ _ => rfl, ?_, Nat.le_refl _, fun _ _ => rfl⟩
    exact Nat.le_trans (Nat.le_succ _) (Nat.le_of_eq (Array.size_push _).symm)
  | declare scope mode =>
    refine ⟨.refl _, fun _ _ => rfl, ?_, Nat.le_refl _, fun _ _ => rfl⟩
    exact Nat.le_of_eq Array.size_modify.symm
  | label scope name => exact b.grows_label scope name
  | node kind mode span => exact b.grows_node kind mode span
  | list ns => exact b.grows_list ns
  | modeList ms => exact b.grows_modeList ms
  | labeled label unit => exact (b.grows_node ..).trans (grows_setTarget ..)
  | serial scope items mode => exact b.grows_serial scope items mode
  | statements scope units mode => exact (b.grows_separated units).trans (grows_serial ..)
  | closed scope serial => exact b.grows_node ..
  | loop parts =>
    exact (Grows.of_tree (b.tree.extends_pushLoop parts) fun _ _ => rfl).trans (grows_node ..)
  | alternative a =>
    exact (Grows.of_tree (b.tree.extends_pushAlternative a) fun _ _ => rfl).trans (grows_node ..)

theorem calls_grows (b : Builder) (cs : List Call) : b.Grows (b.calls cs) := by
  induction cs generalizing b with
  | nil => exact .refl b
  | cons c cs ih => exact (c.grows b).trans (ih _)

/-! Calls that name what is there. -/

namespace Grounded

theorem refers (h : b.Grounded) (hk : b.Knows kind) : b.tree.Refers kind where
  range := hk.range
  loop l hl := hk.loop l (hl ▸ rfl)
  alternative a ha := hk.alternative a (ha ▸ rfl)
  parts c hc := by
    rcases Tree.mem_children_iff.mp hc with hc | ⟨r, -, hc⟩ | ⟨l, hl, hc⟩ | ⟨a, ha, rfl⟩
    · exact hk.nodes c hc
    · exact h.lists c (Tree.mem_of_mem_list hc)
    · exact h.loops _ (Tree.loopParts_mem (hk.loop l hl)) c hc
    · exact h.alternatives _ (Tree.alternative_mem (hk.alternative a ha))

theorem orderly (h : b.Grounded) : b.tree.Orderly :=
  ⟨fun n hn => h.refers (h.knows n hn), h.earlier⟩

theorem new : Builder.new.Grounded where
  earlier n c hc := by
    rw [Tree.kind_of_size_le (Nat.zero_le _)] at hc
    cases hc
  knows n hn := by cases hn
  lists n hn := by simp [Builder.new, Tree.empty] at hn
  loops p hp := by simp [Builder.new, Tree.empty] at hp
  alternatives a ha := by simp [Builder.new, Tree.empty] at ha
  labels l hl := by cases hl

/-- What is new is made of what was there. -/
theorem grow (h : b.Grounded) (hg : b.Grows b')
    (nodes : ∀ n, b.tree.size ≤ n.index → n.index < b'.tree.size → b.Knows (b'.tree.kind n))
    (lists : ∀ n ∈ b'.tree.lists, n ∈ b.tree.lists ∨ n.index < b.tree.size)
    (loops : ∀ p ∈ b'.tree.loops, p ∈ b.tree.loops ∨ ∀ n ∈ p.nodes, n.index < b.tree.size)
    (alternatives : ∀ a ∈ b'.tree.alternatives,
      a ∈ b.tree.alternatives ∨ a.unit.index < b.tree.size)
    (labels : ∀ l : LabelId, b.labels.size ≤ l.index → l.index < b'.labels.size →
      (b'.labels.get l).scope.index < b'.scopes.size) : b'.Grounded := by
  -- old nodes are of the kinds they were, so all nodes name what was there before
  have known (n : NodeId) (hn : n.index < b'.tree.size) : b.Knows (b'.tree.kind n) := by
    by_cases hold : n.index < b.tree.size
    · rw [hg.tree.kind_eq hold]
      exact h.knows n hold
    · exact nodes n (Nat.le_of_not_lt hold) hn
  refine ⟨fun n c hc => ?_, fun n hn => hg.knows (known n hn), fun n hn => ?_, fun p hp n hn => ?_,
    fun a ha => ?_, fun l hl => ?_⟩
  · by_cases hn : n.index < b'.tree.size
    · rw [hg.tree.children_eq (h.refers (known n hn))] at hc
      by_cases hold : n.index < b.tree.size
      · rw [hg.tree.kind_eq hold] at hc
        exact h.earlier n c hc
      · exact Nat.lt_of_lt_of_le ((h.refers (known n hn)).parts c hc) (Nat.le_of_not_lt hold)
    · rw [Tree.kind_of_size_le (Nat.le_of_not_lt hn)] at hc
      cases hc
  · exact hg.node_lt ((lists n hn).elim (h.lists n) id)
  · exact hg.node_lt ((loops p hp).elim (fun hp => h.loops p hp n hn) fun hp => hp n hn)
  · exact hg.node_lt ((alternatives a ha).elim (h.alternatives a) id)
  · by_cases hold : l.index < b.labels.size
    · rw [hg.declared l hold]
      exact Nat.lt_of_lt_of_le (h.labels l hold) hg.scopes
    · exact labels l (Nat.le_of_not_lt hold) hl

theorem grow_pools (h : b.Grounded) (hg : b.Grows b') (hn : b'.tree.size = b.tree.size)
    (hl : b'.labels.size = b.labels.size)
    (lists : ∀ n ∈ b'.tree.lists, n ∈ b.tree.lists ∨ n.index < b.tree.size)
    (loops : ∀ p ∈ b'.tree.loops, p ∈ b.tree.loops ∨ ∀ n ∈ p.nodes, n.index < b.tree.size)
    (alternatives : ∀ a ∈ b'.tree.alternatives,
      a ∈ b.tree.alternatives ∨ a.unit.index < b.tree.size) : b'.Grounded := by
  refine h.grow hg (fun n hle hlt => ?_) lists loops alternatives fun l hle hlt => ?_
  · omega
  · omega

theorem grow_tables (h : b.Grounded) (hg : b.Grows b') (ht : b'.tree = b.tree)
    (hl : b'.labels.size = b.labels.size) : b'.Grounded := by
  refine h.grow_pools hg (congrArg Tree.size ht) hl ?_ ?_ ?_ <;>
  · rw [ht]
    exact fun _ => .inl

theorem node (h : b.Grounded) (hk : b.Knows kind) (mode : ModeId) (span : Span) :
    (b.after (Builder.node kind mode span)).Grounded := by
  refine h.grow (b.grows_node kind mode span) (fun n hn hn' => ?_) (fun _ => .inl) (fun _ => .inl)
    (fun _ => .inl) fun l hle hlt => absurd hlt (Nat.not_lt_of_le hle)
  obtain rfl := Tree.eq_next_of_push hn hn'
  rwa [show (b.after (Builder.node kind mode span)).tree.kind b.tree.next = kind from
    b.tree.kind_push _]

theorem list (h : b.Grounded) {ns : List NodeId} (hn : ∀ n ∈ ns, n.index < b.tree.size) :
    (b.after (Builder.list ns)).Grounded := by
  refine h.grow_pools (b.grows_list ns) rfl rfl (fun n hm => ?_) (fun _ => .inl) fun _ => .inl
  have hm : n ∈ b.tree.lists ++ ns := hm
  rw [Array.mem_def, Array.toList_appendList, List.mem_append, ← Array.mem_def] at hm
  exact hm.imp_right (hn n)

theorem serial (h : b.Grounded) {scope : ScopeId} (hs : scope.index < b.scopes.size)
    {items : List NodeId} (hi : ∀ n ∈ items, n.index < b.tree.size) (mode : ModeId) :
    (b.after (Builder.serial scope items mode)).Grounded := by
  have hk : (b.after (Builder.list items)).Knows
      (.serialClause scope (b.tree.pushList items).1) := by
    refine ⟨nofun, ?_, nofun, nofun, ?_, nofun⟩
    · rintro _ ⟨⟩
      exact Nat.le_of_eq (Tree.size_append _ _).symm
    · rintro _ ⟨⟩
      exact hs
  exact ((h.list hi).node hk mode .dummy).grow_tables (grows_claim ..) rfl
    (LabelTable.size_foldl_setOwner _ _)

/-- The separators between units are new nodes. -/
theorem separated (h : b.Grounded) {units : List NodeId}
    (hu : ∀ n ∈ units, n.index < b.tree.size) :
    (b.after (Builder.separated units)).Grounded ∧
      ∀ n ∈ ((Builder.separated units).run b).1,
        n.index < (b.after (Builder.separated units)).tree.size := by
  induction units generalizing b with
  | nil => exact ⟨h, nofun⟩
  | cons unit rest ih =>
    cases rest with
    | nil => exact ⟨h, hu⟩
    | cons next rest =>
      have hg := b.grows_node .separator .void .dummy
      have hk : b.Knows .separator := by
        constructor <;> simp [NodeKind.nodes, NodeKind.range?, NodeKind.loop?,
          NodeKind.alternative?, NodeKind.scope?, NodeKind.label?]
      obtain ⟨hr, hn⟩ := ih (h.node hk .void .dummy)
        fun n hn => hg.node_lt (hu n (List.mem_cons_of_mem _ hn))
      have hg' := (b.after (Builder.node .separator .void .dummy)).grows_separated (next :: rest)
      refine ⟨hr, fun n hm => ?_⟩
      rcases List.mem_cons.mp hm with rfl | hm
      · exact (hg.trans hg').node_lt (hu _ (List.mem_cons_self ..))
      rcases List.mem_cons.mp hm with rfl | hm
      · exact hg'.node_lt (Nat.lt_of_lt_of_eq (Nat.lt_succ_self _) (Array.size_push _).symm)
      · exact hn n hm

theorem label (h : b.Grounded) {scope : ScopeId} (hs : scope.index < b.scopes.size)
    (name : String) : (b.after (Builder.label scope name)).Grounded := by
  have hg := b.grows_label scope name
  refine h.grow hg (fun n hle hlt => absurd hlt (Nat.not_lt_of_le hle))
    (fun _ => .inl) (fun _ => .inl) (fun _ => .inl) fun l hle hlt => ?_
  have hsize : (b.after (Builder.label scope name)).labels.size = b.labels.size + 1 :=
    Array.size_push _
  obtain rfl : l = ⟨b.labels.size⟩ :=
    congrArg Index.mk (Nat.le_antisymm (Nat.le_of_lt_succ (Nat.lt_of_lt_of_eq hlt hsize)) hle)
  have new : ((b.after (Builder.label scope name)).labels.get ⟨b.labels.size⟩).scope = scope :=
    congrArg Label.scope (b.labels.get_push_size _)
  rw [new]
  exact Nat.lt_of_lt_of_le hs hg.scopes

/-- A pool has grown by an entry made of nodes that were there, and a node for the entry is made. -/
theorem loop (h : b.Grounded) {parts : LoopParts}
    (hp : ∀ n ∈ parts.nodes, n.index < b.tree.size) : (b.after (Builder.loop parts)).Grounded := by
  have pool : Grounded { b with tree := (b.tree.pushLoop parts).2 } := by
    refine h.grow_pools (.of_tree (b.tree.extends_pushLoop parts) fun _ _ => rfl) rfl rfl
      (fun _ => .inl) (fun p hm => ?_) fun _ => .inl
    rcases Array.mem_push.mp hm with hm | rfl
    · exact .inl hm
    · exact .inr hp
  have entry : Knows { b with tree := (b.tree.pushLoop parts).2 }
      (.loop (b.tree.pushLoop parts).1) := by
    refine ⟨by simp [NodeKind.nodes], nofun, ?_, nofun, nofun, nofun⟩
    rintro _ ⟨⟩
    exact Nat.lt_of_lt_of_eq (Nat.lt_succ_self _) (Array.size_push _).symm
  exact pool.node entry .void .dummy

theorem alternative (h : b.Grounded) {a : Alternative} (ha : a.unit.index < b.tree.size) :
    (b.after (Builder.alternative a)).Grounded := by
  have pool : Grounded { b with tree := (b.tree.pushAlternative a).2 } := by
    refine h.grow_pools (.of_tree (b.tree.extends_pushAlternative a) fun _ _ => rfl) rfl rfl
      (fun _ => .inl) (fun _ => .inl) fun e hm => ?_
    rcases Array.mem_push.mp hm with hm | rfl
    · exact .inl hm
    · exact .inr ha
  have entry : Knows { b with tree := (b.tree.pushAlternative a).2 }
      (.conformityAlternative (b.tree.pushAlternative a).1) := by
    refine ⟨by simp [NodeKind.nodes], nofun, nofun, ?_, nofun, nofun⟩
    rintro _ ⟨⟩
    exact Nat.lt_of_lt_of_eq (Nat.lt_succ_self _) (Array.size_push _).symm
  exact pool.node entry _ .dummy

end Grounded

theorem Call.grounded {c : Call} (h : b.Grounded) (hc : c.Known b) : (c.run b).Grounded := by
  cases c with
  | intern | mode | scope | declare => exact h.grow_tables (Call.grows b _) rfl rfl
  | label scope name => exact h.label hc name
  | node kind mode span => exact h.node hc mode span
  | list ns => exact h.list hc
  | modeList ms =>
    exact h.grow_pools (b.grows_modeList ms) rfl rfl (fun _ => .inl) (fun _ => .inl)
      fun _ => .inl
  | labeled label unit =>
    exact (h.node hc _ .dummy).grow_tables (grows_setTarget ..) rfl Array.size_modify
  | serial scope items mode => exact h.serial hc.1 hc.2 mode
  | statements scope units mode =>
    obtain ⟨hs, hu⟩ := h.separated hc.2
    exact hs.serial (Nat.lt_of_lt_of_le hc.1 (b.grows_separated units).scopes) hu mode
  | closed scope serial => exact h.node hc _ .dummy
  | loop parts => exact h.loop hc
  | alternative a => exact h.alternative hc

/-- Calls that name what is there make a grounded program. -/
theorem grounded_calls {cs : List Call} (h : b.Grounded) (hc : b.Admits cs) :
    (b.calls cs).Grounded := by
  induction cs generalizing b with
  | nil => exact h
  | cons c cs ih => exact ih (c.grounded h hc.1) hc.2

end Builder

end Algol68
