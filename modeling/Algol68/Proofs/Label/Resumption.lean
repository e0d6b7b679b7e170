import Algol68.Proofs.Jump.Landing
import Algol68.Proofs.Label.Attaching
import Algol68.Proofs.Label.Running
import Mathlib.Tactic.IntervalCases

/-! Jumps never dangle. Where each label stands before one unit of a closed clause of its range, all jumps
to it stand in that clause and the serial clause of that clause is the last that took the label, every jump
that is executed resumes the clause at its labelled unit. -/

namespace Algol68

namespace Program

variable {p : Program} {cs : List Builder.Call} {n : NodeId} {l : LabelId}

/-- A program is made by the calls, each of which names what is there. -/
def Assembled (p : Program) (cs : List Builder.Call) : Prop :=
  Builder.new.Admits cs ∧ p = (Builder.new.calls cs).finish p.root

namespace Assembled

variable (h : p.Assembled cs)

include h

theorem tree_eq : p.tree = (Builder.new.calls cs).tree := congrArg Program.tree h.2

theorem scopes_eq : p.scopes = (Builder.new.calls cs).scopes := congrArg Program.scopes h.2

theorem labels_eq : p.labels = (Builder.new.calls cs).labels := congrArg Program.labels h.2

theorem grounded : (Builder.new.calls cs).Grounded := Builder.grounded_calls .new h.1

theorem environs (n : NodeId) :
    p.environLevel n = p.tree.environLevel p.scopes p.labels n := by
  by_cases hn : n.index < p.tree.size
  · rw [h.2] at hn ⊢
    have hn : n.index < (Builder.new.calls cs).tree.size := hn
    simp [environLevel, Builder.finish, hn]
  · rw [environLevel_of_size_le (Nat.le_of_not_lt hn)]
    rw [h.2] at hn ⊢
    have hn : ¬ n.index < (Builder.new.calls cs).tree.size := hn
    simp [environLevel, Builder.finish, hn]

/-- The labels that nodes name are there. -/
theorem declared (hk : l ∈ (p.tree.kind n).label?) : l.index < p.labels.size := by
  rw [h.labels_eq]
  rw [h.tree_eq] at hk
  refine (h.grounded.knows n (Tree.index_lt_of_kind fun hp => ?_)).label l hk
  rw [hp] at hk
  cases hk

theorem hasLabels (hl : l.index < p.labels.size) :
    (p.scopes.get (p.labels.get l).scope).hasLabels := by
  rw [h.labels_eq] at hl ⊢
  rw [h.scopes_eq]
  exact Builder.marked_calls (b := .new) (fun _ hl => absurd hl (Nat.not_lt_zero _)) h.1 l hl

end Assembled

end Program

namespace Harbour

variable {H : Harbour} {p : Program} {starts : NodeId → Prop} {x u : NodeId} {s : ScopeId}
  {n : NodeId} {cs : List Builder.Call}

/-- The label stands before one unit, among the items of the serial clause of a closed clause of the
range it is declared in, and all jumps to it stand in that closed clause. -/
structure Attached (H : Harbour) (p : Program) (starts : NodeId → Prop) (x : NodeId) : Prop where
  labelled : ∀ n, p.tree.IsLabelled H.label n ↔ n = x
  closed : p.tree.kind H.closed = .closed (H.scope p) H.serial
  serial : p.tree.IsSerial H.serial
  carries : p.tree.Carries H.serial x
  inside : ∀ n, starts n → ¬ H.Awaits p n

/-- A call has put the label before its unit, and of the serial clauses that calls have made and given the
label, that of the closed clause is the last. -/
structure Keeps (H : Harbour) (p : Program) (cs : List Builder.Call) (x : NodeId) : Prop where
  labelled : x ∈ Builder.new.nodesOf Builder.Call.labelled? cs
  serial : H.serial ∈ Builder.new.nodesOf Builder.Call.clause? cs
  last : ∀ s ∈ Builder.new.nodesOf Builder.Call.clause? cs,
    p.tree.Claims s H.label → s.index ≤ H.serial.index

/-- What has a jump to the label in it and stands somewhere is part of the closed clause. -/
theorem Awaits.closed_stands (ha : H.Awaits p n) (hs : p.Stands starts s n)
    (hi : ∀ n, starts n → ¬ H.Awaits p n) : ∃ s, p.Stands starts s H.closed := by
  induction hs with
  | start hs => exact absurd ha (hi _ hs)
  | @inner s n c hs hc ih =>
    by_cases hn : n = H.closed
    · exact ⟨s, hn ▸ hs⟩
    · refine ih (.part hn ?_ ha)
      rw [← Program.standings_nodes s]
      exact List.mem_map_of_mem hc

namespace Attached

variable (h : H.Attached p starts x)

include h

theorem labelled_mem {items : NodeRange} {r : ScopeId} (hk : p.tree.kind H.serial = .serialClause r items)
    (hu : p.tree.kind x = .labeled H.label u) :
    .labelled x u ∈ p.tree.clauseItems (p.tree.list items) :=
  Tree.mem_clauseItems_iff.mpr
    ⟨⟨H.label, hu⟩, ((Tree.carries_iff_among hk).mp h.carries).transparent⟩

variable (hb : p.Assembled cs)

include hb

theorem target (hk : H.Keeps p cs x) : (p.labels.get H.label).target = some x := by
  have hx := (h.labelled x).mpr rfl
  rw [hb.tree_eq] at hx
  obtain ⟨y, target, hy⟩ := Builder.exists_target hb.1 hk.labelled hx
  rw [← hb.tree_eq] at hy
  rw [hb.labels_eq, target, (h.labelled y).mp hy]

theorem owner (hk : H.Keeps p cs x) : (p.labels.get H.label).owner = some H.serial := by
  have claims : p.tree.Claims H.serial H.label := ⟨h.serial, x, h.carries, (h.labelled x).mpr rfl⟩
  rw [hb.tree_eq] at claims
  obtain ⟨s, hs, owner, hc, hle⟩ := Builder.exists_owner .new hb.1 hk.serial claims
  rw [← hb.tree_eq] at hc
  have same : s.index = H.serial.index := Nat.le_antisymm (hk.last s hs hc) hle
  rw [hb.labels_eq, owner]
  exact congrArg some (congrArg Index.mk same)

/-- Where a jump to the label stands in the program, the closed clause does, so that its serial clause
is one of the label's range. -/
theorem proper (hw : p.WellScoped starts) (hk : H.Keeps p cs x) (hs : p.Stands starts s n)
    (ha : H.Awaits p n) : H.Proper p starts := by
  obtain ⟨s, hs⟩ := ha.closed_stands hs h.inside
  have runs := hw.proper hs
  rw [h.closed] at runs
  obtain ⟨range, items, hk'⟩ := h.serial
  have := runs.2 range items hk'
  subst this
  obtain ⟨u, hu⟩ := (h.labelled x).mpr rfl
  have declared := hb.declared (n := x) (l := H.label) (by rw [hu]; rfl)
  exact ⟨h.closed, ⟨items, hk'⟩, hb.hasLabels declared, h.owner hb hk, h.inside⟩

end Attached

end Harbour

/-- Each label has its harbour, which the calls keep it for. -/
def Program.Anchors (p : Program) (cs : List Builder.Call) (starts : NodeId → Prop) : Prop :=
  ∀ l : LabelId, l.index < p.labels.size →
    ∃ H x, Harbour.label H = l ∧ H.Attached p starts x ∧ H.Keeps p cs x

theorem Program.Anchors.exists_harbour {p : Program} {cs : List Builder.Call}
    {starts : NodeId → Prop} {n : NodeId} {l : LabelId} (h : p.Anchors cs starts)
    (hb : p.Assembled cs) (hk : p.tree.kind n = .jump l) :
    ∃ H x, Harbour.label H = l ∧ H.Attached p starts x ∧ H.Keeps p cs x :=
  h l (hb.declared (n := n) (by rw [hk]; rfl))

theorem Program.Anchors.jumpsOutward {p : Program} {cs : List Builder.Call}
    {starts : NodeId → Prop} (h : p.Anchors cs starts) (hb : p.Assembled cs)
    (hw : p.WellScoped starts) : p.JumpsOutward starts := by
  intro s n l hs hk
  obtain ⟨H, x, rfl, ha, hkeeps⟩ := h.exists_harbour hb hk
  have proper := ha.proper hb hw hkeeps hs (.jump hk)
  exact ⟨proper.encloses hw hs (.jump hk), proper.labelled⟩

/-- A running clause is resumed at each of its labelled units. -/
theorem LabelledClause.resume_of_mem {job : Job} {c : LabelledClause} {x u : NodeId} {l : LabelId}
    (hk : job.program.tree.kind x = .labeled l u)
    (h : .labelled x u ∈ job.program.tree.clauseItems c.items) :
    ∃ steps, c.resume job (some x) = .ok (.unit u :: steps ++ [.labelled c]) := by
  have hw := job.program.tree.walk_eq (some x) c.items
  have found := ClauseItem.walk_finds h
  obtain ⟨before, n, after, hitems, hsteps⟩ := ClauseItem.walk_found found
  -- the walk begins with the unit behind the label
  have mem : .labelled x n ∈ job.program.tree.clauseItems c.items := by simp [hitems]
  obtain ⟨i, -, hi⟩ := List.mem_flatMap.mp mem
  obtain ⟨l', hk'⟩ := Tree.kind_of_mem_itemsOf hi
  cases hk.symm.trans hk'
  simp only [resume, hw, found, hsteps]
  exact ⟨_, rfl⟩

/-- How the jump `node`, executed in front of `rest`, goes back to its harbour: it lands in the serial
clause, which goes on with the labelled unit `u`. -/
structure Harbour.Resumes (H : Harbour) (job : Job) (units : NodeId → Prop) (node : NodeId)
    (rest : Agenda) (m : Machine) (u : NodeId) (j : Jump) (before : Agenda) (c : LabelledClause)
    (after : Agenda) : Prop where
  raised : (Task.elaborate node).exec job m = .error (.jump j) m
  agenda : rest = before ++ .labelled c :: after
  landing : Landing job units node (job.program.labels.get H.label) j m before c after
  clause : c.serial = H.serial
  resumed : ∃ work, unwind job (.jump j) rest m =
    .resumed (.unit u :: work ++ .labelled c :: after) (c.caught j (m.undo before))

variable {job : Job} {units : NodeId → Prop} {H : Harbour} {x u node : NodeId} {rest : Agenda}
  {m : Machine} {L : Lexicon} {cs : List Builder.Call}

section

variable (hb : job.program.Assembled cs) (hw : job.program.WellScoped (job.starts units))

include hw

/-- A jump that is executed finds the clause that owns its label. -/
theorem Harbour.Proper.raises (hj : job.program.JumpsOutward (job.starts units))
    (hp : H.Proper job.program (job.starts units))
    (h : Chronicle job units (.elaborate node :: rest) m L)
    (hk : job.program.tree.kind node = .jump H.label) :
    ∃ j, (Task.elaborate node).exec job m = .error (.jump j) m := by
  have hrec := h.recorded hw hj
  have htop : m.outline.top = m.frames.depth - 1 := by simp [Outline.top, Machine.outline]
  have hpos : 0 < m.frames.depth := by
    rw [← FrameStack.hollow_length]
    exact hrec.state.consistent.sound.length_pos
  have moored : H.Moored job.program m.frames.hollow m.outline.top := by
    rcases (Harbour.kept_of_chronicle hw hj hp h).settled.head (List.mem_singleton_self node) (.jump hk)
      with hm | ⟨_, _, hA, -⟩
    · exact hm
    · cases hA
  obtain ⟨-, k, f, b, hl, hf, hscope, hr⟩ := moored
  obtain ⟨y, hy, rfl⟩ := FrameStack.findScope_eq hrec.state.nested hpos (htop ▸ hl) hf
  rw [hscope] at hy
  have hyr : y.resumption = some ⟨H.serial, b⟩ := hr
  have raised : Exec.wp (Exec.elaborate job node) (fun _ _ => False)
      (fun s m' => m' = m ∧ ∃ j, s = .jump j) m := by
    simp only [Exec.elaborate, hk, Exec.elaborate.jump, Exec.wp_bind, Exec.wp_depth, Exec.wp_get]
    rw [show m.frames.findScope (job.program.labels.get H.label).scope = some y from hy]
    obtain ⟨_, _, _, _, _, _⟩ := y
    cases hyr
    simp [hp.owner]
  cases he : (Task.elaborate node).exec job m with
  | ok work m' => exact (Exec.wp_ok raised he).elim
  | error s m' =>
    obtain ⟨rfl, j, rfl⟩ := Exec.wp_error raised he
    exact ⟨j, rfl⟩

include hb

/-- A jump that is executed resumes the clause at the labelled unit. -/
theorem Harbour.Attached.resumes (hj : job.program.JumpsOutward (job.starts units))
    (ha : H.Attached job.program (job.starts units) x) (hkeeps : H.Keeps job.program cs x)
    (h : Underway job units (.elaborate node :: rest) m)
    (hk : job.program.tree.kind node = .jump H.label)
    (hu : job.program.tree.kind x = .labeled H.label u) :
    ∃ j before c after, H.Resumes job units node rest m u j before c after := by
  obtain ⟨L, hL⟩ := h.exists_chronicle hw hj
  obtain ⟨s, hs⟩ := (hL.recorded hw hj).state.placed.1
  have hp := ha.proper hb hw hkeeps hs.stands (.jump hk)
  obtain ⟨j, he⟩ := hp.raises hw hj hL hk
  obtain ⟨node', l, before, c, after, hn, hk', -, rfl, hland⟩ := h.lands he
  cases hn
  cases hk.symm.trans hk'
  have hserial : c.serial = H.serial := Option.some.inj (hland.owner.symm.trans hp.owner)
  refine ⟨j, before, c, after, he, rfl, hland, hserial, ?_⟩
  -- the clause was begun with the items of the serial clause, among which is the labelled unit
  obtain ⟨items, hki⟩ := hp.serial
  obtain ⟨m₀, enquiry, rest₀, hu₀, hruns, -⟩ := hland.entry
  have hc₀ := hu₀.consistent.1
  obtain ⟨hitems, -⟩ := hruns.begins hc₀.sound hc₀.along.1 (hserial ▸ hki) hp.labelled
  obtain ⟨steps, hsteps⟩ := LabelledClause.resume_of_mem (c := c) hu
    (by rw [hitems]; exact ha.labelled_mem hki hu)
  refine ⟨steps, ?_⟩
  have lands := hland.lands
  rw [ha.target hb hkeeps, hsteps] at lands
  simpa using lands

/-- No fault about a label ends a run. -/
theorem Underway.anchored (hj : job.program.JumpsOutward (job.starts units))
    (ha : job.program.Anchors cs (job.starts units)) {A : Agenda} (h : Underway job units A m)
    {sig : Signal} {m' : Machine} (hx : Escapes job (A, m) sig m') :
    ∃ f, sig = .fault f ∧ f.cause.ofLabel = false := by
  obtain ⟨t, rest, m₀, m₁, s₀, hr, he, hu⟩ := hx
  have h₀ := h.runs hr
  by_cases hjump : ∃ n l, t = .elaborate n ∧ job.program.tree.kind n = .jump l
  · obtain ⟨n, l, rfl, hk⟩ := hjump
    obtain ⟨H, x, rfl, hattached, hkeeps⟩ := ha.exists_harbour hb hk
    obtain ⟨u, hu'⟩ := (hattached.labelled x).mpr rfl
    obtain ⟨j, before, c, after, hresumes⟩ := hattached.resumes hb hw hj hkeeps h₀ hk hu'
    cases hresumes.raised.symm.trans he
    obtain ⟨work, hwork⟩ := hresumes.resumed
    cases hwork.symm.trans hu
  · have hc := h₀.consistent.1
    have anchored := Exec.wp_error (Exec.exec_anchored hc.sound hc.truthful hc.along.1
      fun n l ht hk => hjump ⟨n, l, ht, hk⟩) he
    cases s₀ with
    | jump j =>
      obtain ⟨n, l, -, ht, hk, -⟩ := Exec.exec_jump hc.sound hc.along.1 he
      exact absurd ⟨n, l, ht, hk⟩ hjump
    | fault f =>
      obtain ⟨f', hcause, hf'⟩ := @unwind_fault job f rest m₁
      cases hf'.symm.trans hu
      exact ⟨f', rfl, by rw [hcause]; exact anchored⟩

theorem Session.runUnit_anchored (hj : job.program.JumpsOutward (job.starts units))
    (ha : job.program.Anchors cs (job.starts units)) {s : Session} (hs : s.job = job) {unit : NodeId}
    (h : Underway job units [.unit unit] s.machine) {steps : Nat} {f : Fault}
    (hf : (s.runUnit steps unit).1.fault? = some f) : f.cause.ofLabel = false := by
  rcases Session.runUnit_fault hf with ⟨sig, m', hx, rfl⟩ | hc | ⟨i, j, hc⟩
  · rw [hs] at hx
    obtain ⟨g, rfl, hg⟩ := h.anchored hb hw hj ha hx
    exact hg
  · rw [hc]
    rfl
  · rw [hc]
    rfl

/-- In a well-scoped program that calls assemble, where all jumps to a label stand in the closed clause that
holds its labelled unit and the calls keep the label for that clause, no action of a session ends in a
dangling jump, and every jump that is executed goes back to the labelled unit of its clause. -/
theorem jumps_resume (ha : job.program.Anchors cs (job.starts units)) :
    (∀ s, Session.Reached job units s →
      (∀ steps f, (s.run steps).1.fault? = some f → ∀ label, f.cause ≠ .danglingJump label) ∧
      ∀ steps unit f, units unit → (s.resume steps unit).1.fault? = some f →
        ∀ label, f.cause ≠ .danglingJump label) ∧
    ∀ node l rest m, Underway job units (.elaborate node :: rest) m →
      job.program.tree.kind node = .jump l →
      ∃ H x u j before c after, Harbour.label H = l ∧ H.Attached job.program (job.starts units) x ∧
        job.program.tree.kind x = .labeled l u ∧
        H.Resumes job units node rest m u j before c after := by
  have hj : job.program.JumpsOutward (job.starts units) := ha.jumpsOutward hb hw
  have sound {f : Fault} (hf : f.cause.ofLabel = false) (label : String) :
      f.cause ≠ .danglingJump label := by
    intro h
    rw [h] at hf
    cases hf
  refine ⟨fun s hs => ⟨fun steps f hf => ?_, fun steps unit f hu hf => ?_⟩, ?_⟩
  · obtain rfl := hs.job_eq
    exact sound (Session.runUnit_anchored hb hw hj ha rfl (.run hs) hf)
  · obtain rfl := hs.job_eq
    exact sound (Session.runUnit_anchored hb hw hj ha (s := s.atRest) rfl (.resume hs hu) hf)
  · intro node l rest m h hk
    obtain ⟨H, x, rfl, hattached, hkeeps⟩ := ha.exists_harbour hb hk
    obtain ⟨u, hu⟩ := (hattached.labelled x).mpr rfl
    obtain ⟨j, before, c, after, hr⟩ := hattached.resumes hb hw hj hkeeps h hk hu
    exact ⟨H, x, u, j, before, c, after, rfl, hattached, hu, hr⟩

end

/-! That the calls keep the label for its clause is wanted. -/

/-- The label that a node of this kind is a jump to. -/
def NodeKind.jump? : NodeKind → Option LabelId
  | .jump l => some l
  | _ => none

namespace Harbour

variable {p : Program} {n : NodeId}

/-- No jump to the label stands in nodes of which all parts, but for the closed clause, are among them. -/
theorem not_awaits_of_mem (ns : List NodeId)
    (hj : ∀ n ∈ ns, (p.tree.kind n).jump? ≠ some H.label)
    (hc : ∀ n ∈ ns, n ≠ H.closed → ∀ c ∈ p.tree.children (p.tree.kind n), c ∈ ns) (hn : n ∈ ns) :
    ¬ H.Awaits p n := by
  intro ha
  induction ha with
  | jump hk => exact hj _ hn (by rw [hk]; rfl)
  | part hne hm _ ih => exact ih (hc _ hn hne _ hm)

end Harbour

/-- The clause `(GOTO l; l: TRUE)` in a range that has another range in it. Its labelled unit and its serial
clause are made by the calls for them, or else as any other node is. -/
def haven (unit clause : Bool) : List Builder.Call :=
  [.scope .standard, .scope ⟨1⟩, .scope ⟨1⟩, .label ⟨2⟩ "l", .node (.jump ⟨0⟩) .void .dummy,
    .node .separator .void .dummy, .node (.literal (.bool true)) .bool .dummy] ++
  (if unit then [.labeled ⟨0⟩ ⟨2⟩] else [.node (.labeled ⟨0⟩ ⟨2⟩) .bool .dummy]) ++
  (if clause then [.serial ⟨2⟩ [⟨0⟩, ⟨1⟩, ⟨3⟩] .bool] else
    [.list [⟨0⟩, ⟨1⟩, ⟨3⟩], .node (.serialClause ⟨2⟩ ⟨0, 3⟩) .bool .dummy]) ++
  [.closed ⟨2⟩ ⟨4⟩]

/-- The program `((GOTO l; l: TRUE))`. -/
def homing (unit clause : Bool) : List Builder.Call :=
  haven unit clause ++ [.serial ⟨1⟩ [⟨5⟩] .bool, .closed ⟨1⟩ ⟨6⟩]

/-- The program `((GOTO l; l: TRUE); IF l: TRUE THEN SKIP FI)`, where the enquiry has the same labelled
unit for its item. -/
def usurping : List Builder.Call :=
  haven true true ++
    [.node .separator .void .dummy, .serial ⟨3⟩ [⟨3⟩] .bool, .node .skip .void .dummy,
      .node (.conditional ⟨3⟩ ⟨7⟩ ⟨8⟩ none) .void .dummy, .serial ⟨1⟩ [⟨5⟩, ⟨6⟩, ⟨9⟩] .void,
      .closed ⟨1⟩ ⟨10⟩]

def assembled (cs : List Builder.Call) (root : NodeId) : Job where
  program := (Builder.new.calls cs).finish root
  oracle := ModeTable.oracle .new
  config := .default

/-- The calls make a well-scoped program in which each label stands before one unit of one closed clause of
its range, and all jumps to it stand in there. -/
structure Job.Sheltered (job : Job) (cs : List Builder.Call) : Prop where
  assembled : job.program.Assembled cs
  wellScoped : job.program.WellScoped (job.starts fun _ => False)
  attached : ∀ l : LabelId, l.index < job.program.labels.size → ∃ H x, Harbour.label H = l ∧
    H.Attached job.program (job.starts fun _ => False) x ∧
    ∀ n scope s, job.program.tree.kind n = .closed scope s → job.program.tree.Carries s x →
      n = H.closed

/-- The harbour of the label of `haven`. -/
def berth : Harbour := ⟨⟨0⟩, ⟨5⟩, ⟨4⟩⟩

section

variable (unit clause : Bool)

/-- The program `((GOTO l; l: TRUE))`. -/
def homeward : Job := assembled (homing unit clause) ⟨7⟩

theorem homeward_assembled : (homeward unit clause).program.Assembled (homing unit clause) := by
  refine ⟨?_, rfl⟩
  revert unit clause
  decide

theorem homeward_wellScoped :
    (homeward unit clause).program.WellScoped ((homeward unit clause).starts fun _ => False) := by
  refine .of_places [(⟨0⟩, ⟨7⟩), (⟨1⟩, ⟨6⟩), (⟨1⟩, ⟨5⟩), (⟨2⟩, ⟨4⟩), (⟨2⟩, ⟨0⟩), (⟨2⟩, ⟨1⟩), (⟨2⟩, ⟨3⟩),
    (⟨2⟩, ⟨2⟩)] ?_ (fun k _ => (homeward_assembled unit clause).environs ⟨k⟩) ?_ (fun n hn => ?_) ?_ ?_
  · cases unit <;> cases clause <;> rfl
  · simp [homeward, assembled, Builder.finish]
  · rcases hn with rfl | hn
    · exact .head _
    · exact hn.elim
  · revert unit clause
    decide
  · simp only [List.forall_mem_cons, List.not_mem_nil, false_imp_iff, implies_true, and_true]
    cases unit <;> cases clause <;>
    · refine ⟨⟨⟨rfl, rfl⟩, fun range items h => ?_⟩, trivial, ⟨⟨rfl, rfl⟩, fun range items h => ?_⟩,
        trivial, trivial, trivial, trivial, trivial⟩ <;> cases h <;> rfl

/-- How a node was made is not to be seen in the tree. -/
theorem homeward_tree :
    (homeward unit clause).program.tree = (homeward true true).program.tree := by
  cases unit <;> cases clause <;> rfl

theorem homeward_size : (homeward true true).program.tree.size = 8 := rfl

theorem homeward_attached :
    berth.Attached (homeward unit clause).program ((homeward unit clause).starts fun _ => False) ⟨3⟩ := by
  have tree := homeward_tree unit clause
  constructor
  · intro n
    rw [tree]
    constructor
    · intro hn
      have hlt := hn.index_lt
      rw [homeward_size] at hlt
      obtain ⟨u, hk⟩ := hn
      obtain ⟨k⟩ := n
      interval_cases k <;> cases hk
      rfl
    · rintro rfl
      exact ⟨_, rfl⟩
  · cases unit <;> cases clause <;> rfl
  · rw [tree]
    exact ⟨_, _, rfl⟩
  · rw [tree]
    exact .item rfl (by decide)
  · intro n hn
    refine Harbour.not_awaits_of_mem [⟨7⟩, ⟨6⟩, ⟨5⟩] ?_ ?_ ?_
    · rw [tree]
      decide
    · rw [tree]
      decide
    · rcases hn with rfl | hn
      · exact .head _
      · exact hn.elim

theorem homeward_sheltered : (homeward unit clause).Sheltered (homing unit clause) := by
  refine ⟨homeward_assembled .., homeward_wellScoped .., fun l hl => ?_⟩
  refine ⟨berth, ⟨3⟩, ?_, homeward_attached .., fun n scope s hk hc => ?_⟩
  · have hl : l.index < 1 := by cases unit <;> cases clause <;> exact hl
    obtain ⟨k⟩ := l
    interval_cases k
    rfl
  · rw [homeward_tree] at hk hc
    have hn : n.index < 8 := Tree.index_lt_of_kind (by rw [hk]; simp)
    obtain ⟨k⟩ := n
    interval_cases k <;> cases hk
    · rfl
    · have claims : (homeward true true).program.tree.Claims ⟨6⟩ ⟨0⟩ := ⟨⟨_, _, rfl⟩, ⟨3⟩, hc, _, rfl⟩
      exact absurd (claims.mem_labelsOf rfl) (by decide)

end

theorem homeward_anchors : (homeward true true).program.Anchors (homing true true)
    ((homeward true true).starts fun _ => False) := by
  intro l hl
  refine ⟨berth, ⟨3⟩, ?_, homeward_attached .., ⟨by decide, by decide, fun s hs hc => ?_⟩⟩
  · obtain ⟨k⟩ := l
    have hk : k < 1 := hl
    interval_cases k
    rfl
  · have hs : s ∈ [(⟨4⟩ : NodeId), ⟨6⟩] := hs
    simp only [List.mem_cons, List.not_mem_nil, or_false] at hs
    rcases hs with rfl | rfl
    · exact Nat.le_refl _
    · exact absurd (hc.mem_labelsOf rfl) (by decide)

/-- The jump of `homeward` goes back to the closed clause around it, where the unit and the clause are made by
the calls for them. -/
theorem returning_resumes : ∃ rest m,
    Underway (homeward true true) (fun _ => False) (.elaborate ⟨0⟩ :: rest) m ∧
    ∃ H j before c after, c.serial = ⟨4⟩ ∧
      Harbour.Resumes H (homeward true true) (fun _ => False) ⟨0⟩ rest m ⟨2⟩ j before c after := by
  obtain ⟨rest, m, hd⟩ : ∃ rest m,
      drive (homeward true true) 7 [.unit (homeward true true).program.root]
        (Session.new (homeward true true) none false).machine =
        .unfinished (.elaborate ⟨0⟩ :: rest) m := ⟨_, _, rfl⟩
  have hu : Underway (homeward true true) (fun _ => False) (.elaborate ⟨0⟩ :: rest) m :=
    .runs (.run (.new none false)) (runs_of_unfinished hd)
  obtain ⟨-, resumes⟩ :=
    jumps_resume (homeward_assembled ..) (homeward_wellScoped ..) homeward_anchors
  obtain ⟨H, x, u, j, before, c, after, hl, hattached, hk, hr⟩ := resumes _ _ rest m hu rfl
  obtain rfl : ⟨3⟩ = x := (hattached.labelled ⟨3⟩).mp (by rw [hl]; exact ⟨_, rfl⟩)
  cases hk
  have owner := hr.landing.owner
  rw [hl] at owner
  exact ⟨rest, m, hu, H, j, before, c, after, (Option.some.inj owner).symm, hr⟩

def usurped : Job := assembled usurping ⟨11⟩

theorem usurped_assembled : usurped.program.Assembled usurping := ⟨by decide, rfl⟩

theorem usurped_wellScoped : usurped.program.WellScoped (usurped.starts fun _ => False) := by
  refine .of_places [(⟨0⟩, ⟨11⟩), (⟨1⟩, ⟨10⟩), (⟨1⟩, ⟨5⟩), (⟨1⟩, ⟨6⟩), (⟨1⟩, ⟨9⟩), (⟨2⟩, ⟨4⟩), (⟨2⟩, ⟨0⟩),
    (⟨2⟩, ⟨1⟩), (⟨2⟩, ⟨3⟩), (⟨2⟩, ⟨2⟩), (⟨3⟩, ⟨7⟩), (⟨3⟩, ⟨3⟩), (⟨3⟩, ⟨2⟩), (⟨3⟩, ⟨8⟩)] rfl
    (fun k _ => usurped_assembled.environs ⟨k⟩) (by simp [usurped, assembled, Builder.finish])
    (fun n hn => ?_) (by decide) ?_
  · rcases hn with rfl | hn
    · exact .head _
    · exact hn.elim
  · simp only [List.forall_mem_cons, List.not_mem_nil, false_imp_iff, implies_true, and_true]
    refine ⟨⟨⟨rfl, rfl⟩, fun range items h => ?_⟩, trivial, ⟨⟨rfl, rfl⟩, fun range items h => ?_⟩,
      trivial, ⟨⟨rfl, rfl⟩, fun range items h => ?_⟩, trivial, trivial, trivial, trivial, trivial,
      trivial, trivial, trivial, trivial⟩ <;> cases h <;> rfl

theorem usurped_attached :
    berth.Attached usurped.program (usurped.starts fun _ => False) ⟨3⟩ := by
  refine ⟨fun n => ⟨?_, ?_⟩, rfl, ⟨_, _, rfl⟩, .item rfl (by decide), fun n hn => ?_⟩
  · rintro ⟨u, hk⟩
    have hn : n.index < 12 := Tree.index_lt_of_kind (by rw [hk]; simp)
    obtain ⟨k⟩ := n
    interval_cases k <;> cases hk
    rfl
  · rintro rfl
    exact ⟨_, rfl⟩
  · refine Harbour.not_awaits_of_mem
      [⟨11⟩, ⟨10⟩, ⟨5⟩, ⟨6⟩, ⟨9⟩, ⟨7⟩, ⟨3⟩, ⟨2⟩, ⟨8⟩] (by decide) (by decide) ?_
    rcases hn with rfl | hn
    · exact .head _
    · exact hn.elim

theorem usurped_sheltered : usurped.Sheltered usurping := by
  refine ⟨usurped_assembled, usurped_wellScoped, fun l hl => ?_⟩
  refine ⟨berth, ⟨3⟩, ?_, usurped_attached, fun n scope s hk hc => ?_⟩
  · obtain ⟨k⟩ := l
    have hk : k < 1 := hl
    interval_cases k
    rfl
  · have hn : n.index < 12 := Tree.index_lt_of_kind (by rw [hk]; simp)
    obtain ⟨k⟩ := n
    interval_cases k <;> cases hk
    · rfl
    · have claims : usurped.program.tree.Claims ⟨10⟩ ⟨0⟩ := ⟨⟨_, _, rfl⟩, ⟨3⟩, hc, _, rfl⟩
      exact absurd (claims.mem_labelsOf rfl) (by decide)

/-- A jump dangles where another serial clause takes its label over, where no call has given the label to its
clause, and where no call has put it before its unit. -/
theorem usurped_dangles :
    (usurped.Sheltered usurping ∧
      ((Session.new usurped none false).run 100).1.fault?.map Fault.cause =
        some (.danglingJump "l")) ∧
    ((homeward true false).Sheltered (homing true false) ∧
      ((Session.new (homeward true false) none false).run 100).1.fault?.map Fault.cause =
        some (.danglingJump "l")) ∧
    (homeward false true).Sheltered (homing false true) ∧
      ((Session.new (homeward false true) none false).run 100).1.fault?.map Fault.cause =
        some (.danglingJump "?") :=
  ⟨⟨usurped_sheltered, by decide +kernel⟩, ⟨homeward_sheltered .., by decide +kernel⟩,
    homeward_sheltered .., by decide +kernel⟩

end Algol68
