import Algol68.Proofs.Jump.Running

/-! Where jumps land. A jump is taken by the one activation of the clause that owns its label which
runs in the frame that static links lead to, and the clause goes on with the frames, the calls and
the stack with which it was entered. -/

namespace Algol68

open Outline (Along Admits)

variable {job : Job}

/-- Following static links from the frame at one place, the frame at another place is the first
activation of a range. -/
inductive FrameStack.LeadsTo (s : FrameStack) (scope : ScopeId) : Nat → Nat → Prop where
  | here {i : Nat} {f : Frame} (hf : s.frames[i]? = some f) (hs : f.scope = scope) :
      LeadsTo s scope i i
  | up {i link k : Nat} {f : Frame} (hf : s.frames[i]? = some f) (hs : f.scope ≠ scope)
      (hl : f.staticLink = some link) (h : LeadsTo s scope link k) : LeadsTo s scope i k

theorem FrameStack.leadsTo_of_findScopeFrom {s : FrameStack} {scope : ScopeId} {links i : Nat}
    {f : Frame} (h : s.findScopeFrom scope links i = some f) :
    ∃ k, s.LeadsTo scope i k ∧ s.frames[k]? = some f := by
  induction links generalizing i with
  | zero => cases h
  | succ links ih =>
    simp only [findScopeFrom, Option.bind_eq_bind, Option.bind_eq_some_iff] at h
    obtain ⟨g, hg, h⟩ := h
    split at h
    · next hs =>
      cases h
      exact ⟨i, .here hg hs, hg⟩
    · next hs =>
      obtain ⟨link, hl, h⟩ := Option.bind_eq_some_iff.mp h
      obtain ⟨k, hk, hf⟩ := ih h
      exact ⟨k, .up hg hs hl hk, hf⟩

/-- How the jump `node` to `label`, raised in `m` in front of `before ++ .labelled c :: after`, lands
in the running clause `c`. -/
structure Landing (job : Job) (units : NodeId → Prop) (node : NodeId) (label : Label) (j : Jump)
    (m : Machine) (before : Agenda) (c : LabelledClause) (after : Agenda) : Prop where
  /-- It is the clause that owns the label. -/
  owner : label.owner = some c.serial
  target : j.target = label.target
  /-- It runs in the first activation of the label's range on the static chain. -/
  reached : m.frames.LeadsTo label.scope (m.frames.depth - 1) c.frame
  activation : ∃ f, m.frames.frames[c.frame]? = some f ∧ f.serial = c.activation
  /-- It takes the jump, and no other clause that is running would. -/
  takes : c.takes j
  baseline : c.baseline = j.baseline
  alone : ∀ t ∈ before ++ after, ¬ t.takes j
  /-- The jump passes everything in front of the clause, and the clause goes on, or a fault does if
  the label stands before nothing. -/
  lands : unwind job (.jump j) (before ++ .labelled c :: after) m =
    match c.resume job label.target with
    | .ok work => .resumed (work ++ after) (c.caught j (m.undo before))
    | .error f => unwind job (.fault f) after (c.caught j (m.undo before))
  /-- The clause was entered in a state of the session, and goes on as it was entered there. -/
  entry : ∃ m₀ enquiry rest, Underway job units (.clause c.serial enquiry :: rest) m₀ ∧
    c.RunsFrom job m₀ enquiry rest (.elaborate node :: before) after m ∧
    (c.caught j (m.undo before)).frames.depth = m₀.frames.depth ∧
    (c.caught j (m.undo before)).calls = m₀.calls ∧
    (c.caught j (m.undo before)).stack = m.stack.shrink m₀.stack.size

variable {units : NodeId → Prop} {A : Agenda} {m : Machine}

/-- While a frame says that a labelled clause can be resumed in it, the clause runs in it. -/
theorem Underway.running_of_resumption (h : Underway job units A m) {i : Nat} {f : Frame}
    {r : Resumption} (hf : m.frames.frames[i]? = some f) (hr : f.resumption = some r) :
    ∃ before c after, A = before ++ .labelled c :: after ∧ c.frame = i ∧
      c.activation = f.serial ∧ c.serial = r.owner ∧ c.baseline = r.baseline := by
  obtain ⟨hc, hlen, -⟩ := h.consistent
  have hf' : m.outline.frames[i]? = some f.hollow := by
    simp [Machine.outline, FrameStack.hollow_getElem?, hf]
  rcases Outline.exists_labelled hc.along hf' hr with h | hlast
  · exact h
  · -- only the frame of the standard environ is left for good, and no clause runs in it
    obtain ⟨g, hg, -, -, -, -, hnone⟩ := (hc.sound.passAll hc.along).base
    have hi := (List.getElem?_eq_some_iff.mp hlast).1
    obtain rfl : i = 0 := by omega
    rw [hlast] at hg
    cases hg
    rw [Frame.hollow, hr] at hnone
    cases hnone

/-- No two running clauses take the same jump. -/
theorem Outline.takes_unique {o : Outline} {next : Nat} {before after : Agenda}
    {c : LabelledClause} {j : Jump} (hs : o.Sound job next)
    (ha : Along Admits o (before ++ .labelled c :: after)) (hc : c.takes j) :
    ∀ t ∈ before ++ after, ¬ t.takes j := by
  intro t ht htakes
  cases t with
  | labelled d =>
    have same : d.activation = c.activation := htakes.2.symm.trans hc.2
    rcases List.mem_append.mp ht with ht | ht
    · obtain ⟨b₁, b₂, rfl⟩ := List.append_of_mem ht
      simp only [List.append_assoc, List.cons_append] at ha
      exact Outline.activation_ne hs ha same
    · obtain ⟨a₁, a₂, rfl⟩ := List.append_of_mem ht
      exact Outline.activation_ne hs ha same.symm
  | _ => exact htakes

theorem Underway.lands {t : Task} {rest : Agenda} {j : Jump} {m' : Machine}
    (h : Underway job units (t :: rest) m) (he : t.exec job m = .error (.jump j) m') :
    ∃ node id before c after, t = .elaborate node ∧ job.program.tree.kind node = .jump id ∧
      m' = m ∧ rest = before ++ .labelled c :: after ∧
      Landing job units node (job.program.labels.get id) j m before c after := by
  have hc := h.consistent.1
  obtain ⟨node, id, f, rfl, hk, rfl, hfind, hr, hs, howner, htarget⟩ :=
    Exec.exec_jump hc.sound hc.along.1 he
  obtain ⟨k, hk', hf⟩ := FrameStack.leadsTo_of_findScopeFrom hfind
  obtain ⟨before', c, after, hA, hframe, hact, hserial, hbase⟩ := h.running_of_resumption hf hr
  -- the jump itself is not the clause, so the clause is on the rest of the agenda
  obtain ⟨before, rfl, rfl⟩ : ∃ before, before' = .elaborate node :: before ∧
      rest = before ++ .labelled c :: after := by
    cases before' with
    | nil => cases hA
    | cons u before =>
      obtain ⟨rfl, rfl⟩ := List.cons.inj hA
      exact ⟨before, rfl, rfl⟩
  have hserial : c.serial = j.owner := hserial
  have hbase : c.baseline = j.baseline := hbase
  have takes : c.takes j := ⟨hserial.symm, by rw [hact, hs]⟩
  have alone : ∀ t ∈ before ++ after, ¬ t.takes j := Outline.takes_unique hc.sound hc.along.2 takes
  refine ⟨node, id, before, c, after, rfl, hk, rfl, rfl, ?_⟩
  refine ⟨by rw [howner, ← hserial], htarget, hframe ▸ hk', ⟨f, hframe ▸ hf, hact.symm⟩, takes,
    hbase, alone, ?_, ?_⟩
  · have lands : unwind job (.jump j) (before ++ .labelled c :: after) m' = _ :=
      unwind_jump_of_takes (fun t ht => alone t (by simp [ht])) takes
    rw [htarget] at lands
    exact lands
  · obtain ⟨m₀, enquiry, rest, hu, hruns⟩ := h.begun (.elaborate node :: before) c after rfl
    obtain ⟨m₁, steps, ending, -, -, hin, -⟩ := hruns.entered
    have hout := hruns.outline
    have hcaught : (c.caught j (m'.undo before)).outline = m'.outline.passAll before :=
      Consistent.caught before after ⟨hc.sound, hc.truthful, hc.along.2⟩
    have houtline : (c.caught j (m'.undo before)).outline =
        (m₀.announced ⟨c.serial, c.baseline⟩).outline := hcaught.trans hout
    refine ⟨m₀, enquiry, rest, hu, hruns, ?_, ?_, ?_⟩
    · have := congrArg (fun o => o.frames.length) houtline
      rw [Machine.announced_outline] at this
      simpa [Machine.outline] using this
    · exact congrArg Outline.calls houtline
    · simp only [LabelledClause.caught, Machine.undo_stack, ← hin.baseline, ← hbase]

theorem Underway.not_escapes_jump (h : Underway job units A m) {j : Jump} {m' : Machine} :
    ¬ Escapes job (A, m) (.jump j) m' := by
  rintro ⟨t, rest, m₀, m₁, s, hr, he, hx⟩
  cases s with
  | fault f =>
    obtain ⟨f', -, hf⟩ := @unwind_fault job f rest m₁
    rw [hf] at hx
    cases hx
  | jump i =>
    obtain ⟨node, id, before, c, after, -, -, rfl, rfl, hl⟩ := (h.runs hr).lands he
    rw [hl.lands] at hx
    split at hx
    · cases hx
    · next f _ =>
      obtain ⟨f', -, hf⟩ := @unwind_fault job f after (c.caught i (m₁.undo before))
      rw [hf] at hx
      cases hx

/-- In every state of every session, a jump that is raised lands in the activation of its owner that
runs in the frame static links lead to, a frame is marked as resumable only while its clause runs,
and no jump ever escapes. -/
theorem jumps_land (h : Underway job units A m) :
    (∀ t rest j m', A = t :: rest → t.exec job m = .error (.jump j) m' →
      ∃ node id before c after, t = .elaborate node ∧ job.program.tree.kind node = .jump id ∧
        m' = m ∧ rest = before ++ .labelled c :: after ∧
        Landing job units node (job.program.labels.get id) j m before c after) ∧
    (∀ i f r, m.frames.frames[i]? = some f → f.resumption = some r →
      ∃ before c after, A = before ++ .labelled c :: after ∧ c.frame = i ∧
        c.activation = f.serial ∧ c.serial = r.owner ∧ c.baseline = r.baseline) ∧
    ∀ steps j m', drive job steps A m ≠ .escaped (.jump j) m' := by
  refine ⟨?_, fun i f r hf hr => h.running_of_resumption hf hr, fun steps j m' hd => ?_⟩
  · rintro t rest j m' rfl he
    exact h.lands he
  · exact h.not_escapes_jump (escapes_of_escaped hd)

/-- The program `(GOTO l; l: SKIP)`. -/
def leap : Job where
  program := {
    tree := {
      nodes := #[⟨.jump ⟨0⟩, .void, .dummy⟩, ⟨.separator, .void, .dummy⟩, ⟨.skip, .void, .dummy⟩,
        ⟨.labeled ⟨0⟩ ⟨2⟩, .void, .dummy⟩, ⟨.serialClause ⟨1⟩ ⟨0, 3⟩, .void, .dummy⟩,
        ⟨.closed ⟨1⟩ ⟨4⟩, .void, .dummy⟩]
      lists := #[⟨0⟩, ⟨1⟩, ⟨3⟩]
      modeLists := #[]
      loops := #[]
      alternatives := #[] }
    modes := .new
    scopes := ⟨#[.standard, ⟨some .standard, 1, #[], true⟩]⟩
    labels := ⟨#[⟨⟨0⟩, ⟨1⟩, some ⟨4⟩, some ⟨3⟩⟩]⟩
    interner := .new
    root := ⟨5⟩
    environs := #[] }
  oracle := ModeTable.oracle .new
  config := .default

/-- The jump of `leap` lands in the closed clause around it. -/
theorem leap_lands : ∃ rest m, Underway leap (fun _ => False) (.elaborate ⟨0⟩ :: rest) m ∧
    ∃ j before c after, rest = before ++ .labelled c :: after ∧
      Landing leap (fun _ => False) ⟨0⟩ (leap.program.labels.get ⟨0⟩) j m before c after := by
  obtain ⟨rest, m, hd, j, m', he⟩ : ∃ rest m,
      drive leap 4 [.unit leap.program.root] (Session.new leap none false).machine =
        .unfinished (.elaborate ⟨0⟩ :: rest) m ∧
      ∃ j m', (Task.elaborate ⟨0⟩).exec leap m = .error (.jump j) m' :=
    ⟨_, _, rfl, _, _, rfl⟩
  have hu : Underway leap (fun _ => False) (.elaborate ⟨0⟩ :: rest) m :=
    .runs (.run (.new none false)) (runs_of_unfinished hd)
  obtain ⟨node, id, before, c, after, hn, hk, -, hr, hl⟩ := (jumps_land hu).1 _ _ j m' rfl he
  cases hn
  cases hk
  exact ⟨rest, m, hu, j, before, c, after, hr, hl⟩

end Algol68
