import Algol68.Proofs.Machine.Quiet
import Algol68.Proofs.Print.Leaves
import Algol68.Proofs.Run.Session

/-! What a session prints. A run prints by calls of the standard procedures; in between, nothing is printed.
So the text a session printed is that of the leaves of its calls, in whatever actions they were made. -/

namespace Algol68

open Agenda

variable {job : Job} {modes : ModeTable} {store : Store} {m m' : Machine} {A B : Agenda} {t : Task}
  {vs ws : List Value} {L M : List Leaf} {f : Option Fault} {units : NodeId → Prop}

/-- A call of a standard procedure. -/
structure PrintCall where
  procedure : StandardProcedure
  arguments : List Value
  /-- The store at the time of the call. -/
  store : Store

/-- The leaves that a call prints, up to the first part that cannot be printed. -/
inductive PrintCall.Tells (modes : ModeTable) : PrintCall → List Leaf → Prop where
  | print {vs : List Value} {store : Store} {L : List Leaf} {f : Option Fault}
      (content : Content modes store vs L f) : Tells modes ⟨.print, vs, store⟩ L
  | newline {vs : List Value} {store : Store} : Tells modes ⟨.newline, vs, store⟩ [.newline]

theorem PrintCall.Tells.unique {c : PrintCall} (h : c.Tells modes L) (h' : c.Tells modes M) : L = M := by
  cases h with
  | print content =>
    cases h' with
    | print content' => exact (content.unique content').1
  | newline =>
    cases h'
    rfl

/-- The leaves of some calls, one call after the other. -/
inductive PrintCall.Tale (modes : ModeTable) : List PrintCall → List Leaf → Prop where
  | nil : Tale modes [] []
  | cons {c : PrintCall} {C : List PrintCall} {L M : List Leaf} (first : c.Tells modes L)
      (others : Tale modes C M) : Tale modes (c :: C) (L ++ M)

namespace PrintCall.Tale

variable {C D : List PrintCall}

theorem append (h : Tale modes C L) (h' : Tale modes D M) : Tale modes (C ++ D) (L ++ M) := by
  induction h with
  | nil => exact h'
  | cons first _ ih =>
    rw [List.append_assoc]
    exact .cons first ih

theorem unique (h : Tale modes C L) (h' : Tale modes C M) : L = M := by
  induction h generalizing M with
  | nil =>
    cases h'
    rfl
  | cons first _ ih =>
    cases h' with
    | cons first' others' => rw [first.unique first', ih others']

end PrintCall.Tale

/-! The calls of a run. -/

/-- The call of a value as one of a standard procedure, if it is that. -/
def Value.standardCall? (arguments : List Value) (store : Store) : Value → Option PrintCall
  | .procedure (.standard p) => some ⟨p, arguments, store⟩
  | _ => none

/-- The top `n` values of the stack, in the order they were pushed. -/
def Machine.top? (m : Machine) (n : Nat) : Option (List Value) :=
  if n ≤ m.stack.size then some (m.stack.toList.drop (m.stack.size - n)) else none

/-- The call of a standard procedure that a task makes, if it makes one. -/
def Task.standardCall? (m : Machine) : Task → Option PrintCall
  | .call callee count _ => (m.top? count).bind fun args => callee.standardCall? args m.store
  | .operate slot count _ => (m.top? count).bind fun args =>
    match m.frames.load slot with
    | .ok callee => callee.standardCall? args m.store
    | .error _ => none
  | .coerce .deprocedure .. => m.stack.back?.bind fun callee => callee.standardCall? [] m.store
  | _ => none

/-- The calls of standard procedures that a run makes, one after the other. -/
def calls (job : Job) : (steps : Nat) → Agenda → Machine → List PrintCall
  | _, [], _ | 0, _, _ => []
  | steps + 1, task :: rest, m => (task.standardCall? m).toList ++
    match task.exec job m with
    | .ok work m => calls job steps (work ++ rest) m
    | .error s m =>
      match unwind job s rest m with
      | .resumed agenda m => calls job steps agenda m
      | .escaped .. => []

theorem Value.standardCall?_eq_some {args : List Value} {v : Value} {c : PrintCall}
    (h : v.standardCall? args store = some c) :
    v = .procedure (.standard c.procedure) ∧ c.arguments = args ∧ c.store = store := by
  unfold standardCall? at h
  split at h
  · cases h
    exact ⟨rfl, rfl, rfl⟩
  · cases h

theorem Value.not_standard {args : List Value} {v : Value} (h : v.standardCall? args store = none)
    (p : StandardProcedure) : v ≠ .procedure (.standard p) := by
  rintro rfl
  cases h

theorem Task.eq_print (h : t.printing? = some vs) : t = .print vs := by
  cases t with
  | print => exact congrArg Task.print (Option.some.inj h)
  | _ => cases h

namespace Exec

theorem popMany_of_top? {n : Nat} {args : List Value} (h : m.top? n = some args) :
    popMany n m = .ok args { m with stack := m.stack.shrink (m.stack.size - n) } := by
  unfold Machine.top? at h
  split at h
  · next room =>
    cases h
    refine eq_ok_of_wp ?_
    rw [wp_popMany]
    exact ⟨fun less => absurd room (by omega), fun _ => ⟨rfl, rfl⟩⟩
  · cases h

/-- A task that calls a standard procedure does nothing else but take the arguments from the stack. -/
theorem exec_standardCall {c : PrintCall} (h : t.standardCall? m = some c) :
    c.store = m.store ∧ ∃ S : Array Value,
      t.exec job m = callStandard c.arguments c.procedure { m with stack := S } := by
  unfold Task.standardCall? at h
  split at h
  · next callee count site =>
    obtain ⟨args, top, h⟩ := Option.bind_eq_some_iff.mp h
    obtain ⟨rfl, rfl, hs⟩ := Value.standardCall?_eq_some h
    refine ⟨hs, m.stack.shrink (m.stack.size - count), ?_⟩
    simp only [Task.exec, bind, EStateM.bind, popMany_of_top? top]
    rfl
  · next slot count site =>
    obtain ⟨args, top, h⟩ := Option.bind_eq_some_iff.mp h
    split at h
    · next callee loaded =>
      obtain ⟨rfl, rfl, hs⟩ := Value.standardCall?_eq_some h
      have loads : load slot { m with stack := m.stack.shrink (m.stack.size - count) } =
          lift (m.frames.load slot) { m with stack := m.stack.shrink (m.stack.size - count) } := rfl
      refine ⟨hs, m.stack.shrink (m.stack.size - count), ?_⟩
      simp only [Task.exec, operate, bind, EStateM.bind, popMany_of_top? top, loads, loaded]
      rfl
    · cases h
  · next node operand baseline =>
    obtain ⟨callee, top, h⟩ := Option.bind_eq_some_iff.mp h
    obtain ⟨rfl, hargs, hs⟩ := Value.standardCall?_eq_some h
    obtain ⟨S, top⟩ := Array.back?_eq_some_iff.mp top
    refine ⟨hs, S, ?_⟩
    simp only [Task.exec, coerce, bind, EStateM.bind, pop_eq top, hargs]
    rfl
  · cases h

/-- A task that neither prints nor calls a standard procedure leaves the transput alone. -/
theorem exec_silent (hp : t.printing? = none) (hc : t.standardCall? m = none) :
    wp (t.exec job) (fun work m' => work.Mute ∧ m'.transput = m.transput)
      (fun _ m' => m'.transput = m.transput) m := by
  have of_hushes {x : Exec Agenda} (hx : Hushes job x) (m : Machine) :
      wp x (fun work m' => work.Mute ∧ m'.transput = m.transput)
        (fun _ m' => m'.transput = m.transput) m :=
    wp_mono (hx m) (fun _ _ h => ⟨h.1, h.2.transput⟩) fun _ _ h => h.transput
  by_cases calls : t.calls = false
  · exact of_hushes (exec_hushes hp calls) m
  cases t with
  | call callee count site =>
    change wp (do callValue job callee (← popMany count) site) _ _ m
    rw [wp_bind, wp_popMany]
    refine ⟨fun _ => rfl, fun room => ?_⟩
    simp only [Task.standardCall?, Machine.top?, if_pos room, Option.bind_some] at hc
    exact of_hushes (callValue_hushes (Value.not_standard hc) _ _) _
  | operate slot count site =>
    change wp (Exec.operate job slot count site) _ _ m
    rw [Exec.operate, wp_bind, wp_popMany]
    refine ⟨fun _ => rfl, fun room => ?_⟩
    rw [wp_bind, wp_load]
    refine ⟨fun callee loaded => ?_, fun _ _ => rfl⟩
    have loaded : m.frames.load slot = .ok callee := loaded
    simp only [Task.standardCall?, Machine.top?, if_pos room, loaded, Option.bind_some] at hc
    exact of_hushes (callValue_hushes (Value.not_standard hc) _ _) _
  | coerce kind node operand baseline =>
    cases kind with
    | deprocedure =>
      change wp (do callValue job (← pop) [] node) _ _ m
      rw [wp_bind, wp_pop]
      refine ⟨fun S callee hS => ?_, fun _ => rfl⟩
      simp only [Task.standardCall?, hS, Array.back?_push, Option.bind_some] at hc
      exact of_hushes (callValue_hushes (Value.not_standard hc) _ _) _
    | _ => exact absurd rfl calls
  | _ => exact absurd rfl calls

/-- A task that ends in a signal printed nothing, and called no standard procedure. If it is one that prints,
the next value cannot be printed. -/
theorem exec_error {s : Signal} (he : t.exec job m = .error s m') :
    m'.transput = m.transput ∧ t.standardCall? m = none ∧ (t.printing? = none ∨ ∃ v vs g,
      t = .print (v :: vs) ∧ v.look job.program.modes m.store = .unprintable g ∧ s = .fault g) := by
  cases hc : t.standardCall? m with
  | some c =>
    obtain ⟨-, S, calls⟩ := @exec_standardCall job m t c hc
    rw [calls] at he
    cases hp : c.procedure <;> rw [hp] at he <;> cases he
  | none =>
    cases hp : t.printing? with
    | none => exact ⟨wp_error (exec_silent hp hc) he, rfl, .inl rfl⟩
    | some vs =>
      obtain rfl := Task.eq_print hp
      cases vs with
      | nil => cases he
      | cons v vs =>
        replace he : print job (v :: vs) m = .error s m' := he
        rw [print_cons] at he
        split at he
        · cases he
        · cases he
        · next g look =>
          cases he
          exact ⟨rfl, rfl, .inr ⟨v, vs, g, rfl, look, rfl⟩⟩

end Exec

/-! Signals print nothing. -/

@[simp] theorem Machine.undo_transput (m : Machine) (A : Agenda) :
    (m.undo A).transput = m.transput := by
  induction A generalizing m with
  | nil => rfl
  | cons t A ih =>
    rw [Machine.undo_cons, ih]
    cases t <;> rfl

theorem unwind_escaped_transput {s s' : Signal} (h : unwind job s A m = .escaped s' m') :
    m'.transput = m.transput := by
  rcases unwind_escaped h with rfl | ⟨j, before, c, after, -, -, -, -, rfl⟩
  · exact m.undo_transput A
  · rw [Machine.undo_transput]
    exact m.undo_transput before

theorem unwind_resumed_mute {s : Signal} (hA : A.Mute) (h : unwind job s A m = .resumed B m') :
    B.Mute ∧ m'.transput = m.transput := by
  obtain ⟨j, before, c, after, work, -, rfl, -, -, resumed, rfl, rfl⟩ := unwind_resumed h
  simp only [mute_append, mute_cons] at hA
  have work_mute : work.Mute :=
    c.forall_resume (P := fun t => t.printing? = none) resumed (fun _ => rfl) rfl rfl
  exact ⟨mute_append.mpr ⟨work_mute, hA.2.2⟩, m.undo_transput before⟩

/-! What a run says. No print call is on the agenda but the one that is at work, at its front. -/

theorem Agenda.Mute.tail (h : A.Mute) : Mute A.tail := fun t ht => h t (List.mem_of_mem_tail ht)

/-- The leaves that are left to print. -/
inductive Agenda.Left (modes : ModeTable) (store : Store) : Agenda → List Leaf → Prop where
  | mute {A : Agenda} (h : A.Mute) : Left modes store A []
  | amid {vs : List Value} {A : Agenda} {L : List Leaf} {f : Option Fault}
      (content : Content modes store vs L f) : Left modes store (.print vs :: A) L

theorem Agenda.Left.of_mute (hA : A.Mute) (h : A.Left modes store L) : L = [] := by
  cases h with
  | mute => rfl
  | amid => cases hA _ (List.mem_cons_self ..)

theorem Agenda.Left.of_print (h : Agenda.Left modes store (.print vs :: A) L) :
    ∃ f, Content modes store vs L f := by
  cases h with
  | mute mute => cases mute _ (List.mem_cons_self ..)
  | amid content => exact ⟨_, content⟩

/-- What a step says. Whatever is left to print after it, the step printed what comes before that. -/
structure Says (job : Job) (t : Task) (rest : Agenda) (m : Machine) (A : Agenda) (m' : Machine) :
    Prop where
  mute : Agenda.Mute A.tail
  told : ∀ M, A.Left job.program.modes m'.store M → ∃ L N said,
    Agenda.Left job.program.modes m.store (t :: rest) L ∧
    PrintCall.Tale job.program.modes (t.standardCall? m).toList N ∧
    L ++ N = said ++ M ∧ m'.transput = m.transput.sayAll said

namespace Says

variable {work rest : Agenda} {n : Machine}

theorem print (hA : rest.Mute) (he : Exec.print job vs m = .ok work m') :
    Says job (.print vs) rest m (work ++ rest) m' := by
  cases vs with
  | nil =>
    cases he
    refine ⟨hA.tail, fun M left => ?_⟩
    obtain rfl := left.of_mute hA
    exact ⟨[], [], [], .amid .nil, .nil, rfl, rfl⟩
  | cons v vs =>
    rw [Exec.print_cons] at he
    split at he
    · next l look =>
      cases he
      refine ⟨hA, fun M left => ?_⟩
      obtain ⟨f, content⟩ := left.of_print
      exact ⟨l :: M, [], [l], .amid (.leaf look content), .nil, List.append_nil _, rfl⟩
    · next parts look =>
      cases he
      refine ⟨hA, fun M left => ?_⟩
      obtain ⟨f, content⟩ := left.of_print
      exact ⟨M, [], [], .amid (.opened look content), .nil, List.append_nil _, rfl⟩
    · cases he

theorem call {c : PrintCall} (hA : rest.Mute) (hc : t.standardCall? m = some c)
    (he : t.exec job m = .ok work m') : Says job t rest m (work ++ rest) m' := by
  obtain ⟨hs, S, calls⟩ := @Exec.exec_standardCall job m t c hc
  obtain ⟨p, args, store⟩ := c
  obtain rfl : store = m.store := hs
  have mute : t.printing? = none := by
    cases t with
    | print => cases hc
    | _ => rfl
  have told {M : List Leaf} (h : PrintCall.Tells job.program.modes ⟨p, args, m.store⟩ M) :
      PrintCall.Tale job.program.modes (t.standardCall? m).toList M := by
    rw [hc, ← List.append_nil M]
    exact .cons h .nil
  have here : Agenda.Left job.program.modes m.store (t :: rest) [] := .mute (by simp [mute, hA])
  rw [calls] at he
  cases p with
  | print =>
    cases he
    refine ⟨hA, fun M left => ?_⟩
    obtain ⟨f, content⟩ := left.of_print
    exact ⟨[], M, [], here, told (.print content), rfl, rfl⟩
  | newline =>
    cases he
    refine ⟨hA.tail, fun M left => ?_⟩
    obtain rfl := left.of_mute hA
    exact ⟨[], [.newline], [.newline], here, told .newline, rfl, rfl⟩

theorem quiet (ht : t.printing? = none) (hA : rest.Mute) (hc : t.standardCall? m = none) (hB : B.Mute)
    (same : m'.transput = m.transput) : Says job t rest m B m' := by
  refine ⟨hB.tail, fun M left => ?_⟩
  obtain rfl := left.of_mute hB
  exact ⟨[], [], [], .mute (by simp [ht, hA]), hc ▸ .nil, rfl, same⟩

end Says

/-- What was printed from a state up to a machine: the leaves that were left to print there, and then those of
some calls. -/
def Prints (job : Job) (A : Agenda) (m : Machine) (C : List PrintCall) (m' : Machine) : Prop :=
  ∃ L M, A.Left job.program.modes m.store L ∧ PrintCall.Tale job.program.modes C M ∧
    m'.transput = m.transput.sayAll (L ++ M)

/-- What is printed from a state on is what the step there says and what is printed after it. -/
theorem Says.prints {rest : Agenda} {n : Machine} {C : List PrintCall} (h : Says job t rest m A n)
    (h' : Prints job A n C m') : Prints job (t :: rest) m ((t.standardCall? m).toList ++ C) m' := by
  obtain ⟨L', M', left', tale', same'⟩ := h'
  obtain ⟨L, N, said, left, tale, parts, same⟩ := h.told L' left'
  refine ⟨L, N ++ M', left, tale.append tale', ?_⟩
  rw [same', same, ← Transput.sayAll_append, ← List.append_assoc, ← List.append_assoc, parts]

theorem Does.tells {rest : Agenda} (hA : rest.Mute) (h : Does job (t :: rest, m) (A, m')) :
    Says job t rest m A m' := by
  cases h with
  | done he =>
    cases hp : t.printing? with
    | some vs =>
      obtain rfl := Task.eq_print hp
      exact .print hA he
    | none =>
      cases hc : t.standardCall? m with
      | some c => exact .call hA hc he
      | none =>
        obtain ⟨mute, same⟩ := Exec.wp_ok (Exec.exec_silent hp hc) he
        exact .quiet hp hA hc (mute_append.mpr ⟨mute, hA⟩) same
  | resumed he hu =>
    obtain ⟨same, hc, ht | ⟨v, vs, g, -, -, rfl⟩⟩ := Exec.exec_error he
    · obtain ⟨mute, same'⟩ := unwind_resumed_mute hA hu
      exact .quiet ht hA hc mute (same'.trans same)
    · obtain ⟨j, before, c, after, work, jump, -⟩ := unwind_resumed hu
      cases jump

/-- Whether a run halts between two calls. -/
inductive Halt.Rests : Halt → Machine → Prop where
  | completed (m : Machine) : Rests (.completed m) m
  | escaped (s : Signal) (m : Machine) : Rests (.escaped s m) m
  | unfinished {A : Agenda} {m : Machine} (h : A.Mute) : Rests (.unfinished A m) m

/-- Where a run halts between two calls, it printed what was left to print at its start, and its calls. -/
theorem drive_prints {steps : Nat} (hA : Agenda.Mute A.tail) (h : (drive job steps A m).Rests m') :
    Prints job A m (calls job steps A m) m' := by
  fun_induction drive job steps A m with
  | case1 steps m =>
    cases h
    exact ⟨[], [], .mute mute_nil, by cases steps <;> exact .nil, rfl⟩
  | case2 A m =>
    cases h with
    | unfinished hA => exact ⟨[], [], .mute hA, by cases A <;> exact .nil, rfl⟩
  | case3 steps t rest m work m₁ he ih =>
    have tells : Says job t rest m (work ++ rest) m₁ := Does.tells hA (.done he)
    simp only [calls, he]
    exact tells.prints (ih tells.mute h)
  | case4 steps t rest m s m₁ he agenda m₂ hu ih =>
    have tells : Says job t rest m agenda m₂ := Does.tells hA (.resumed he hu)
    simp only [calls, he, hu]
    exact tells.prints (ih tells.mute h)
  | case5 steps t rest m s m₁ he s' m₂ hu =>
    cases h
    obtain ⟨same, hc, ht⟩ := Exec.exec_error he
    have left : Agenda.Left job.program.modes m.store (t :: rest) [] := by
      rcases ht with ht | ⟨v, vs, g, rfl, look, -⟩
      · exact .mute (mute_cons.mpr ⟨ht, hA⟩)
      · exact .amid (.unprintable look)
    simp only [calls, he, hu, hc]
    exact ⟨[], [], left, .nil, (unwind_escaped_transput hu).trans same⟩

/-- A run of a unit prints its calls, one after the other. -/
theorem unit_prints {steps : Nat} {unit : NodeId} (h : (drive job steps [.unit unit] m).Rests m') :
    ∃ L, PrintCall.Tale job.program.modes (calls job steps [.unit unit] m) L ∧
      m'.transput = m.transput.sayAll L := by
  obtain ⟨L, M, left, tale, same⟩ := drive_prints (A := [.unit unit]) mute_nil h
  obtain rfl := left.of_mute (by simp [Task.printing?])
  exact ⟨M, tale, same⟩

/-! Sessions. -/

namespace Session

/-- A session that was asked for some actions, all of which came to an end, with the calls their runs made and
the text that was cleared on the way. -/
inductive Spoke (job : Job) : Session → List PrintCall → String → Prop where
  | new (source : Option String) (keepsText : Bool) : Spoke job (.new job source keepsText) [] ""
  | run {s : Session} {C : List PrintCall} {cleared : String} (h : Spoke job s C cleared) (steps : Nat)
      (he : (s.run steps).1.ended) :
      Spoke job (s.run steps).2 (C ++ calls job steps [.unit job.program.root] s.machine) cleared
  | resume {s : Session} {C : List PrintCall} {cleared : String} (h : Spoke job s C cleared)
      (steps : Nat) (unit : NodeId) (he : (s.resume steps unit).1.ended) :
      Spoke job (s.resume steps unit).2
        (C ++ calls job steps [.unit unit] s.atRest.machine) cleared
  | clear {s : Session} {C : List PrintCall} {cleared : String} (h : Spoke job s C cleared) :
      Spoke job s.clear C (cleared ++ s.machine.transput.text)

variable {s : Session} {C : List PrintCall} {cleared : String}

theorem Spoke.reached (h : Spoke job s C cleared) : Reached job (fun _ => True) s := by
  induction h with
  | new source keepsText => exact .new source keepsText
  | run _ steps he ih => exact .run ih steps he
  | resume _ steps unit he ih => exact .resume ih steps unit trivial he
  | clear _ ih => exact .clear ih

/-- Every session spoke in some way. -/
theorem Reached.spoke (h : Reached job units s) : ∃ C cleared, Spoke job s C cleared := by
  induction h with
  | new source keepsText => exact ⟨_, _, .new source keepsText⟩
  | run _ steps he ih =>
    obtain ⟨C, cleared, h⟩ := ih
    exact ⟨_, _, h.run steps he⟩
  | resume _ steps unit _ he ih =>
    obtain ⟨C, cleared, h⟩ := ih
    exact ⟨_, _, h.resume steps unit he⟩
  | clear _ ih =>
    obtain ⟨C, cleared, h⟩ := ih
    exact ⟨_, _, h.clear⟩

theorem conclude_transput {unit : NodeId} {h : Halt} (he : (s.conclude unit h).1.ended) :
    ∃ m, h.Rests m ∧ (s.conclude unit h).2.machine.transput = m.transput := by
  cases h with
  | completed m =>
    refine ⟨m, .completed m, ?_⟩
    have keeps := result_keeps (s.job.program.tree.mode unit) s.machine.stack.size m
    simp only [conclude]
    split
    · next hr =>
      obtain ⟨S, -, rfl⟩ := Exec.wp_ok keeps hr
      rfl
    · next hr =>
      obtain ⟨S, -, rfl⟩ := Exec.wp_error keeps hr
      rfl
  | escaped sig m => exact ⟨m, .escaped sig m, rfl⟩
  | unfinished A m => cases he

/-- An action that ended printed the calls of its run. -/
theorem runUnit_prints {steps : Nat} {unit : NodeId} (hj : s.job = job)
    (he : (s.runUnit steps unit).1.ended) :
    ∃ L, PrintCall.Tale job.program.modes (calls job steps [.unit unit] s.machine) L ∧
      (s.runUnit steps unit).2.machine.transput = s.machine.transput.sayAll L := by
  obtain ⟨m, rests, same⟩ := conclude_transput he
  rw [hj] at rests
  obtain ⟨L, tale, tells⟩ := unit_prints rests
  exact ⟨L, tale, same.trans tells⟩

/-- The text that a session printed, cleared or not, is that of the leaves of its calls. -/
theorem Spoke.told (h : Spoke job s C cleared) : ∃ L, PrintCall.Tale job.program.modes C L ∧
    Transput.Told s.machine.transput cleared (Leaf.layOut "" L) := by
  have goesOn {s : Session} {C D : List PrintCall} {cleared : String} {t : Transput}
      (ih : ∃ L, PrintCall.Tale job.program.modes C L ∧
        Transput.Told s.machine.transput cleared (Leaf.layOut "" L))
      (tells : ∃ M, PrintCall.Tale job.program.modes D M ∧ t = s.machine.transput.sayAll M) :
      ∃ L, PrintCall.Tale job.program.modes (C ++ D) L ∧ Transput.Told t cleared (Leaf.layOut "" L) := by
    obtain ⟨L, tale, told⟩ := ih
    obtain ⟨M, tale', rfl⟩ := tells
    refine ⟨L ++ M, tale.append tale', ?_⟩
    rw [Leaf.layOut_append]
    exact told.sayAll M
  induction h with
  | new source keepsText => exact ⟨[], .nil, .new keepsText⟩
  | run h steps he ih =>
    have hj := h.reached.job_eq
    subst hj
    exact goesOn ih (runUnit_prints rfl he)
  | resume h steps unit he ih =>
    exact goesOn ih (runUnit_prints (s := Session.atRest _) h.reached.job_eq he)
  | clear h ih =>
    obtain ⟨L, tale, told⟩ := ih
    exact ⟨L, tale, told.clear⟩

end Session

/-- The text that a session printed, with what was cleared of it on the way, is its leaves laid out one after
the other, and the calls of its runs have these leaves in one way only; so another session that prints the
same leaves in other calls, or cleared at other times, prints the same text. While a unit runs, this holds
wherever the run is between two calls. A call whose arguments have leaves prints all of these and comes to
its end; if one of the parts cannot be printed, it prints the leaves in front of it and fails. An aggregate
has the leaves that its parts have in its place. Wherever a leaf to be kept apart stands, there is nothing
in front of it, or a blank. -/
theorem printing_lays_out {s : Session} {C : List PrintCall} {cleared : String}
    (h : Session.Spoke job s C cleared) :
    (∃ L, PrintCall.Tale job.program.modes C L ∧ (∀ M, PrintCall.Tale job.program.modes C M → M = L) ∧
      Transput.Told s.machine.transput cleared (Leaf.layOut "" L) ∧
      ∀ {job' : Job} {s' : Session} {C' : List PrintCall} {cleared' : String},
        Session.Spoke job' s' C' cleared' → PrintCall.Tale job'.program.modes C' L →
        s.machine.transput.keeps → s'.machine.transput.keeps →
        cleared' ++ s'.machine.transput.text = cleared ++ s.machine.transput.text) ∧
    (∀ steps unit m, (drive job steps [.unit unit] s.machine).Rests m →
      ∃ L, PrintCall.Tale job.program.modes (C ++ calls job steps [.unit unit] s.machine) L ∧
        Transput.Told m.transput cleared (Leaf.layOut "" L)) ∧
    (∀ m vs L, Content job.program.modes m.store vs L none →
      Runs job ([.print vs], m) ([], m.saying L)) ∧
    (∀ m vs L g, Content job.program.modes m.store vs L (some g) →
      Escapes job ([.print vs], m) (.fault g) (m.saying L)) ∧
    (∀ store v parts vs L f, v.look job.program.modes store = .inside parts →
      (Content job.program.modes store (v :: vs) L f ↔
        Content job.program.modes store (parts ++ vs) L f)) ∧
    ∀ (l : Leaf) (T : String), l.separated → ∃ U : String, (U = T ∨ U = T ++ " ") ∧
      l.after T = U ++ l.text ∧ ∀ c, U.toList.getLast? = some c → Text.isBlank c := by
  obtain ⟨L, tale, told⟩ := h.told
  refine ⟨⟨L, tale, fun M tale' => tale'.unique tale, told, ?_⟩, ?_,
    fun _ _ _ content => content.prints, fun _ _ _ _ content => content.fails,
    fun _ _ _ _ _ _ look => ⟨fun content => content.of_inside look, .opened look⟩,
    fun l T hl => l.exists_before hl T⟩
  · intro job' s' C' cleared' h' tale' keeps keeps'
    obtain ⟨L', tale'', told'⟩ := h'.told
    obtain rfl := tale''.unique tale'
    rw [told'.kept keeps', told.kept keeps]
  · intro steps unit m rests
    obtain ⟨M, tale', tells⟩ := unit_prints rests
    refine ⟨L ++ M, tale.append tale', ?_⟩
    rw [Leaf.layOut_append, tells]
    exact told.sayAll M

/-- The program `print ((1, 2))`. -/
def tally : Job where
  program := {
    tree := {
      nodes := #[⟨.literal (.int 1), .int, .dummy⟩, ⟨.literal (.int 2), .int, .dummy⟩,
        ⟨.standard .print, .void, .dummy⟩, ⟨.call ⟨2⟩ ⟨0, 2⟩, .void, .dummy⟩]
      lists := #[⟨0⟩, ⟨1⟩]
      modeLists := #[]
      loops := #[]
      alternatives := #[] }
    modes := .new
    scopes := ⟨#[.standard]⟩
    labels := ⟨#[]⟩
    interner := .new
    root := ⟨3⟩
    environs := #[] }
  oracle := ModeTable.oracle .new
  config := .default

/-- The numbers of two runs of `tally` are kept apart, although the text of the first was cleared. -/
theorem tally_lays_out : ∃ s C, Session.Spoke tally s C "1 2" ∧ C.length = 2 ∧
    ∃ L, PrintCall.Tale tally.program.modes C L ∧ Leaf.layOut "" L = "1 2 1 2" := by
  obtain ⟨s, C, spoke, two, keeps, text⟩ : ∃ s C, Session.Spoke tally s C "1 2" ∧ C.length = 2 ∧
      s.machine.transput.keeps ∧ s.machine.transput.text = " 1 2" := by
    have ended : ((Session.new tally none true).run 20).1.ended := by decide +kernel
    have text : ((Session.new tally none true).run 20).2.machine.transput.text = "1 2" := by
      decide +kernel
    have ended' : (((Session.new tally none true).run 20).2.clear.run 20).1.ended := by decide +kernel
    have spoke := (((Session.Spoke.new none true).run 20 ended).clear).run 20 ended'
    rw [text] at spoke
    exact ⟨_, _, spoke, by decide +kernel, by decide +kernel, by decide +kernel⟩
  obtain ⟨⟨L, tale, -, told, -⟩, -⟩ := printing_lays_out spoke
  refine ⟨s, C, spoke, two, L, tale, ?_⟩
  rw [← told.kept keeps, text]
  decide +kernel

end Algol68
