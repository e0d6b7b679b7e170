import Algol68.Proofs.Frames.Run
import Algol68.Proofs.Machine.Holds
import Algol68.Proofs.Scope.Turns

/-! Routine values. The environ of a routine value, as long as it is active, leads to the frames that
the routine needs. This is so from where the value is elaborated, whatever frames are opened and closed
later, and with it every step keeps to the static scopes. -/

namespace Algol68

open Outline

variable {job : Job} {p : Program} {starts : NodeId → Prop} {K : NodeId → FrameHandle → Prop}
  {fs gs : List Frame} {next : Nat}

/-- A procedure that may be called: the value of a routine text whose environ, if it is still active,
leads to the frames that the body needs. -/
def Callable (p : Program) (starts : NodeId → Prop) (K : NodeId → FrameHandle → Prop)
    (fs : List Frame) (next : Nat) : Procedure → Prop
  | .standard _ => True
  | .routine text environ => environ.serial < next ∧ K text environ ∧
    ∃ s q params body, p.Stands starts s text ∧ p.tree.kind text = .routineText q params body ∧
      ∀ f, fs[environ.index]? = some f → f.serial = environ.serial →
        p.Encloses f.scope s ∧ Supports p fs environ.index s q body

/-- Frames some of which were there before: a frame that was opened before `next` is where it was, and
so are the frames below it. -/
def Outlast (next : Nat) (fs gs : List Frame) : Prop :=
  ∀ (i : Nat) (f : Frame), gs[i]? = some f → f.serial < next → SameBelow (i + 1) fs gs

namespace Outlast

theorem take (next n : Nat) (fs : List Frame) : Outlast next fs (fs.take n) := by
  intro i f hf _ k hk
  have hi : i < n := by
    have := (List.getElem?_eq_some_iff.mp hf).1
    rw [List.length_take] at this
    omega
  rw [List.getElem?_take_of_lt (by omega)]

theorem of_keys (next : Nat) (h : gs.map Frame.key = fs.map Frame.key) : Outlast next fs gs := by
  intro i f _ _ k _
  rw [← List.getElem?_map, ← List.getElem?_map, h]

theorem push (fs : List Frame) {f : Frame} (hf : next ≤ f.serial) : Outlast next fs (fs ++ [f]) := by
  intro i g hg hs
  rw [List.getElem?_append] at hg
  split at hg
  · next hi => exact fun k hk => SameBelow.append fs [f] k (by omega)
  · have := List.mem_singleton.mp (List.mem_of_getElem? hg)
    subst this
    omega

theorem trans {hs : List Frame} {next' : Nat} (hn : next ≤ next') (h : Outlast next fs gs)
    (h' : Outlast next' gs hs) : Outlast next fs hs := by
  intro i f hf hlt k hk
  have same := h' i f hf (Nat.lt_of_lt_of_le hlt hn)
  obtain ⟨g, hg, hkey⟩ := same.symm.exists_key (Nat.lt_succ_self i) hf
  simp only [Frame.key, Prod.mk.injEq] at hkey
  have := h i g hg (by rw [hkey.2.2]; exact hlt)
  rw [this k hk, same k hk]

theorem refl (next : Nat) (fs : List Frame) : Outlast next fs fs := fun _ _ _ _ _ _ => rfl

end Outlast

/-- A procedure may still be called when frames were opened and closed. -/
theorem Callable.outlast {K' : NodeId → FrameHandle → Prop} {next' : Nat} {r : Procedure}
    (h : Callable p starts K fs next r) (hn : Nested p fs) (hle : next ≤ next')
    (hK : ∀ text environ, K text environ → K' text environ) (ho : Outlast next fs gs) :
    Callable p starts K' gs next' r := by
  cases r with
  | standard _ => trivial
  | routine text environ =>
    obtain ⟨hlt, hknown, s, q, params, body, hstands, hk, henv⟩ := h
    refine ⟨Nat.lt_of_lt_of_le hlt hle, hK _ _ hknown, s, q, params, body, hstands, hk, ?_⟩
    intro g hg hserial
    have same := ho environ.index g hg (by rw [hserial]; exact hlt)
    obtain ⟨f, hf, hkey⟩ := same.symm.exists_key (Nat.lt_succ_self _) hg
    simp only [Frame.key, Prod.mk.injEq] at hkey
    obtain ⟨he, hsup⟩ := henv f hf (by rw [hkey.2.2]; exact hserial)
    refine ⟨by rw [← hkey.1]; exact he, fun d hd => ?_⟩
    exact same.reaches hn (Nat.lt_succ_self _) (hsup d hd)

variable {m m' : Machine} {A : Agenda} {t : Task} {rest : Agenda}

/-- A procedure that may be called in a machine. -/
abbrev Machine.Callable (job : Job) (starts : NodeId → Prop) (K : NodeId → FrameHandle → Prop)
    (m : Machine) : Procedure → Prop :=
  Algol68.Callable job.program starts K m.frames.hollow m.frames.nextSerial

/-- A state that keeps to the static scopes: its frames are nested as the ranges are, its tasks find
the frames they need, and its routine values can be called. -/
structure Scoped (job : Job) (starts : NodeId → Prop) (K : NodeId → FrameHandle → Prop)
    (A : Agenda) (m : Machine) : Prop where
  consistent : Consistent job A m
  nested : Nested job.program m.frames.hollow
  placed : Along (Placed job.program starts K) m.outline A
  values : m.Holds (m.Callable job starts K)
  work : A.Holds (m.Callable job starts K)

namespace Scoped

/-- What a procedure that is called finds. -/
theorem callee {v : Value} (hv : v.Within (m.Callable job starts K))
    {text : NodeId} {environ : FrameHandle} (hp : v = .procedure (.routine text environ))
    (hl : m.frames.isLive environ) : ∃ s q params body f, job.program.Stands starts s text ∧
      job.program.tree.kind text = .routineText q params body ∧
      m.frames.hollow[environ.index]? = some f ∧ K text ⟨environ.index, f.serial⟩ ∧
      job.program.Encloses f.scope s ∧
      Supports job.program m.frames.hollow environ.index s q body := by
  subst hp
  obtain ⟨-, hK, s, q, params, body, hstands, hk, henv⟩ := Value.within_procedure.mp hv
  simp only [FrameStack.isLive] at hl
  split at hl
  · next x hx =>
    have hf : m.frames.hollow[environ.index]? = some x.hollow := by
      simp [FrameStack.hollow_getElem?, hx]
    have hserial : x.hollow.serial = environ.serial := by simpa [Frame.hollow] using hl
    obtain ⟨he, hs⟩ := henv _ hf hserial
    exact ⟨s, q, params, body, _, hstands, hk, hf, by rw [hserial]; exact hK, he, hs⟩
  · cases hl

/-- A task finds what it needs and leaves work that does. -/
theorem exec_suits (hw : job.program.WellScoped starts) (hj : job.program.JumpsOutward starts)
    (h : Scoped job starts K (t :: rest) m) : Exec.Suits job starts K (t.exec job) m := by
  have hs := h.consistent.sound
  have hn := h.nested
  have ht := h.consistent.truthful
  have hp := h.placed.1
  have ha := h.consistent.along.1
  have hsame (S : Array Value) : Machine.outline { m with stack := S } = m.outline := rfl
  by_cases hv : t.onValues
  · exact (Exec.values_quiet hv).suits hn (Exec.exec_places hv hp)
  cases t with
  | unit n =>
    obtain ⟨s, hs'⟩ := hp
    simp only [Exec.Suits, Task.exec, Exec.unit, Exec.wp_bind, Exec.wp_count, Exec.wp_get]
    split
    · exact ⟨hn, hs'.found, trivial, trivial⟩
    · next source hsource =>
      refine ⟨hn, ?_, trivial, trivial⟩
      split
      · exact hs'.found
      · next hne =>
        rcases ht.strategy n _ hsource with heq | ⟨-, hr⟩
        · exact absurd heq hne
        · exact hs'.reduced hw hj hr
    · next kind source hkind hsource =>
      rcases ht.strategy n _ hsource with heq | ⟨heq, -⟩
      · refine ⟨hn, ?_, trivial, trivial⟩
        rw [show source = n from heq]
        exact hs'.found
      · exact absurd heq fun he => by simp_all
  | elaborate n =>
    obtain ⟨s, hs'⟩ := hp
    exact Exec.elaborate_suits hw hj hs hn ht hs'
  | settle n => exact ⟨hn, trivial⟩
  | leave depth =>
    refine ⟨?_, trivial⟩
    simp only [FrameStack.hollow_truncate]
    exact hn.take depth
  | clause n enquiry =>
    obtain ⟨s, hs'⟩ := hp
    exact Exec.clause_suits hs hn ht ha hs' enquiry
  | labelled c =>
    refine ⟨?_, trivial⟩
    have : (m.frames.modify c.frame Frame.vacate).hollow =
        m.frames.hollow.modify c.frame Frame.vacate :=
      FrameStack.hollow_modify _ _ Frame.hollow_vacate
    change Nested job.program (m.frames.modify c.frame Frame.vacate).hollow
    rw [this]
    exact hn.modify _ fun _ => ⟨rfl, rfl⟩
  | conform units outPart mode => exact Exec.conform_suits hs hn hw hp.1 hp.2 mode
  | store slot v =>
    obtain ⟨s, sees⟩ := hp
    exact Exec.suits_nothing hn (fun _ _ h => h) (Exec.wp_store_of_sees sees hn hs v fun _ hm => hm)
  | bind slot =>
    obtain ⟨s, sees⟩ := hp
    simp only [Exec.Suits, Task.exec, Exec.wp_bind, Exec.wp_pop]
    refine ⟨fun S v _ => ?_, fun _ => rfl⟩
    exact Exec.wp_store_of_sees (m := { m with stack := S }) sees hn hs v fun _ hm =>
      ⟨hm.nested hn, trivial⟩
  | declare slot init =>
    obtain ⟨⟨s, sees⟩, hinit⟩ := hp
    simp only [Exec.Suits, Task.exec, Exec.declare, Exec.wp_bind, Exec.wp_pop, Exec.wp_lift]
    refine ⟨fun S v _ => ⟨fun name _ => ?_, fun f hf => ?_⟩, fun _ => rfl⟩
    · refine Exec.wp_store_of_sees (m := { m with stack := S }) sees hn hs v fun m' hm => ?_
      split
      · refine ⟨hm.nested hn, ?_⟩
        rw [hm.outline, hsame]
        exact ⟨hinit _ rfl, trivial, trivial⟩
      · exact ⟨hm.nested hn, trivial⟩
    · exact Cause.ofLocal_of_ordinary (v.asName_ordinary.cause hf)
  | enterLoop i =>
    obtain ⟨outer, hproper, hl⟩ := hp
    exact Exec.enterLoop_suits hs hn hproper hl
  | enterBody i =>
    obtain ⟨⟨outer, hproper⟩, hl, hr⟩ := hp
    exact Exec.enterBody_suits hs hn hproper hl hr
  | iterate i => exact Exec.iterate_suits hs hn hp
  | afterWhile i =>
    simp only [Exec.Suits, Task.exec, Exec.afterWhile, Exec.popBool, Exec.wp_bind, Exec.wp_pop,
      Exec.wp_lift, Exec.wp_pure]
    refine ⟨fun S v _ => ⟨fun b _ => ⟨hn, ?_⟩, fun f hf => ?_⟩, fun _ => rfl⟩
    · rw [hsame]
      split
      · exact along_of_passive (Exec.iteration_passive i) (Exec.iteration_placed hp)
      · trivial
    · exact Cause.ofLocal_of_ordinary (v.asBool_ordinary.cause hf)
  | afterUntil i =>
    simp only [Exec.Suits, Task.exec, Exec.afterUntil, Exec.popBool, Exec.wp_bind, Exec.wp_pop,
      Exec.wp_lift, Exec.wp_pure]
    refine ⟨fun S v _ => ⟨fun b _ => ⟨hn, ?_⟩, fun f hf => ?_⟩, fun _ => rfl⟩
    · rw [hsame]
      split
      · trivial
      · exact ⟨hp, trivial⟩
    · exact Cause.ofLocal_of_ordinary (v.asBool_ordinary.cause hf)
  | advance i =>
    simp only [Exec.Suits, Task.exec, Exec.advance, Exec.wp_ite, Exec.wp_pure]
    refine ⟨fun _ => ?_, fun _ => ⟨hn, hp, trivial⟩⟩
    split
    · exact ⟨hn, hp, trivial⟩
    · rfl
  | call routine count site =>
    simp only [Exec.Suits, Task.exec, Exec.wp_bind, Exec.wp_popMany]
    refine ⟨fun _ => rfl, fun _ => ?_⟩
    have hv := h.work _ (List.mem_cons_self ..) routine (by simp [Task.values])
    exact Exec.callValue_suits (m := { m with stack := m.stack.shrink _ }) hn
      (fun _ _ => callee hv) _ site
  | operate slot count site =>
    obtain ⟨s, -, sees⟩ := hp
    simp only [Exec.Suits, Task.exec, Exec.operate, Exec.wp_bind, Exec.wp_popMany, Exec.wp_load]
    refine ⟨fun _ => rfl, fun _ => ⟨fun v hload => ?_, fun f hf => ?_⟩⟩
    · have hv := h.values.load hload
      exact Exec.callValue_suits (m := { m with stack := m.stack.shrink _ }) hn
        (fun _ _ => callee hv) _ site
    · obtain ⟨v, hv⟩ := sees.load hn hs
      rw [show FrameStack.load _ slot = _ from hv] at hf
      cases hf
  | enterRoutine scope environ args body => exact Exec.enterRoutine_suits hn hw hp
  | endCall => exact ⟨hn, trivial⟩
  | print values => exact (Exec.print_quiet values).suits hn (Exec.print_places values)
  | coerce kind node operand baseline =>
    have hk : kind = .deprocedure := by simpa [Task.onValues] using hv
    subst hk
    simp only [Exec.Suits, Task.exec, Exec.coerce, Exec.wp_bind, Exec.wp_pop]
    refine ⟨fun S v hS => ?_, fun _ => rfl⟩
    have hv := (h.values.pop hS).1
    exact Exec.callValue_suits (m := { m with stack := S }) hn (fun _ _ => callee hv) [] node
  | _ => simp [Task.onValues] at hv

end Scoped

/-- A task leaves the activations that are still there where they were. -/
theorem Task.Turns.outlast (h : t.Turns m m') :
    Outlast m.frames.nextSerial m.frames.hollow m'.frames.hollow := by
  have stays (h : m.Stays m') : Outlast m.frames.nextSerial m.frames.hollow m'.frames.hollow :=
    .of_keys _ h.keys
  have opens {link : Nat} (h : m.Opens link m') :
      Outlast m.frames.nextSerial m.frames.hollow m'.frames.hollow := by
    obtain ⟨f, hf, -, hs, -⟩ := h
    rw [hf]
    exact .push _ (Nat.le_of_eq hs.symm)
  cases t with
  | elaborate | conform => exact h.elim stays opens
  | enterLoop | enterBody | enterRoutine => exact opens h
  | leave depth =>
    rw [show m'.frames = _ from h, FrameStack.hollow_truncate]
    exact .take _ _ _
  | _ => exact stays h

theorem Outlast.pass (next : Nat) (o : Outline) (t : Task) :
    Outlast next o.frames (o.pass t).frames := by
  cases t with
  | leave depth => exact .take _ _ _
  | labelled c => exact .of_keys next (List.map_key_modify fun _ => rfl)
  | _ => exact .refl _ _

theorem Outlast.passAll (next : Nat) (o : Outline) (A : Agenda) :
    Outlast next o.frames (o.passAll A).frames := by
  induction A generalizing o with
  | nil => exact .refl _ _
  | cons t A ih => exact .trans (Nat.le_refl _) (.pass next o t) (ih _)

theorem Nested.passAll {o : Outline} (h : Nested p o.frames) (A : Agenda) :
    Nested p (o.passAll A).frames := by
  induction A generalizing o with
  | nil => exact h
  | cons t A ih =>
    apply ih
    cases t with
    | leave depth => exact h.take depth
    | labelled c => exact h.modify _ fun _ => ⟨rfl, rfl⟩
    | _ => exact h

/-- A clause goes on with units that find the frames they need. -/
theorem LabelledClause.resume_placed {c : LabelledClause} {o : Outline} {target : Option NodeId}
    {work : Agenda} (h : c.resume job target = .ok work)
    (hc : o.Placed job.program starts K (.labelled c)) {B : Agenda}
    (hB : Along (Placed job.program starts K) o (.labelled c :: B)) :
    Along (Placed job.program starts K) o (work ++ B) := by
  obtain ⟨unit, -, -, rfl⟩ := LabelledClause.resume_eq_ok h
  rw [List.append_assoc]
  refine along_append_of_passive (passive_chain _ _) (placedAll_chain fun u hu => ?_) hB
  exact Finds.walk hc _ u hu

theorem LabelledClause.resume_values {c : LabelledClause} {target : Option NodeId} {work : Agenda}
    (h : c.resume job target = .ok work) : ∀ u ∈ work, u.values = [] :=
  c.forall_resume (P := fun t => t.values = []) h (fun _ => rfl) rfl rfl

theorem Outline.Placed.mono {K' : NodeId → FrameHandle → Prop} {o : Outline}
    (hK : ∀ text environ, K text environ → K' text environ) (h : o.Placed p starts K t) :
    o.Placed p starts K' t := by
  cases t with
  | enterRoutine scope environ args body =>
    obtain ⟨s, r, k, f, hstands, hk, hcalls, hf, hknown, h⟩ := h
    exact ⟨s, r, k, f, hstands, hk, hcalls, hf, hK _ _ hknown, h⟩
  | _ => exact h

theorem Outline.Along.mono {P Q : Outline → Task → Prop} (hPQ : ∀ o t, P o t → Q o t)
    {o : Outline} {A : Agenda} (h : Along P o A) : Along Q o A := by
  induction A generalizing o with
  | nil => trivial
  | cons t A ih => exact ⟨hPQ o t h.1, ih h.2⟩

namespace Scoped

variable {K' : NodeId → FrameHandle → Prop}

/-- What holds of procedures when a task is about to be done still holds when a step was made. -/
theorem callable (h : Scoped job starts K A m) (hn : m.frames.nextSerial ≤ m'.frames.nextSerial)
    (ho : Outlast m.frames.nextSerial m.frames.hollow m'.frames.hollow) (r : Procedure)
    (hr : m.Callable job starts K r) : m'.Callable job starts K r :=
  hr.outlast h.nested hn (fun _ _ h => h) ho

/-- The value of a routine text can be called. -/
theorem elaborated (hw : job.program.WellScoped starts) (hj : job.program.JumpsOutward starts)
    {n : NodeId} (h : Scoped job starts K (.elaborate n :: rest) m) {scope : ScopeId} {params : Nat}
    {body : NodeId} {environ : FrameHandle}
    (hk : job.program.tree.kind n = .routineText scope params body)
    (he : (do m.frames.handle (← m.frames.resolve (job.program.environLevel n))) = .ok environ)
    (hnew : K n environ) : m.Callable job starts K (.routine n environ) := by
  obtain ⟨s, hs⟩ := h.placed.1
  obtain ⟨k, f, hr, -, hf, hencloses, hsup⟩ := hs.environ hw hj hk h.nested
  have hhandle : m.frames.handle k = .ok ⟨k, f.serial⟩ := by
    rw [FrameStack.hollow_getElem?] at hf
    obtain ⟨x, hx, rfl⟩ := Option.map_eq_some_iff.mp hf
    simp [FrameStack.handle, hx, Frame.hollow]
  simp only [hr, Bind.bind, Except.bind, hhandle, Except.ok.injEq] at he
  subst he
  refine ⟨h.consistent.sound.given k f hf, hnew, s, scope, params, body, hs.stands, hk, ?_⟩
  intro g hg _
  cases hf.symm.trans hg
  exact ⟨hencloses, hsup⟩

/-- A task that completes keeps to the static scopes; the value of a routine text becomes known where
it is elaborated. -/
theorem exec (hw : job.program.WellScoped starts) (hj : job.program.JumpsOutward starts)
    (h : Scoped job starts K (t :: rest) m) {work : Agenda}
    (hK : ∀ text environ, K text environ → K' text environ)
    (hnew : ∀ n scope params body environ, t = .elaborate n →
      job.program.tree.kind n = .routineText scope params body →
      (do m.frames.handle (← m.frames.resolve (job.program.environLevel n))) = .ok environ →
      K' n environ)
    (he : t.exec job m = .ok work m') : Scoped job starts K' (work ++ rest) m' := by
  obtain ⟨hc, hp, hle⟩ := h.consistent.exec he
  obtain ⟨hn, hwork⟩ := Exec.wp_ok (h.exec_suits hw hj) he
  have hturns := Exec.wp_ok (Exec.exec_turns h.consistent.sound h.consistent.along.1) he
  -- what is known of procedures, as it was and as it is
  have grown : Scoped job starts K' (t :: rest) m := by
    have mono (r : Procedure) (hr : m.Callable job starts K r) : m.Callable job starts K' r :=
      hr.outlast h.nested (Nat.le_refl _) hK (.refl _ _)
    exact ⟨h.consistent, h.nested, h.placed.mono fun _ _ h => h.mono hK, h.values.mono mono,
      fun u hu v hv => (h.work u hu v hv).mono mono⟩
  have still := grown.callable hle hturns.outlast
  have holds := Exec.wp_ok (Exec.exec_holds (R := m.Callable job starts K') (fun _ => trivial)
    grown.values (grown.work t (List.mem_cons_self ..)) fun n scope params body environ ht hk hr => by
      subst ht
      exact grown.elaborated hw hj hk hr (hnew n scope params body environ rfl hk hr)) he
  refine ⟨hc, hn, Outline.along_append.mpr ⟨hwork.mono fun _ _ h => h.mono hK, ?_⟩,
    holds.1.mono still, fun u hu v hv => ?_⟩
  · rw [hp]
    exact grown.placed.2
  · rcases List.mem_append.mp hu with hu | hu
    · exact (holds.2 u hu v hv).mono still
    · exact (grown.work u (List.mem_cons_of_mem _ hu) v hv).mono still

/-- A task that ends in a signal makes no values that cannot be called, and the signal is blameless. -/
theorem of_error (hw : job.program.WellScoped starts) (hj : job.program.JumpsOutward starts)
    (h : Scoped job starts K (t :: rest) m) {s : Signal} (he : t.exec job m = .error s m') :
    Scoped job starts K rest m' ∧ m'.outline = m.outline ∧ s.Blameless := by
  obtain ⟨hc, ho⟩ := h.consistent.of_error he
  have hf : m'.frames.hollow = m.frames.hollow := congrArg Outline.frames ho.symm
  have still := h.consistent.still_of_error he
  have same : m'.Callable job starts K = m.Callable job starts K := by
    rw [Machine.Callable, Machine.Callable, hf, still.nextSerial]
  refine ⟨⟨hc, by rw [hf]; exact h.nested, ?_, ?_, fun u hu v hv => ?_⟩, ho.symm,
    Exec.wp_error (h.exec_suits hw hj) he⟩
  · rw [← ho, ← Consistent.pass_of_error he]
    exact h.placed.2
  · rw [same]
    by_cases hr : ∃ n scope params body, t = .elaborate n ∧
        job.program.tree.kind n = .routineText scope params body
    · -- a routine text that fails to be elaborated makes no value
      obtain ⟨n, scope, params, body, rfl, hk⟩ := hr
      have failed : Exec.wp ((Task.elaborate n).exec job) (fun _ _ => True)
          (fun _ m' => m'.Holds (m.Callable job starts K)) m := by
        simp only [Task.exec, Exec.elaborate, hk, Exec.wp_bind, Exec.wp_depth, Exec.wp_get,
          Exec.wp_lift, Exec.wp_push]
        exact ⟨fun _ _ => ⟨fun _ => h.values, fun _ => trivial⟩, fun _ _ => h.values⟩
      exact Exec.wp_error failed he
    · refine Exec.wp_error (Exec.exec_holds (fun _ => trivial) h.values
        (h.work t (List.mem_cons_self ..)) fun n scope params body _ ht hk _ => ?_) he
      exact absurd ⟨n, scope, params, body, ht, hk⟩ hr
  · rw [same]
    exact h.work u (List.mem_cons_of_mem _ hu) v hv

/-- Where a jump is taken, the clause goes on with units that find the frames they need. -/
theorem resumed {before after work : Agenda} {c : LabelledClause} {j : Jump}
    {target : Option NodeId} (h : Scoped job starts K (before ++ .labelled c :: after) m)
    (hw : c.resume job target = .ok work) :
    Scoped job starts K (work ++ after) (c.caught j (m.undo before)) := by
  have ho := h.consistent.caught (j := j)
  have hf : (c.caught j (m.undo before)).frames.hollow = (m.outline.passAll before).frames :=
    congrArg Outline.frames ho
  have along := Outline.along_append.mp h.placed
  have holds := (h.values.undo before).caught c j
  have hserial : (c.caught j (m.undo before)).frames.nextSerial = m.frames.nextSerial := by
    simp [LabelledClause.caught]
  have outlast : Outlast m.frames.nextSerial m.frames.hollow
      (c.caught j (m.undo before)).frames.hollow := by
    rw [hf]
    exact .passAll _ m.outline before
  have still := h.callable (Nat.le_of_eq hserial.symm) outlast
  refine ⟨(h.consistent.resume hw).1, ?_, ?_, holds.mono still, fun u hu v hv => ?_⟩
  · rw [hf]
    exact Nested.passAll (o := m.outline) h.nested before
  · rw [ho]
    exact LabelledClause.resume_placed hw along.2.1 along.2
  · rcases List.mem_append.mp hu with hu | hu
    · rw [LabelledClause.resume_values hw u hu] at hv
      cases hv
    · exact (h.work u (by simp [hu]) v hv).mono still

end Scoped

end Algol68
