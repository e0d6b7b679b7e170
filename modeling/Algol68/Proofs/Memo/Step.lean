import Algol68.Proofs.Annotation.WriteOnce
import Algol68.Proofs.Label.Harbour
import Algol68.Proofs.Memo.Mirror

/-! Tasks side by side. A task that is done in two machines of which one mirrors the other leaves
the same work in both, but for the frames that the work speaks of. Only where a closed clause is
evaluated by its only unit do the machines part. -/

namespace Algol68

open Value (Within)
open Outline (Along Admits)

namespace Guide

variable {job : Job} {g : Guide} {m n : Machine}

namespace Abreast

theorem learnt (h : g.Abreast job m n) (a b : Annotations) (k l : Option Counters) :
    g.Abreast job { m with annotations := a, counters := k }
      { n with annotations := b, counters := l } :=
  ⟨h.mirrors.of_learnt a b k l, ⟨h.values.stack, h.values.locals, h.values.cells⟩, h.nested,
    h.sound, h.nested', h.sound'⟩

theorem with_stack (h : g.Abreast job m n) {S : Array Value}
    (hS : ∀ v ∈ S, v.Within (Procedure.Issued m.frames.nextSerial)) :
    g.Abreast job { m with stack := S } { n with stack := S.map (Value.rename g.procedure) } :=
  ⟨h.mirrors.with_stack S, h.values.with_stack hS, h.nested, h.sound, h.nested', h.sound'⟩

theorem size (h : g.Abreast job m n) : n.stack.size = m.stack.size := by
  simp [h.mirrors.stack]

end Abreast

end Guide

/-- The second machine is the first one but for what it knows about nodes and what it has counted.
-/
def Machine.Learns (m m' : Machine) : Prop := ∃ t k, m' = { m with annotations := t, counters := k }

namespace Exec

variable {job : Job} {g : Guide} {m n : Machine} {α β : Type}

/-- Both machines do the operation with the same work left, as far as it goes; the guide grows if a
frame is opened. -/
def Goes (g : Guide) (x y : Exec Agenda) (m n : Machine) : Prop :=
  Sim g x y m n fun work m' work' n' => ∃ g', g.Agrees m.frames.depth m.frames.nextSerial g' ∧
    g'.Mirrors m' n' ∧ work' = work.map g'.task

namespace Sim

theorem goes {x y : Exec Agenda}
    (h : Sim g x y m n fun work m' work' n' => g.Mirrors m' n' ∧ work' = work.map g.task) :
    Goes g x y m n := h.mono fun _ _ _ _ h => ⟨g, .refl .., h⟩

theorem goes_nothing {x : Exec α} {y : Exec β}
    (h : Sim g x y m n fun _ m' _ n' => g.Mirrors m' n') :
    Goes g (do let _ ← x; return []) (do let _ ← y; return []) m n :=
  goes (h.bind fun _ _ _ _ h => pure ⟨h, rfl⟩)

theorem modify {u v : Machine → Machine} {Q : Unit → Machine → Unit → Machine → Prop}
    (h : Q () (u m) () (v n)) : Sim g (modify u) (modify v) m n Q := h

theorem push (job : Job) (h : g.Mirrors m n) (v : Value) :
    Sim g (Exec.push job v) (Exec.push job (v.rename g.procedure)) m n
      fun _ m' _ n' => g.Mirrors m' n' := by
  refine (natural (Natural.push job v) ?_ h).mono fun _ _ _ _ h => h.2
  rw [wp_push]
  exact ⟨fun _ => ⟨⟨rfl, rfl⟩, _, rfl⟩, fun _ => ⟨rfl, rfl⟩⟩

theorem popped (h : g.Abreast job m n) : Sim g Exec.pop Exec.pop m n fun v m' w n' =>
    g.Abreast job m' n' ∧ w = v.rename g.procedure ∧
      v.Within (Procedure.Issued m.frames.nextSerial) ∧ m'.outline = m.outline ∧
      m'.frames = m.frames := by
  refine (pop h.mirrors).mono ?_
  rintro v _ w _ ⟨S, hS, rfl, rfl, rfl⟩
  obtain ⟨hv, hm⟩ := h.values.pop hS
  exact ⟨h.with_stack hm.stack, rfl, hv, rfl, rfl⟩

theorem poppedMany (h : g.Abreast job m n) (k : Nat) :
    Sim g (Exec.popMany k) (Exec.popMany k) m n fun vs m' ws n' =>
      g.Abreast job m' n' ∧ ws = vs.map (Value.rename g.procedure) ∧
        (∀ v ∈ vs, v.Within (Procedure.Issued m.frames.nextSerial)) ∧ m'.outline = m.outline ∧
        m'.frames = m.frames := by
  refine (popMany h.mirrors k).mono ?_
  rintro vs _ ws _ ⟨hvs, rfl, rfl, rfl⟩
  refine ⟨h.with_stack fun v hv => ?_, rfl, fun v hv => h.values.stack v (hvs v hv), rfl, rfl⟩
  rw [Array.mem_def, Array.toList_shrink] at hv
  exact h.values.stack v (Array.mem_def.mpr (List.mem_of_mem_take hv))

theorem popBool (h : g.Abreast job m n) : Sim g Exec.popBool Exec.popBool m n fun b m' c n' =>
    c = b ∧ g.Mirrors m' n' := by
  refine (popped h).bind ?_
  rintro v m' w n' ⟨h', rfl, -⟩
  exact lift (f := id) h'.mirrors (by simp) fun b _ => ⟨rfl, h'.mirrors⟩

theorem depth (h : g.Abreast job m n) : Sim g Exec.depth Exec.depth m n fun k m' l n' =>
    k = m.stack.size ∧ l = k ∧ m = m' ∧ n = n' := ⟨rfl, h.size, rfl, rfl⟩

/-- What the first operation does by itself. -/
theorem with_left {x : Exec α} {y : Exec β} {Q : α → Machine → β → Machine → Prop}
    {P : α → Machine → Prop} (h : Sim g x y m n Q) (hx : wp x P (fun _ _ => True) m) :
    Sim g x y m n fun a m' b n' => P a m' ∧ Q a m' b n' := by
  unfold Sim wp at *
  split at h
  · next hm hn =>
    rw [hm] at hx
    exact ⟨hx, h⟩
  · exact h
  · exact h

/-- An operation that finds out something about nodes tells the same in both machines. -/
theorem learning {x y : Exec α} {v : α} (h : g.Abreast job m n)
    (hx : wp x (fun a m' => a = v ∧ m.Learns m')
      (fun _ _ => False) m)
    (hy : wp y (fun a n' => a = v ∧ n.Learns n')
      (fun _ _ => False) n) :
    Sim g x y m n fun a m' b n' => a = v ∧ b = v ∧ g.Abreast job m' n' ∧ m'.frames = m.frames := by
  obtain ⟨a, _, hxm, rfl, t, k, rfl⟩ := exists_of_wp hx
  obtain ⟨b, _, hyn, rfl, t', k', rfl⟩ := exists_of_wp hy
  rw [Sim, hxm, hyn]
  exact ⟨rfl, rfl, h.learnt t t' k k', rfl⟩

end Sim

theorem values_go {x y : Exec Agenda} (hN : Natural g.procedure (Agenda.rename g.procedure) x y)
    (hx : Natural (Value.restrict fun _ => True) (Agenda.rename (Value.restrict fun _ => True)) x x)
    (hq : wp x (fun work _ => ∀ t ∈ work, t.plain) (fun s _ => ∃ f, s = .fault f) m)
    (ha : wp x (fun work _ => work.active = []) (fun _ _ => True) m) (h : g.Mirrors m n) :
    Goes g x y m n := by
  have keeps := wp_mono (wp_and (hx.keeps m) hq) (fun _ _ h => h.1) fun _ _ h => h
  have left := wp_mono (wp_and hq ha) (fun _ _ h => h) fun _ _ _ => trivial
  refine Sim.goes (((Sim.natural hN keeps h).with_left left).mono ?_)
  rintro work m' _ n' ⟨⟨hp, hactive⟩, rfl, hm⟩
  exact ⟨hm, (Guide.tasks_eq_rename hp hactive).symm⟩

/-! Enclosed clauses. -/

variable {node : NodeId}

theorem alternatives_learns (ht : m.annotations.Truthful job) {items : List NodeId}
    (hc : job.program.chainOf node =
      some ((ChainStep.units (job.program.tree.flatten items)).map .unit)) :
    wp (alternatives job node items)
      (fun units m' => units = ChainStep.units (job.program.tree.flatten items) ∧
        m.Learns m')
      (fun _ _ => False) m := by
  have learns : wp (alternatives job node items) (fun _ m' => m.Learns m') (fun _ _ => True) m := by
    simp only [alternatives, wp_bind, wp_get]
    split <;> exact ⟨_, _, rfl⟩
  exact wp_mono (wp_and (alternatives_still hc) learns) (fun _ _ h => ⟨h.1.2 ht, h.2⟩)
    fun _ _ h => h.1

theorem linearChain_learns (ht : m.annotations.Truthful job) {scope : ScopeId} {range : NodeRange}
    (hk : job.program.tree.kind node = .serialClause scope range)
    (hl : ¬ (job.program.scopes.get scope).hasLabels) :
    wp (linearChain job node (job.program.tree.list range))
      (fun chain m' => chain = job.program.tree.flatten (job.program.tree.list range) ∧
        m.Learns m')
      (fun _ _ => False) m := by
  have learns : wp (linearChain job node (job.program.tree.list range)) (fun _ m' => m.Learns m')
      (fun _ _ => True) m := by
    simp only [linearChain, wp_bind, wp_get]
    split <;> exact ⟨_, _, rfl⟩
  exact wp_mono (wp_and (linearChain_still hk hl) learns) (fun _ _ h => ⟨h.1.2 ht, h.2⟩)
    fun _ _ h => h.1

variable (hlimit : job.config.frameLimit = none)

include hlimit

theorem enclosed_goes (h : g.Abreast job m n) (scope : ScopeId) {work : Agenda}
    (hw : ∀ g' : Guide, work.map g'.task = work) (mode : ModeId) (baseline : Nat) :
    Goes g (do return (← enclosed job scope work) ++ [.yields mode baseline])
      (do return (← enclosed job scope work) ++ [.yields mode baseline]) m n := by
  refine Sim.bind (Q := fun A m' B n' => ∃ g', g.Agrees m.frames.depth m.frames.nextSerial g' ∧
    g'.Mirrors m' n' ∧ B = A.map g'.task) ?_ ?_
  · refine (Sim.enter h hlimit scope).bind ?_
    rintro d m' d' n' ⟨g', ha, hm, rfl, rfl, -⟩
    refine Sim.pure ⟨g', ha, hm, ?_⟩
    rw [List.map_append, hw]
    rfl
  · rintro A m' B n' ⟨g', ha, hm, rfl⟩
    refine Sim.pure ⟨g', ha, hm, ?_⟩
    rw [List.map_append]
    rfl

theorem cases_go (h : g.Abreast job m n) (ht : m.annotations.Truthful job)
    (ht' : n.annotations.Truthful job) {items : List NodeId}
    (hc : job.program.chainOf node =
      some ((ChainStep.units (job.program.tree.flatten items)).map .unit))
    (scope : ScopeId) {work : List NodeId → Agenda}
    (hw : ∀ (g' : Guide) units, (work units).map g'.task = work units) (mode : ModeId)
    (baseline : Nat) :
    Goes g
      (do
        let units ← alternatives job node items
        return (← enclosed job scope (work units)) ++ [.yields mode baseline])
      (do
        let units ← alternatives job node items
        return (← enclosed job scope (work units)) ++ [.yields mode baseline]) m n := by
  refine (Sim.learning h (alternatives_learns ht hc) (alternatives_learns ht' hc)).bind ?_
  rintro units m' _ n' ⟨rfl, rfl, h', hf⟩
  have := enclosed_goes hlimit h' scope
    (fun g' => hw g' (ChainStep.units (job.program.tree.flatten items))) mode baseline
  rw [Goes, hf] at this
  exact this

omit hlimit

/-! Units. -/

theorem strategy_of_size {a : Annotations} (h : a.size = 0) (node : NodeId) :
    a.strategy node = none := by
  have : a.entries = #[] := Array.eq_empty_of_size_eq_zero h
  simp [Annotations.strategy, Annotations.entry, this, Annotation.blank]

/-- A unit that is not evaluated by another one is evaluated alike, known or not. -/
theorem unit_goes (h : g.Mirrors m n) (hn : n.annotations.size = 0)
    (hs : ∀ s, m.annotations.strategy node = some s → s.source = node) :
    Goes g (Exec.unit node) (Exec.unit node) m n := by
  have right : Exec.unit node n = .ok [.elaborate node, .settle node]
      { n with counters := n.counters.map fun c => { c with units := c.units + 1 } } :=
    eq_ok_of_wp (by simp [Exec.unit, strategy_of_size hn])
  have left : ∃ e, g.task e = .settle node ∧ Exec.unit node m = .ok [.elaborate node, e]
      { m with counters := m.counters.map fun c => { c with units := c.units + 1 } } := by
    cases hk : m.annotations.strategy node with
    | none => exact ⟨.settle node, rfl, eq_ok_of_wp (by simp [Exec.unit, hk])⟩
    | some s =>
      obtain ⟨kind, source⟩ := s
      obtain rfl : source = node := hs _ hk
      cases kind <;> exact ⟨.within source, rfl, eq_ok_of_wp (by simp [Exec.unit, hk])⟩
  obtain ⟨e, he, left⟩ := left
  refine Sim.goes ?_
  rw [Sim, left, right]
  refine ⟨h.of_learnt .., ?_⟩
  rw [List.map_cons, List.map_cons, he]
  rfl

/-! Nodes. -/

section

variable {starts : NodeId → Prop} {s : ScopeId}
  (hw : job.program.WellScoped starts) (hj : job.program.JumpsOutward starts)

include hw hj

/-- The environ of a routine text is found where the one of the first machine is found. -/
theorem environ_found (h : g.Abreast job m n) (he : m.outline.Evaluable job.program starts s node)
    {scope : ScopeId} {params : Nat} {body : NodeId}
    (hk : job.program.tree.kind node = .routineText scope params body) : ∃ e,
      (do m.frames.handle (← m.frames.resolve (job.program.environLevel node))) = .ok e ∧
      (do n.frames.handle (← n.frames.resolve (job.program.environLevel node))) =
        .ok (g.handle e) := by
  obtain ⟨k, f, hr, hl, hf, -⟩ := he.environ hw hj hk h.nested
  have level : job.program.level f.scope = job.program.environLevel node := by
    obtain ⟨y, hy, hyl⟩ := FrameStack.resolve_level hr
    cases hf.symm.trans hy
    rw [← hyl]
    exact (h.nested.levels hf).symm
  rw [FrameStack.hollow_getElem?] at hf
  obtain ⟨f, hf', rfl⟩ := Option.map_eq_some_iff.mp hf
  obtain ⟨x, hx, hh, ha⟩ := h.mirrors.frames.frame k f hf'
  have hr' := h.mirrors.frames.resolve h.nested' h.sound.depth_pos hl hf'
  have level : job.program.level f.scope = job.program.environLevel node := level
  rw [level] at hr'
  refine ⟨⟨k, f.serial⟩, ?_, ?_⟩
  · simp only [hr, Bind.bind, Except.bind, FrameStack.handle, hf']
  · simp only [hr', Bind.bind, Except.bind, FrameStack.handle, hx, hh]

omit hw in
/-- A jump leads to the activation that is found where that of the first machine is found. -/
theorem jump_goes (h : g.Abreast job m n) (he : m.outline.Evaluable job.program starts s node)
    {l : LabelId} (hk : job.program.tree.kind node = .jump l) :
    Goes g (elaborate.jump job l) (elaborate.jump job l) m n := by
  have hout := hj he.stands hk
  have htop : m.outline.top = m.frames.depth - 1 := by simp [Outline.top, Machine.outline]
  have hpos := h.sound.depth_pos
  obtain ⟨k, f, hl, hf, hscope⟩ := he.supports (job.program.labels.get l).scope
    ⟨hout.1, (s, node), .refl, hout.1, by simp [hk, Program.uses, Tree.levels, Program.level]⟩
  rw [htop] at hl
  obtain ⟨f, hf', rfl⟩ : ∃ y, m.frames.frames[k]? = some y ∧ y.hollow = f := by
    have := hf
    simp only [Machine.outline, FrameStack.hollow_getElem?] at this
    exact Option.map_eq_some_iff.mp this
  obtain ⟨x, hx, hh, ha⟩ := h.mirrors.frames.frame k f hf'
  have hx' : n.frames.hollow[g.place k]? = some x.hollow := by simp [FrameStack.hollow_getElem?, hx]
  obtain ⟨f', left, hleft⟩ := FrameStack.findScope_eq h.nested hpos hl hf
  obtain ⟨x', right, hright⟩ := FrameStack.findScope_eq h.nested' h.sound'.depth_pos
    ((h.mirrors.frames.top_leads hpos).trans (h.mirrors.frames.leads hl)) hx'
  have hscope : f.scope = (job.program.labels.get l).scope := hscope
  have hscope' : x.scope = (job.program.labels.get l).scope := ha.scope.trans hscope
  have left : m.frames.findScope (job.program.labels.get l).scope = some f' := hscope ▸ left
  have right : n.frames.findScope (job.program.labels.get l).scope = some x' := hscope' ▸ right
  have serial : x'.serial = g.serial f'.serial := by
    have hx : x'.hollow.serial = x.hollow.serial := congrArg Frame.serial hright
    have hf : f'.hollow.serial = f.hollow.serial := congrArg Frame.serial hleft
    have hh : g.serial f.serial = x.serial := congrArg FrameHandle.serial hh
    exact hx.trans (hh.symm.trans (congrArg g.serial hf.symm))
  have resumption : x'.resumption = f'.resumption := by
    have hx : x'.hollow.resumption = x.hollow.resumption := congrArg Frame.resumption hright
    have hf : f'.hollow.resumption = f.hollow.resumption := congrArg Frame.resumption hleft
    exact hx.trans (ha.resumption.trans hf.symm)
  refine Sim.get ?_
  rw [left, right]
  obtain ⟨_, _, _, _, _, r⟩ := f'
  obtain ⟨_, _, _, _, _, r'⟩ := x'
  obtain rfl : r' = r := resumption
  obtain rfl := serial
  cases r' with
  | none => exact Sim.fail h.mirrors _
  | some r =>
    dsimp only
    refine Sim.ite Iff.rfl (fun _ => ⟨rfl, h.mirrors⟩) fun _ => Sim.fail h.mirrors _

theorem elaborate_goes (hlimit : job.config.frameLimit = none) (h : g.Abreast job m n)
    (ht : m.annotations.Truthful job) (ht' : n.annotations.Truthful job)
    (he : m.outline.Evaluable job.program starts s node) :
    Goes g (elaborate job node) (elaborate job node) m n := by
  by_cases hv : onValues (job.program.tree.kind node)
  · have still : changesFrame (job.program.tree.kind node) = false := by
      generalize job.program.tree.kind node = kind at hv
      cases kind <;> first | rfl | cases hv
    refine values_go (elaborate_natural (fun _ => rfl) job hv)
      (elaborate_natural (fun _ => by simp [Value.restrict]) job hv) ?_ ?_ h.mirrors
    · exact wp_mono (elaborate_quiet node still m) (fun _ _ h => h.2) fun _ _ h => h.2
    · exact wp_mono (exec_teaches (.elaborate node)) (fun _ _ h => h.2 (by simp)) fun _ _ _ => trivial
  refine (Sim.depth h).bind ?_
  rintro _ _ _ _ ⟨rfl, rfl, rfl, rfl⟩
  cases hk : job.program.tree.kind node with
  | closed scope | conditional scope => exact enclosed_goes hlimit h scope (fun _ => rfl) _ _
  | integerCase scope | conformityCase scope =>
    exact cases_go hlimit h ht ht' (by simp [Program.chainOf, hk]) scope (fun _ _ => rfl) _ _
  | identifier slot =>
    have hp := hw.proper he.stands
    rw [hk] at hp
    obtain ⟨d, hd, hds⟩ := hp
    have sees := he.sees hd hds (by rw [hk]; exact List.mem_singleton_self _)
    refine (Sim.load h sees).bind ?_
    rintro v _ _ _ ⟨-, rfl, rfl, rfl⟩
    exact Sim.goes_nothing (Sim.push job h.mirrors v)
  | routineText scope params body =>
    obtain ⟨e, left, right⟩ := environ_found hw hj h he hk
    refine Sim.get ?_
    dsimp only
    rw [left, right]
    exact Sim.goes_nothing (Sim.push job h.mirrors (.procedure (.routine node e)))
  | jump l => exact jump_goes hj h he hk
  | _ =>
    rw [hk] at hv
    exact absurd rfl hv

end

/-! Calls. -/

theorem print_natural {ρ : Procedure → Procedure} (hs : ∀ p, ρ (.standard p) = .standard p)
    (hr : ∀ text e, ∃ e', ρ (.routine text e) = .routine text e') (values : List Value) :
    Natural ρ (Agenda.rename ρ) (print job values) (print job (values.map (Value.rename ρ))) := by
  cases values with
  | nil => exact .pure []
  | cons v rest =>
    have go (vs : List Value) : Natural ρ (Agenda.rename ρ) (Pure.pure [.print vs])
        (Pure.pure [.print (vs.map (Value.rename ρ))]) := .pure [Task.print vs]
    have emit (k : Transput → Transput) : Natural ρ (Agenda.rename ρ)
        (do transput k; return [.print rest])
        (do transput k; return [.print (rest.map (Value.rename ρ))]) :=
      (Natural.transput k).bind fun _ => go rest
    rw [List.map_cons]
    cases v with
    | row r =>
      have := go (r.elements.toList ++ rest)
      simpa [print] using this
    | struct fields =>
      have := go (fields.toList ++ rest)
      simpa [print] using this
    | union variant payload => exact go (payload :: rest)
    | name k => exact (Natural.read k).bind fun w => go (w :: rest)
    | procedure r =>
      cases r with
      | standard p =>
        rw [Value.rename_procedure, hs]
        cases p with
        | newline => exact emit _
        | print => exact go rest
      | routine text e =>
        obtain ⟨e', he⟩ := hr text e
        rw [Value.rename_procedure, he]
        exact fun _ _ => rfl
    | undefined mode => exact .fail _
    | _ => exact emit _

/-- A procedure whose environ was opened is called alike: its environ is there in both machines or
in neither. -/
theorem callValue_goes (h : g.Abreast job m n) {callee : Value}
    (hc : callee.Within (Procedure.Issued m.frames.nextSerial)) (args : List Value)
    (site : NodeId) :
    Goes g (callValue job callee args site)
      (callValue job (callee.rename g.procedure) (args.map (Value.rename g.procedure)) site) m n := by
  have wrong (v : Value) : Goes g (Exec.lift (Value.mismatch "PROC" v))
      (Exec.lift (Value.mismatch "PROC" (v.rename g.procedure))) m n :=
    Sim.lift (f := id) h.mirrors (by simp) fun _ h => nomatch h
  cases callee with
  | procedure r =>
    cases r with
    | standard p =>
      cases p with
      | print => exact Sim.goes (Sim.pure ⟨h.mirrors, rfl⟩)
      | newline =>
        refine Sim.goes_nothing (Sim.modify ?_)
        exact ⟨h.mirrors.stack, h.mirrors.store,
          congrArg (Transput.emit · _) h.mirrors.transput, h.mirrors.calls,
          h.mirrors.frames⟩
    | routine text e =>
      have issued : e.serial < m.frames.nextSerial := Value.within_procedure.mp hc
      have live := h.mirrors.frames.isLive issued
      refine Sim.get ?_
      change Goes g (if !m.frames.isLive e then _ else _)
        (if !n.frames.isLive (g.handle e) then _ else _) m n
      rw [live]
      refine Sim.ite Iff.rfl (fun _ => Sim.fail h.mirrors _) fun hl => ?_
      have index : (g.handle e).index = g.place e.index := by
        obtain ⟨f, hf, hfs⟩ := FrameStack.isLive_iff_frames.mp (by simpa using hl)
        obtain ⟨x, -, hh, -⟩ := h.mirrors.frames.frame _ f hf
        rw [hfs] at hh
        exact congrArg FrameHandle.index hh
      dsimp only
      rw [index]
      cases hk : job.program.tree.kind text with
      | routineText scope params body =>
        refine Sim.goes ?_
        exact ⟨⟨h.mirrors.stack, h.mirrors.store, h.mirrors.transput,
          congrArg (_ :: ·) h.mirrors.calls, h.mirrors.frames⟩, rfl⟩
      | _ => exact Sim.fail h.mirrors _
  | nil => exact Sim.fail h.mirrors _
  | undefined mode => exact Sim.fail h.mirrors _
  | row r =>
    have := wrong (.row r)
    rw [Value.rename_row] at this ⊢
    exact this
  | struct vs =>
    have := wrong (.struct vs)
    rw [Value.rename_struct] at this ⊢
    exact this
  | _ => exact wrong _

/-- The body of a routine is entered from the environ that is found. -/
theorem enterRoutine_goes (hlimit : job.config.frameLimit = none) (h : g.Abreast job m n)
    {environ : Nat} (he : environ < m.frames.depth) {args : List Value}
    (ha : ∀ v ∈ args, v.Within (Procedure.Issued m.frames.nextSerial)) (scope : ScopeId)
    (body : NodeId) :
    Goes g (enterRoutine job scope environ args body)
      (enterRoutine job scope (g.place environ) (args.map (Value.rename g.procedure)) body) m n := by
  refine (Sim.enterAt h hlimit scope he .refl).bind ?_
  rintro d m' d' n' ⟨g', agrees, hm, rfl, rfl, hdepth⟩
  have args' : args.map (Value.rename g.procedure) = args.map (Value.rename g'.procedure) :=
    List.map_congr_left fun v hv => (agrees.value (ha v hv)).symm
  rw [args']
  refine Sim.bind (Q := fun _ m₁ _ n₁ => g'.Mirrors m₁ n₁) (Sim.modify (hm.with_frames ?_)) ?_
  · refine hm.frames.modify (by omega) (fun _ => ⟨rfl, rfl⟩) (fun _ => ⟨rfl, rfl⟩)
      fun f x _ ha => ⟨ha.scope, ?_, ha.resumption⟩
    dsimp only
    rw [ha.locals]
    apply Array.ext_getElem?
    intro k
    simp only [Array.getElem?_map, Array.getElem?_mapIdx, Option.map_map,
      List.getD_eq_getElem?_getD, List.getElem?_map]
    cases args[k]? <;> rfl
  · exact fun _ _ _ _ h => Sim.pure ⟨g', agrees, h, rfl⟩

/-! Clauses. -/

theorem orUndefined_goes (job : Job) (h : g.Mirrors m n) (mode : ModeId) (unit : Option NodeId) :
    Goes g (orUndefined job mode unit) (orUndefined job mode unit) m n := by
  cases unit with
  | some unit => exact Sim.goes (Sim.pure ⟨h, rfl⟩)
  | none =>
    refine Sim.goes_nothing (Sim.ite Iff.rfl (fun _ => Sim.pure h) fun _ => ?_)
    have := Sim.push job h (Value.undefinedOf job.program.modes mode)
    rwa [Value.undefinedOf_rename] at this

theorem conform_goes (hlimit : job.config.frameLimit = none) (h : g.Abreast job m n)
    (alternatives : List NodeId) (outPart : Option NodeId) (mode : ModeId) :
    Goes g (conform job alternatives outPart mode) (conform job alternatives outPart mode) m n := by
  refine (Sim.popped h).bind ?_
  rintro v m' _ n' ⟨h', rfl, hv, -, hf⟩
  have wrong : Goes g (Exec.lift (Value.mismatch "UNION" v))
      (Exec.lift (Value.mismatch "UNION" (v.rename g.procedure))) m' n' :=
    Sim.lift (f := id) h'.mirrors (by simp) fun _ h => nomatch h
  rw [Goes, hf] at wrong
  cases v with
  | union variant payload =>
    have bound (p : Prop) [Decidable p] (g' : Guide) :
        (if p then Value.union variant payload else payload).rename g'.procedure =
          if p then .union variant (payload.rename g'.procedure)
          else payload.rename g'.procedure := by
      split <;> rfl
    refine (Sim.lift (f := id) h'.mirrors (by simp)
      (Q := fun a m₁ b n₁ => b = a ∧ m₁ = m' ∧ n₁ = n') fun a _ => ⟨rfl, rfl, rfl⟩).bind ?_
    rintro (_ | ⟨a, specifier⟩) _ _ _ ⟨rfl, rfl, rfl⟩
    · have := orUndefined_goes job h'.mirrors mode outPart
      rw [Goes, hf] at this
      exact Sim.ite Iff.rfl (fun _ => ⟨rfl, h'.mirrors⟩) fun _ => this
    · dsimp only
      refine (Sim.enter h' hlimit a.scope).bind ?_
      rintro d m₁ d' n₁ ⟨g', agrees, hm, rfl, rfl, -⟩
      rw [hf] at agrees
      refine Sim.pure ⟨g', agrees, hm, ?_⟩
      have payload : payload.rename g.procedure = payload.rename g'.procedure :=
        (agrees.value (Value.within_union.mp hv)).symm
      simp only [payload, List.map_append, List.map_map]
      congr 1
      refine List.map_congr_left fun slot _ => ?_
      exact congrArg (Task.store slot) (bound _ g').symm
  | undefined => exact Sim.fail h'.mirrors _
  | row r =>
    rw [Value.rename_row] at wrong ⊢
    exact wrong
  | struct vs =>
    rw [Value.rename_struct] at wrong ⊢
    exact wrong
  | _ => exact wrong

/-- A clause with labels leaves word on the frame it runs in. -/
theorem announce_sim (h : g.Abreast job m n)
    (htop : g.place (m.frames.depth - 1) = n.frames.depth - 1) (serial : NodeId)
    (items : List NodeId) (baseline : Nat) :
    Sim g (announce serial items baseline) (announce serial items baseline) m n
      fun c m' d n' => g.Mirrors m' n' ∧ Task.labelled d = g.task (.labelled c) := by
  have hpos := h.sound.depth_pos
  have top (s : FrameStack) (hs : 0 < s.depth) : s.top = .ok (s.depth - 1) := by
    have : s.frames.isEmpty = false := by
      simpa [FrameStack.depth, Array.size_pos_iff] using hs
    simp [FrameStack.top, this, FrameStack.depth]
  obtain ⟨f, hf⟩ : ∃ f, m.frames.frames[m.frames.depth - 1]? = some f :=
    ⟨_, Array.getElem?_eq_getElem (Nat.sub_lt hpos Nat.one_pos)⟩
  obtain ⟨x, hx, hh, -⟩ := h.mirrors.frames.frame _ f hf
  have hserial : g.serial f.serial = x.serial := congrArg FrameHandle.serial hh
  have left : announce serial items baseline m =
      .ok ⟨serial, items, m.frames.depth - 1, f.serial, baseline⟩ { m with
        frames := m.frames.modify (m.frames.depth - 1) (Frame.announce ⟨serial, baseline⟩) } :=
    eq_ok_of_wp (by simp [announce, top _ hpos, FrameStack.handle, hf]; rfl)
  have right : announce serial items baseline n =
      .ok ⟨serial, items, n.frames.depth - 1, x.serial, baseline⟩ { n with
        frames := n.frames.modify (n.frames.depth - 1) (Frame.announce ⟨serial, baseline⟩) } := by
    rw [htop] at hx
    exact eq_ok_of_wp (by simp [announce, top _ h.sound'.depth_pos, FrameStack.handle, hx]; rfl)
  rw [Sim, left, right, ← htop, ← hserial]
  refine ⟨h.mirrors.with_frames ?_, rfl⟩
  exact h.mirrors.frames.modify (Nat.sub_lt hpos Nat.one_pos) (fun _ => ⟨rfl, rfl⟩)
    (fun _ => ⟨rfl, rfl⟩) fun f x _ ha => ⟨ha.scope, ha.locals, rfl⟩

theorem clause_goes (h : g.Abreast job m n) (ht : m.annotations.Truthful job)
    (ht' : n.annotations.Truthful job)
    (htop : g.place (m.frames.depth - 1) = n.frames.depth - 1) (enquiry : Bool) :
    Goes g (clause job node enquiry) (clause job node enquiry) m n := by
  have steps (chain : List ChainStep) (baseline : Nat) :
      (chain.map (·.task baseline)).map g.task = chain.map (·.task baseline) := by
    rw [List.map_map]
    refine List.map_congr_left fun step _ => ?_
    cases step <;> rfl
  have ending (p : Prop) [Decidable p] (baseline : Nat) :
      (if p then [Task.cut baseline] else []).map g.task = if p then [.cut baseline] else [] := by
    split <;> rfl
  unfold clause
  dsimp only
  cases hk : job.program.tree.kind node with
  | serialClause scope range =>
    refine (Sim.depth h).bind ?_
    rintro _ _ _ _ ⟨rfl, rfl, rfl, rfl⟩
    refine Sim.ite Iff.rfl (fun _ => ?_) fun hl => ?_
    · refine (announce_sim h htop node _ _).bind ?_
      rintro c m' d n' ⟨hm, hd⟩
      refine Sim.pure ⟨g, .refl .., hm, ?_⟩
      rw [List.map_append, List.map_cons, steps, ending, hd]
    · refine (Sim.learning h (linearChain_learns ht hk hl) (linearChain_learns ht' hk hl)).bind ?_
      rintro chain m' _ n' ⟨rfl, rfl, h', -⟩
      refine Sim.pure ⟨g, .refl .., h'.mirrors, ?_⟩
      rw [List.map_append, steps, ending]
  | _ => exact Sim.goes (Sim.pure ⟨h.mirrors, rfl⟩)

/-! Loops. -/

theorem setCounter_sim {starts : NodeId → Prop} (h : g.Abreast job m n) {i : Iteration}
    (hi : m.outline.Iterates job.program starts i.parts) :
    Sim g (setCounter i) (setCounter (g.iteration i)) m n fun _ m' _ n' =>
      g.Mirrors m' n' ∧ m'.frames.depth = m.frames.depth := by
  unfold setCounter
  cases hc : i.parts.counter with
  | none =>
    simp only [Guide.iteration, hc]
    exact Sim.pure ⟨h.mirrors, rfl⟩
  | some slot =>
    simp only [Guide.iteration, hc]
    exact Sim.store h (hi.sees (by rw [hc]; rfl)) (.int i.counter)

theorem renewBody_sim (h : g.Mirrors m n) {i : Iteration} (hi : i.body < m.frames.depth) :
    Sim g (renewBody job i) (renewBody job (g.iteration i)) m n
      fun _ m' _ n' => g.Mirrors m' n' := by
  refine Sim.ite Iff.rfl (fun _ => Sim.pure h) fun _ => Sim.modify (h.with_frames ?_)
  refine h.frames.modify hi (fun _ => ⟨rfl, rfl⟩) (fun _ => ⟨rfl, rfl⟩)
    fun f x _ ha => ⟨ha.scope, ?_, ha.resumption⟩
  dsimp only
  rw [ha.locals, ha.scope]
  apply Array.ext_getElem?
  intro k
  simp only [Array.getElem?_map, Array.getElem?_mapIdx, Option.map_map]
  congr 1
  funext v
  simp only [Function.comp]
  split <;> simp

theorem iteration_task (g : Guide) (i : Iteration) :
    iterate.iteration (g.iteration i) = (iterate.iteration i).map g.task := by
  simp only [Guide.iteration, iterate.iteration]
  cases i.parts.untilPart <;> rfl

theorem iterate_goes {starts : NodeId → Prop} (h : g.Abreast job m n) {i : Iteration}
    (hi : m.outline.Iterates job.program starts i.parts) (hl : i.body < m.frames.depth) :
    Goes g (iterate job i) (iterate job (g.iteration i)) m n := by
  refine Sim.ite Iff.rfl (fun _ => ?_) fun _ => Sim.goes (Sim.pure ⟨h.mirrors, rfl⟩)
  refine (setCounter_sim h hi).bind ?_
  rintro _ m₁ _ n₁ ⟨h₁, hd⟩
  refine (renewBody_sim h₁ (by omega)).bind ?_
  rintro _ m₂ _ n₂ h₂
  refine Sim.pure ⟨g, .refl .., h₂, ?_⟩
  cases hw : i.parts.whilePart with
  | some enquiry =>
    simp only [Guide.iteration, hw]
    rfl
  | none =>
    simp only [Guide.iteration, hw]
    exact iteration_task g { i with first := false }

/-! All tasks. -/

/-- A task that is not a unit evaluated by another one goes alike in both machines. -/
theorem exec_goes {starts : NodeId → Prop} {K : NodeId → FrameHandle → Prop} {t : Task}
    (hw : job.program.WellScoped starts) (hj : job.program.JumpsOutward starts)
    (hlimit : job.config.frameLimit = none) (h : g.Abreast job m n)
    (ht : m.annotations.Truthful job) (ht' : n.annotations.Truthful job)
    (hn : n.annotations.size = 0) (hp : m.outline.Placed job.program starts K t)
    (ha : m.outline.Admits t) (hv : t.Holds (Procedure.Issued m.frames.nextSerial))
    (hunit : ∀ node s, t = .unit node → m.annotations.strategy node = some s → s.source = node)
    (htop : ∀ node enquiry, t = .clause node enquiry →
      g.place (m.frames.depth - 1) = n.frames.depth - 1) :
    Goes g (t.exec job) ((g.task t).exec job) m n := by
  have hlen : m.outline.frames.length = m.frames.depth := by simp [Machine.outline]
  by_cases hvalues : t.onValues ∧ ∀ k, t ≠ .within k
  · obtain ⟨hvalues, hwithin⟩ := hvalues
    have renamed : g.task t = t.rename g.procedure := by
      cases t with
      | within k => exact absurd rfl (hwithin k)
      | leave | endCall | labelled | iterate | afterWhile | afterUntil | advance | enterRoutine =>
        cases hvalues
      | _ => rfl
    have fixed : t.rename (Value.restrict fun _ => True) = t :=
      (Task.holds_iff trivial).mp fun _ _ _ _ => trivial
    have natural := exec_natural (ρ := Value.restrict fun _ => True) job hvalues
    rw [fixed] at natural
    rw [renamed]
    refine values_go (exec_natural job hvalues) natural ?_ ?_ h.mirrors
    · exact wp_mono (values_quiet hvalues m) (fun _ _ h => h.2) fun _ _ h => h.2
    · refine wp_mono (exec_teaches t) (fun _ _ h => h.2 fun k hk => ?_) fun _ _ _ => trivial
      rw [hk] at hvalues
      cases hvalues
  cases t with
  | unit node => exact unit_goes h.mirrors hn fun s => hunit node s rfl
  | elaborate node =>
    obtain ⟨s, he⟩ := hp
    exact elaborate_goes hw hj hlimit h ht ht' he
  | settle node =>
    exact Sim.goes_nothing (Sim.modify (h.mirrors.of_learnt ..))
  | within node =>
    refine Sim.goes ?_
    exact ⟨h.mirrors.of_learnt .., rfl⟩
  | leave depth =>
    refine Sim.goes_nothing (Sim.modify (h.mirrors.with_frames ?_))
    have hd := ha.1
    refine h.mirrors.frames.truncate h.nested' (fun i hi hlt => ?_) fun i hi hlt => ?_
    · exact h.mirrors.frames.rising i depth hi (by omega)
    · obtain rfl : i = depth := by omega
      exact Nat.le_refl _
  | clause node enquiry => exact clause_goes h ht ht' (htop node enquiry rfl) enquiry
  | labelled c =>
    refine Sim.goes_nothing (Sim.modify (h.mirrors.with_frames ?_))
    exact h.mirrors.frames.modify (by have := ha.2.1; omega) (fun _ => ⟨rfl, rfl⟩)
      (fun _ => ⟨rfl, rfl⟩) fun f x _ ha => ⟨ha.scope, ha.locals, rfl⟩
  | conform alternatives outPart mode => exact conform_goes hlimit h alternatives outPart mode
  | store slot v =>
    obtain ⟨s, hs⟩ := hp
    exact Sim.goes_nothing ((Sim.store h hs v).mono fun _ _ _ _ h => h.1)
  | bind slot =>
    obtain ⟨s, hs⟩ := hp
    refine Sim.bind (Sim.popped h) ?_
    rintro v m' _ n' ⟨h', rfl, -, ho, -⟩
    refine (Sim.store h' (ho ▸ hs) v).bind ?_
    exact fun _ _ _ _ h => Sim.pure ⟨g, .refl .., h.1, rfl⟩
  | declare slot init =>
    obtain ⟨⟨s, hs⟩, -⟩ := hp
    refine Sim.bind (Sim.popped h) ?_
    rintro v m' _ n' ⟨h', rfl, -, ho, -⟩
    refine (Sim.lift (f := id) h'.mirrors (by simp)
      (Q := fun a m₁ b n₁ => b = a ∧ m₁ = m' ∧ n₁ = n') fun a _ => ⟨rfl, rfl, rfl⟩).bind ?_
    rintro name _ _ _ ⟨rfl, rfl, rfl⟩
    refine (Sim.store h' (ho ▸ hs) v).bind ?_
    rintro _ m₁ _ n₁ ⟨hm, -⟩
    cases init <;> exact Sim.pure ⟨g, .refl .., hm, rfl⟩
  | enterLoop i =>
    refine (Sim.enter h hlimit i.parts.scope).bind ?_
    rintro d m' d' n' ⟨g', agrees, hm, rfl, rfl, -⟩
    exact Sim.pure ⟨g', agrees, hm, rfl⟩
  | enterBody i =>
    refine (Sim.enter h hlimit i.parts.bodyScope).bind ?_
    rintro d m' d' n' ⟨g', agrees, hm, rfl, rfl, -⟩
    exact Sim.pure ⟨g', agrees, hm, rfl⟩
  | iterate i => exact iterate_goes h hp (by have := ha.1; omega)
  | afterWhile i =>
    refine (Sim.popBool h).bind ?_
    rintro b m' _ n' ⟨rfl, hm⟩
    refine Sim.pure ⟨g, .refl .., hm, ?_⟩
    split
    · exact iteration_task g i
    · rfl
  | afterUntil i =>
    refine (Sim.popBool h).bind ?_
    rintro b m' _ n' ⟨rfl, hm⟩
    refine Sim.pure ⟨g, .refl .., hm, ?_⟩
    split <;> rfl
  | advance i =>
    refine Sim.ite Iff.rfl (fun _ => ?_) fun _ => Sim.goes (Sim.pure ⟨h.mirrors, rfl⟩)
    dsimp only [Guide.iteration]
    cases narrow? (i.counter.toInt + i.step.toInt) with
    | some counter => exact Sim.goes (Sim.pure ⟨h.mirrors, rfl⟩)
    | none => exact Sim.fail h.mirrors _
  | call callee count site =>
    refine (Sim.poppedMany h count).bind ?_
    rintro vs m' _ n' ⟨h', rfl, -, -, hf⟩
    have known : callee.Within (Procedure.Issued m'.frames.nextSerial) := by
      rw [hf]
      exact hv callee (List.mem_singleton_self callee)
    have := callValue_goes h' known vs site
    rw [Goes, hf] at this
    exact this
  | operate slot count site =>
    obtain ⟨s, -, hs⟩ := hp
    refine (Sim.poppedMany h count).bind ?_
    rintro vs m' _ n' ⟨h', rfl, -, ho, hf⟩
    refine (Sim.load h' (ho ▸ hs)).bind ?_
    rintro v _ _ _ ⟨hload, rfl, rfl, rfl⟩
    have := callValue_goes h' (h'.values.load hload) vs site
    rw [Goes, hf] at this
    exact this
  | coerce kind node operand baseline =>
    obtain rfl : kind = .deprocedure := by
      by_contra hk
      exact hvalues ⟨by simpa [Task.onValues] using hk, fun _ => Task.noConfusion⟩
    refine (Sim.popped h).bind ?_
    rintro v m' _ n' ⟨h', rfl, hv, -, hf⟩
    have := callValue_goes h' (by rw [hf]; exact hv) [] node
    rw [Goes, hf] at this
    exact this
  | enterRoutine scope environ args body =>
    exact enterRoutine_goes hlimit h (hlen ▸ ha) (fun v hm => hv v hm) scope body
  | endCall =>
    refine Sim.goes_nothing (Sim.modify ?_)
    exact ⟨h.mirrors.stack, h.mirrors.store, h.mirrors.transput,
      congrArg List.tail h.mirrors.calls, h.mirrors.frames⟩
  | print values =>
    refine values_go (print_natural (fun _ => rfl) (fun text e => ⟨g.handle e, rfl⟩) values) ?_ ?_ ?_
      h.mirrors
    · have := @print_natural job (Value.restrict fun _ => True)
        (fun p => by simp [Value.restrict]) (fun text e => ⟨e, by simp [Value.restrict]⟩) values
      rwa [(Value.map_restrict_iff trivial).mpr fun _ _ _ _ => trivial] at this
    · exact wp_mono (print_quiet values m) (fun _ _ h => h.2) fun _ _ h => h.2
    · exact wp_mono (exec_teaches (.print values)) (fun _ _ h => h.2 fun _ => Task.noConfusion)
        fun _ _ _ => trivial
  | _ => exact absurd ⟨rfl, fun _ => Task.noConfusion⟩ hvalues

end Exec

end Algol68
