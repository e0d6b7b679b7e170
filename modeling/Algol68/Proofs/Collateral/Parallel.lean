import Algol68.Proofs.Collateral.Alike
import Algol68.Proofs.Stack.Balance

/-! Parallel clauses and collateral clauses without a value. Both evaluate their units one after the
other. The one cuts the stack back after each unit, the other only in the end; where no unit takes what
the units before it left, nothing else tells them apart. -/

namespace Algol68

variable {job : Job} {x y : Agenda × Machine} {A B : Agenda} {P : Array Value} {m m' : Machine}
  {u : NodeId} {us : List NodeId}

/-! The units of a clause. -/

/-- No unit of the clause takes anything of what is on the stack when its evaluation begins, if they are
evaluated one after the other and each leaves what it leaves. -/
def TakeOwn (job : Job) (us : List NodeId) (m : Machine) : Prop :=
  ∀ front u back, us = front ++ u :: back → ∀ m₁, Runs job (front.map .unit, m) ([], m₁) →
    TakesOwn job u m₁

theorem TakeOwn.head (h : TakeOwn job (u :: us) m) : TakesOwn job u m :=
  h [] u us rfl m .refl

theorem TakeOwn.tail (h : TakeOwn job (u :: us) m) (hr : Runs job ([.unit u], m) ([], m')) :
    TakeOwn job us m' :=
  fun front v back hus m₁ hm => h (u :: front) v back (by rw [hus]; rfl) m₁
    ((hr.append (front.map .unit)).trans hm)

theorem HasRoom.of_append (hB : B.Inert) (h : HasRoom job (A ++ B, m)) : HasRoom job (A, m) :=
  fun f m' he => h f m' ((escapes_append hB).mpr (.inl he))

/-- What a parallel clause is evaluated by, on a stack of depth `b`. -/
def parallelWork (b : Nat) (us : List NodeId) : Agenda :=
  (us.flatMap fun u => [.unit u, .cut b]) ++ [.yields .void b]

/-- What a collateral clause without a value is evaluated by. -/
def collateralWork (b : Nat) (us : List NodeId) : Agenda :=
  us.map .unit ++ [.aggregate .void b, .yields .void b]

theorem parallelWork_inert (b : Nat) (us : List NodeId) : (parallelWork b us).Inert := by
  intro t ht
  simp only [parallelWork, List.mem_append, List.mem_flatMap, List.mem_cons, List.not_mem_nil,
    or_false] at ht
  rcases ht with ⟨u, -, rfl | rfl⟩ | rfl <;> rfl

theorem collateralWork_inert (b : Nat) (us : List NodeId) : (collateralWork b us).Inert := by
  intro t ht
  simp only [collateralWork, List.mem_append, List.mem_map, List.mem_cons, List.not_mem_nil,
    or_false] at ht
  rcases ht with ⟨u, -, rfl⟩ | rfl | rfl <;> rfl

theorem shrink_append (P J : Array Value) : (P ++ J).shrink P.size = P :=
  Array.toList_inj.mp (by simp)

theorem does_cut (P J : Array Value) (n : Machine) (A : Agenda) :
    Does job (.cut P.size :: A, { n with stack := P ++ J }) (A, { n with stack := P }) := by
  refine @Does.done job _ [] A _ _ ?_
  change EStateM.Result.ok [] { n with stack := (P ++ J).shrink P.size } = _
  rw [shrink_append]

theorem does_aggregate (P J : Array Value) (n : Machine) (A : Agenda) :
    Does job (.aggregate .void P.size :: A, { n with stack := P ++ J }) (A, { n with stack := P }) := by
  refine @Does.done job _ [] A _ _ ?_
  change EStateM.Result.ok [] { n with stack := (P ++ J).shrink P.size } = _
  rw [shrink_append]

theorem does_yields (n : Machine) (A : Agenda) :
    Does job (.yields .void n.stack.size :: A, n) (A, n) := by
  refine @Does.done job _ [] A _ _ (Exec.eq_ok_of_wp ?_)
  simp [Task.exec, Exec.yields]

/-- The units are evaluated alike whether or not what each leaves is cut off behind it. By induction on
the units: the collateral clause still holds `J`, what the units before have left. -/
theorem units_alike {n : Machine} {J : Array Value} (hc : Consistent job [] n)
    (own : TakeOwn job us { n with stack := P ++ J })
    (room : HasRoom job (collateralWork P.size us, { n with stack := P ++ J })) :
    Alike job P (parallelWork P.size us, { n with stack := P })
      (collateralWork P.size us, { n with stack := P ++ J }) := by
  induction us generalizing n J with
  | nil =>
    have last : Does job ([.yields .void P.size], { n with stack := P }) ([], { n with stack := P }) :=
      does_yields { n with stack := P } []
    exact (((Alike.empty rfl).left last rfl).right last rfl).right (does_aggregate P J n _) rfl
  | cons u us ih =>
    let F : Footing := ⟨P ++ J, n.frames.nextSerial⟩
    let G : Footing := ⟨P, n.frames.nextSerial⟩
    let r : Machine := { n with stack := #[] }
    have low : G.Below F := ⟨rfl, by simp [F, G, Footing.height]⟩
    have old : ∀ f ∈ r.frames.frames, f.serial < n.frames.nextSerial := hc.sound.serial_lt
    have hF : F.machine r = { n with stack := P ++ J } := by
      rw [Footing.machine_of_serial_lt old]
      simp [F, r]
    have hG : G.machine r = { n with stack := P } := by
      rw [Footing.machine_of_serial_lt old]
      simp [G, r]
    rw [← hF] at own room
    have carries : F.Carries job u r := by
      refine ⟨?_, rfl, rfl, own.head, room.of_append (A := [.unit u]) (collateralWork_inert _ us)⟩
      rw [hF]
      exact ⟨hc.sound, hc.truthful, trivial, trivial⟩
    have inert : Agenda.Inert (.cut P.size :: parallelWork P.size us) :=
      List.forall_mem_cons.mpr ⟨rfl, parallelWork_inert _ us⟩
    rw [← hF, ← hG]
    refine carries.alike low rfl rfl inert (collateralWork_inert _ us) fun m hr => ?_
    obtain ⟨hm, ends⟩ := carries.ended hr
    have eF : F.machine m = { m with stack := P ++ (J ++ m.stack) } := by
      rw [ends F (.refl F), Array.append_assoc]
    rw [eF] at hr
    rw [eF, ends G low]
    exact (ih hm (own.tail hr) (room.runs (hr.append _))).left (does_cut P m.stack m _) rfl

variable {p c : NodeId} {ps cs : NodeRange}

theorem does_parallel (hk : job.program.tree.kind p = .parallel ps)
    (hm : job.program.tree.mode p = .void) : Does job ([.elaborate p], m)
      (parallelWork m.stack.size (job.program.tree.list ps), m) := by
  refine does_single_iff.mpr ?_
  simp only [Task.exec, Exec.elaborate, hk, hm]
  rfl

theorem does_collateral (hk : job.program.tree.kind c = .collateral cs)
    (hm : job.program.tree.mode c = .void) : Does job ([.elaborate c], m)
      (collateralWork m.stack.size (job.program.tree.list cs), m) := by
  refine does_single_iff.mpr ?_
  simp only [Task.exec, Exec.elaborate, hk, hm]
  rfl

variable {units : NodeId → Prop} {t : Task} {rest : Agenda}

/-- From every state of a session, a parallel clause and a collateral clause of mode `VOID` that have the
same units are evaluated alike, if no unit takes what lay on the stack before it and the stack does not
reach its limit: the same units are evaluated in the same order, with the same effects; both end in the
same way, a fault counting the values that the collateral clause still holds; and at the end the stack is
what it was. -/
theorem parallel_as_collateral (h : Underway job units A m)
    (hp : job.program.tree.kind p = .parallel ps) (hc : job.program.tree.kind c = .collateral cs)
    (hpm : job.program.tree.mode p = .void) (hcm : job.program.tree.mode c = .void)
    (same : job.program.tree.list ps = job.program.tree.list cs)
    (own : TakeOwn job (job.program.tree.list cs) m) (room : HasRoom job ([.elaborate c], m)) :
    Alike job m.stack ([.elaborate p], m) ([.elaborate c], m) := by
  have first := does_parallel (m := m) hp hpm
  have second := does_collateral (m := m) hc hcm
  rw [same] at first
  have consistent := h.consistent.1
  have held : m.stack ++ #[] = m.stack := Array.append_empty
  have alike : Alike job m.stack (parallelWork m.stack.size (job.program.tree.list cs), m)
      (collateralWork m.stack.size (job.program.tree.list cs), { m with stack := m.stack ++ #[] }) :=
    units_alike ⟨consistent.sound, consistent.truthful, trivial⟩ (by rwa [held])
      (by
        rw [held]
        exact room.runs (.single second))
  rw [held] at alike
  exact (alike.left first rfl).right second rfl

theorem Task.Moves.taken_le {tree : Tree} {floor d e : Nat} (h : t.Moves tree floor d e) :
    floor + t.taken ≤ d := by
  have uses : t.taken ≤ t.uses := by
    unfold Task.taken
    split <;> simp
  unfold Task.Moves at h
  split at h
  · exact Nat.le_trans h.1 h.2.1
  · exact Nat.le_trans h.1 h.2.1
  · exact Nat.le_trans h.1 h.2.1
  · exact h.1
  · omega

/-- Where modes agree, a unit takes nothing of what was on the stack when its evaluation began. -/
theorem Underway.takesOwn (hv : job.VoidConsistent units)
    (h : Underway job units (.unit u :: rest) m) : TakesOwn job u m := by
  intro t A m' hr
  have start : Upon job.program.tree m.stack.toList
      (m.stack.size + (job.program.tree.mode u).worth) [.unit u] m :=
    ⟨List.prefix_refl _, .unit (Nat.le_of_eq (by simp)) .refl, by simp⟩
  obtain ⟨kept, balanced, -⟩ := start.runs (B := rest) hv h hr
  by_cases hl : ∃ c, t = .labelled c
  · obtain ⟨c, rfl⟩ := hl
    simpa [Task.taken, Task.uses] using kept.length_le
  · obtain ⟨-, k, moves, after⟩ := (Agenda.Balanced.cons_iff fun c hc => hl ⟨c, hc⟩).mp balanced
    have floor := after.le_base
    have taken := moves.taken_le
    rw [Array.length_toList] at floor
    simp only [Array.length_toList] at taken
    omega

/-- Where modes agree, that holds of the units of every collateral clause about to be evaluated. -/
theorem Underway.takeOwn (hv : job.VoidConsistent units)
    (h : Underway job units (.elaborate c :: rest) m)
    (hc : job.program.tree.kind c = .collateral cs) (hm : job.program.tree.mode c = .void) :
    TakeOwn job (job.program.tree.list cs) m := by
  intro front u back hus m₁ hr
  have begun := h.step ((does_collateral hc hm).append rest)
  have work : collateralWork m.stack.size (job.program.tree.list cs) ++ rest = front.map .unit ++
      (.unit u :: (collateralWork m.stack.size back ++ rest)) := by
    simp [collateralWork, hus]
  simp only [work] at begun
  exact (begun.runs (hr.append _)).takesOwn hv

/-! Runs that are short. -/

/-- A test holds of every state of a run that is over within the given number of steps. -/
def throughout (job : Job) (test : Agenda → Machine → Bool) :
    (steps : Nat) → Agenda → Machine → Bool
  | _, [], m => test [] m
  | 0, _ :: _, _ => false
  | steps + 1, t :: rest, m =>
    test (t :: rest) m &&
      match t.exec job m with
      | .ok work m => throughout job test steps (work ++ rest) m
      | .error s m =>
        match unwind job s rest m with
        | .resumed agenda m => throughout job test steps agenda m
        | .escaped .. => true

variable {test : Agenda → Machine → Bool} {k : Nat}

theorem throughout_here (h : throughout job test k A m = true) : test A m = true := by
  cases A with
  | nil =>
    rw [throughout] at h
    exact h
  | cons t A =>
    cases k with
    | zero => cases h
    | succ k => exact ((Bool.and_eq_true ..).mp h).1

theorem throughout_does (h : throughout job test k x.1 x.2 = true) (hs : Does job x y) :
    ∃ k, throughout job test k y.1 y.2 = true := by
  cases hs with
  | done he =>
    cases k with
    | zero => cases h
    | succ k =>
      obtain ⟨-, on⟩ := (Bool.and_eq_true ..).mp h
      rw [he] at on
      exact ⟨k, on⟩
  | resumed he hu =>
    cases k with
    | zero => cases h
    | succ k =>
      obtain ⟨-, on⟩ := (Bool.and_eq_true ..).mp h
      rw [he] at on
      simp only [hu] at on
      exact ⟨k, on⟩

theorem throughout_runs (h : throughout job test k A m = true) (hr : Runs job (A, m) (B, m')) :
    test B m' = true := by
  have kept {y : Agenda × Machine} (hr : Runs job (A, m) y) :
      ∃ k, throughout job test k y.1 y.2 = true := by
    induction hr with
    | refl => exact ⟨k, h⟩
    | tail _ hs ih =>
      obtain ⟨k, h⟩ := ih
      exact throughout_does h hs
  obtain ⟨k, h⟩ := kept hr
  exact throughout_here h

/-- The next task takes none of the first `d` values. -/
def sparing (d : Nat) : Agenda → Machine → Bool
  | [], _ => true
  | t :: _, m => decide (d + t.taken ≤ m.stack.size)

theorem TakesOwn.of_sparing (h : throughout job (sparing m.stack.size) k [.unit u] m = true) :
    TakesOwn job u m :=
  fun _ _ _ hr => of_decide_eq_true (throughout_runs h hr)

theorem TakeOwn.nil : TakeOwn job [] m :=
  fun front u back h => absurd h (by simp)

theorem TakeOwn.cons (hu : TakesOwn job u m) (hr : Runs job ([.unit u], m) ([], m'))
    (h : TakeOwn job us m') : TakeOwn job (u :: us) m := by
  intro front v back hus m₁ hm
  cases front with
  | nil =>
    cases hus
    cases hm.unique .refl
    exact hu
  | cons w front =>
    obtain ⟨rfl, hrest⟩ := List.cons.inj hus
    have inert : Agenda.Inert (front.map .unit) := by
      intro t ht
      obtain ⟨n, -, rfl⟩ := List.mem_map.mp ht
      rfl
    obtain ⟨m₂, hm₂, hm⟩ := (completes_append (A := [.unit u]) inert).mp hm
    cases hr.unique hm₂
    exact h front v back hrest m₁ hm

theorem HasRoom.of_runs (h : Runs job x ([], m)) : HasRoom job x :=
  fun _ _ he => absurd h he.not_runs

theorem HasRoom.of_escapes {f : Fault} (h : Escapes job x (.fault f) m)
    (hf : f.cause ≠ .expressionStackOverflow job.config.stackLimit) : HasRoom job x := by
  intro f' m' he
  obtain ⟨hs, -⟩ := h.unique he
  cases hs
  exact hf

/-- Some clauses `PAR (3, u)` and `(3, u)`. -/
def rivals : Job where
  program := {
    tree := {
      nodes := #[⟨.literal (.int 3), .int, .dummy⟩, ⟨.skip, .void, .dummy⟩,
        ⟨.literal (.int 0), .int, .dummy⟩,
        -- a clause with a value
        ⟨.serialClause ⟨1⟩ ⟨1, 1⟩, .int, .dummy⟩, ⟨.closed ⟨1⟩ ⟨3⟩, .int, .dummy⟩,
        ⟨.parallel ⟨2, 2⟩, .void, .dummy⟩, ⟨.collateral ⟨2, 2⟩, .void, .dummy⟩,
        -- a clause that should have one
        ⟨.serialClause ⟨1⟩ ⟨0, 1⟩, .int, .dummy⟩, ⟨.closed ⟨1⟩ ⟨7⟩, .int, .dummy⟩,
        ⟨.parallel ⟨4, 2⟩, .void, .dummy⟩, ⟨.collateral ⟨4, 2⟩, .void, .dummy⟩,
        -- a formula that wants an operand
        ⟨.formula (.standard .add) ⟨1⟩ ⟨2⟩, .void, .dummy⟩,
        ⟨.parallel ⟨6, 2⟩, .void, .dummy⟩, ⟨.collateral ⟨6, 2⟩, .void, .dummy⟩]
      lists := #[⟨1⟩, ⟨2⟩, ⟨0⟩, ⟨4⟩, ⟨0⟩, ⟨8⟩, ⟨0⟩, ⟨11⟩]
      modeLists := #[]
      loops := #[]
      alternatives := #[] }
    modes := .new
    scopes := ⟨#[.standard, ⟨some .standard, 1, #[], false⟩]⟩
    labels := ⟨#[]⟩
    interner := .new
    root := ⟨5⟩
    environs := #[] }
  oracle := ModeTable.oracle .new
  config := .default

namespace rivals

def start : Machine := (Session.new rivals none false).machine

theorem underway : Underway rivals (fun _ => False) [.unit rivals.program.root] start :=
  .run (.new none false)

theorem own : TakeOwn rivals [⟨0⟩, ⟨4⟩] start :=
  .cons (.of_sparing (k := 9) rfl) (@runs_of_completed rivals 9 _ _ _ rfl)
    (.cons (.of_sparing (k := 19) rfl) (@runs_of_completed rivals 19 _ _ _ rfl) .nil)

end rivals

/-- `PAR (3, (0))` and `(3, (0))` are evaluated alike. -/
theorem parallel_as_collateral_of_rivals :
    Underway rivals (fun _ => False) [.unit ⟨5⟩] rivals.start ∧
      TakeOwn rivals [⟨0⟩, ⟨4⟩] rivals.start ∧ HasRoom rivals ([.elaborate ⟨6⟩], rivals.start) ∧
      Alike rivals #[] ([.elaborate ⟨5⟩], rivals.start) ([.elaborate ⟨6⟩], rivals.start) := by
  have room : HasRoom rivals ([.elaborate ⟨6⟩], rivals.start) :=
    .of_runs (@runs_of_completed rivals 29 _ _ _ rfl)
  refine ⟨rivals.underway, rivals.own, room, ?_⟩
  exact parallel_as_collateral rivals.underway rfl rfl rfl rfl rfl rivals.own room

/-! Clauses that are not alike. -/

/-- Whatever evaluation of a unit comes to its end in a run leaves what it found on the stack, with one
value on top if its mode is not `VOID`. -/
def Pushes (job : Job) (x : Agenda × Machine) : Prop :=
  ∀ n A m₁ m₂, Runs job x (.unit n :: A, m₁) → Runs job ([.unit n], m₁) ([], m₂) →
    m₁.stack.toList <+: m₂.stack.toList ∧
      m₂.stack.size = m₁.stack.size + (job.program.tree.mode n).worth

/-- Two stacks hold the same integers, and nothing else. -/
def sameIntegers : List Value → List Value → Bool
  | [], [] => true
  | .int a :: S, .int b :: T => a == b && sameIntegers S T
  | _, _ => false

theorem eq_of_sameIntegers {S T : List Value} (h : sameIntegers S T = true) : S = T := by
  fun_induction sameIntegers S T with
  | case1 => rfl
  | case2 a S b T ih =>
    obtain ⟨hab, hST⟩ := (Bool.and_eq_true ..).mp h
    rw [eq_of_beq hab, ih hST]
  | case3 => cases h

/-- The next task is not the evaluation of a unit, or this leaves what it should on a stack of
integers. -/
def pushing (job : Job) (k : Nat) : Agenda → Machine → Bool
  | .unit n :: _, m =>
    match drive job k [.unit n] m with
    | .completed m' => sameIntegers m.stack.toList (m'.stack.toList.take m.stack.size) &&
        m'.stack.size == m.stack.size + (job.program.tree.mode n).worth
    | .escaped .. => true
    | .unfinished .. => false
  | _, _ => true

theorem Pushes.of_pushing {k l : Nat} (h : throughout job (pushing job l) k A m = true) :
    Pushes job (A, m) := by
  intro n B m₁ m₂ hr hm
  have here := throughout_runs h hr
  have ends := @drive_spec job l [.unit n] m₁
  cases hd : drive job l [.unit n] m₁ with
  | completed m' =>
    simp only [pushing, hd] at here ends
    cases hm.unique ends
    obtain ⟨kept, size⟩ := (Bool.and_eq_true ..).mp here
    rw [eq_of_sameIntegers kept]
    exact ⟨List.take_prefix .., eq_of_beq size⟩
  | escaped s m' =>
    simp only [hd] at ends
    exact absurd hm ends.not_runs
  | unfinished B m' =>
    simp only [pushing, hd] at here
    cases here

/-- A parallel and a collateral clause that have the same units and might both be evaluated in a state of
a run, where units that come to their end push what they should and the stack does not reach its
limit. -/
structure Comparable (job : Job) (p c : NodeId) (m : Machine) : Prop where
  underway : ∃ A, Underway job (fun _ => False) A m
  kinds : ∃ us, job.program.tree.kind p = .parallel us ∧ job.program.tree.kind c = .collateral us
  modes : job.program.tree.mode p = .void ∧ job.program.tree.mode c = .void
  pushes : Pushes job ([.elaborate p], m) ∧ Pushes job ([.elaborate c], m)
  room : HasRoom job ([.elaborate p], m) ∧ HasRoom job ([.elaborate c], m)

/-- A unit that fails to push what it should ends both clauses, but the depths that the fault tells are
not the same; and a unit that takes the value of the one before it finds none in the parallel clause. -/
theorem parallel_unlike_collateral :
    (Comparable rivals ⟨9⟩ ⟨10⟩ rivals.start ∧ ∃ f f' m m',
      Escapes rivals ([.elaborate ⟨9⟩], rivals.start) (.fault f) m ∧
      Escapes rivals ([.elaborate ⟨10⟩], rivals.start) (.fault f') m' ∧
      f.cause = .stackImbalance 1 0 ∧ f'.cause = .stackImbalance 2 1) ∧
    Comparable rivals ⟨12⟩ ⟨13⟩ rivals.start ∧ ∃ f m m',
      Escapes rivals ([.elaborate ⟨12⟩], rivals.start) (.fault f) m ∧ f.cause = .stackUnderflow ∧
      Runs rivals ([.elaborate ⟨13⟩], rivals.start) ([], m') := by
  have begun : ∃ A, Underway rivals (fun _ => False) A rivals.start := ⟨_, rivals.underway⟩
  obtain ⟨f, m, hp, hf⟩ : ∃ f m, drive rivals 29 [.elaborate ⟨9⟩] rivals.start =
      .escaped (.fault f) m ∧ f.cause = .stackImbalance 1 0 := ⟨_, _, rfl, rfl⟩
  obtain ⟨f', m', hc, hf'⟩ : ∃ f m, drive rivals 29 [.elaborate ⟨10⟩] rivals.start =
      .escaped (.fault f) m ∧ f.cause = .stackImbalance 2 1 := ⟨_, _, rfl, rfl⟩
  obtain ⟨g, n, gp, hg⟩ : ∃ f m, drive rivals 29 [.elaborate ⟨12⟩] rivals.start =
      .escaped (.fault f) m ∧ f.cause = .stackUnderflow := ⟨_, _, rfl, rfl⟩
  obtain ⟨n', gc⟩ : ∃ m, drive rivals 29 [.elaborate ⟨13⟩] rivals.start = .completed m := ⟨_, rfl⟩
  have hp := escapes_of_escaped hp
  have hc := escapes_of_escaped hc
  have gp := escapes_of_escaped gp
  have gc := runs_of_completed gc
  refine ⟨⟨⟨begun, ⟨_, rfl, rfl⟩, ⟨rfl, rfl⟩, ⟨?_, ?_⟩, .of_escapes hp ?_, .of_escapes hc ?_⟩,
    f, f', m, m', hp, hc, hf, hf'⟩,
    ⟨begun, ⟨_, rfl, rfl⟩, ⟨rfl, rfl⟩, ⟨?_, ?_⟩, .of_escapes gp ?_, .of_runs gc⟩,
    g, n, n', gp, hg, gc⟩
  · exact .of_pushing (k := 29) (l := 19) rfl
  · exact .of_pushing (k := 29) (l := 19) rfl
  · simp [hf]
  · simp [hf']
  · exact .of_pushing (k := 29) (l := 19) rfl
  · exact .of_pushing (k := 29) (l := 19) rfl
  · simp [hg]

end Algol68
