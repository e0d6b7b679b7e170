import Algol68.Proofs.Collateral.Footing

/-! Operations that do not see what they stand on. Started with enough values above the footing, such an
operation does the same on every footing, unless the stack reaches its limit; it reaches the limit on a
higher footing if it does on a lower one. -/

namespace Algol68.Exec

variable {α β : Type} {job : Job} {F : Footing} {k : Nat}

/-- The stack reaches its limit. -/
def Overflows (job : Job) (x : Exec α) (m : Machine) : Prop :=
  ∃ m', x m = .error (.fault (.of (.expressionStackOverflow job.config.stackLimit))) m'

/-- The operation ends in the same way on every footing that is no higher than `F`, or the stack reaches
its limit on `F`. What it gives on a footing is told by `f`. -/
def LevelAt (job : Job) (F : Footing) (f : Footing → α → α) (x : Footing → Exec α) (m : Machine) :
    Prop :=
  Overflows job (x F) (F.machine m) ∨
    ∃ o : EStateM.Result Signal Machine α, ∀ G, G.Below F → x G (G.machine m) = G.result (f G) o

/-- The operation does so wherever there are `k` values above the footing. -/
def Level (job : Job) (F : Footing) (k : Nat) (f : Footing → α → α) (x : Footing → Exec α) : Prop :=
  ∀ m, k ≤ m.stack.size → LevelAt job F f x m

/-- What the operation gives is the same on every footing, too. -/
abbrev Steady (job : Job) (F : Footing) (k : Nat) (x : Footing → Exec α) : Prop :=
  Level job F k (fun _ a => a) x

theorem LevelAt.bind {f : Footing → α → α} {f' : Footing → β → β} {x : Footing → Exec α}
    {g : Footing → α → Exec β} {m : Machine} (hx : LevelAt job F f x m)
    (hg : ∀ a m', LevelAt job F f' (fun G => g G (f G a)) m') :
    LevelAt job F f' (fun G => x G >>= g G) m := by
  rcases hx with ⟨m', hx⟩ | ⟨o, ho⟩
  · refine .inl ⟨m', ?_⟩
    simp only [Bind.bind, EStateM.bind, hx]
  · cases o with
    | error s m' =>
      refine .inr ⟨.error s m', fun G hG => ?_⟩
      simp only [Bind.bind, EStateM.bind, ho G hG, Footing.result]
    | ok a m' =>
      have first (G : Footing) (hG : G.Below F) :
          (x G >>= g G) (G.machine m) = g G (f G a) (G.machine m') := by
        simp only [Bind.bind, EStateM.bind, ho G hG, Footing.result]
      rcases hg a m' with ⟨m'', hm⟩ | ⟨o, ho⟩
      · exact .inl ⟨m'', (first F (.refl F)).trans hm⟩
      · exact .inr ⟨o, fun G hG => (first G hG).trans (ho G hG)⟩

namespace Level

variable {f : Footing → α → α} {g : Footing → β → Exec α}

theorem bind {f' : Footing → β → β} {x : Footing → Exec β} (hx : Level job F k f' x)
    (hg : ∀ b, Level job F 0 f (fun G => g G (f' G b))) :
    Level job F k f (fun G => x G >>= g G) :=
  fun m hm => (hx m hm).bind fun b m' => hg b m' (Nat.zero_le _)

theorem pure (a : α) : Level job F k f (fun G => Pure.pure (f G a)) :=
  fun m _ => .inr ⟨.ok a m, fun _ _ => rfl⟩

theorem throw {s : Footing → Signal} (s₀ : Signal) (h : ∀ G : Footing, s G = G.signal s₀) :
    Level job F k f (fun G => throw (s G)) :=
  fun m _ => .inr ⟨.error s₀ m, fun G _ => congrArg (EStateM.Result.error · _) (h G)⟩

theorem signal_of_clean {e : Fault} (h : e.cause.ofStack = false) (G : Footing) :
    G.signal (.fault e) = .fault e :=
  congrArg Signal.fault (Fault.above_of_not_ofStack h _)

theorem fails {c : Cause} (h : c.ofStack = false) : Level job F k f (fun _ => fail c) :=
  throw _ fun G => (signal_of_clean h G).symm

theorem lift {c : Checked α} (h : ∀ e, c = .error e → e.cause.ofStack = false) :
    Steady job F k (fun _ => Exec.lift c) := by
  cases c with
  | ok a => exact pure a
  | error e => exact throw _ fun G => (signal_of_clean (h e rfl) G).symm

theorem ordinary {c : Checked α} (h : Ordinary c) : Steady job F k (fun _ => Exec.lift c) :=
  lift fun _ he => Cause.ofStack_of_ordinary (h.cause he)

theorem ofLocal {c : Checked α} (h : ∀ e, c = .error e → e.cause.ofLocal = true) :
    Steady job F k (fun _ => Exec.lift c) :=
  lift fun e he => Cause.ofStack_of_local (h e he)

theorem mismatch {expected : String} {v : Value} :
    Level job F k f (fun _ => Exec.lift (Value.mismatch expected v)) :=
  throw _ fun G => (signal_of_clean rfl G).symm

theorem fails_bind {c : Cause} (h : c.ofStack = false) :
    Level job F k f (fun G => fail c >>= g G) :=
  fails h

theorem mismatch_bind {expected : String} {v : Value} :
    Level job F k f (fun G => Exec.lift (Value.mismatch expected v) >>= g G) :=
  throw _ fun G => (signal_of_clean rfl G).symm

theorem seen {y : Footing → Machine → Exec α}
    (h : ∀ m, k ≤ m.stack.size → LevelAt job F f (fun G => y G (G.machine m)) m) :
    Level job F k f (fun G => get >>= y G) := h

theorem get {y : Footing → Machine → Exec α} (hy : ∀ G m, y G (G.machine m) = y G m)
    (h : ∀ m, Level job F k f (fun G => y G m)) : Level job F k f (fun G => get >>= y G) := by
  refine seen fun m hm => ?_
  simp only [hy]
  exact h m m hm

theorem modify {u : Machine → Machine} (h : ∀ (G : Footing) m, u (G.machine m) = G.machine (u m)) :
    Steady job F k (fun _ => (modify u : Exec Unit)) :=
  fun m _ => .inr ⟨.ok () (u m), fun G _ => congrArg (EStateM.Result.ok ()) (h G m)⟩

theorem ite {p : Prop} [Decidable p] {x y : Footing → Exec α} (hx : Level job F k f x)
    (hy : Level job F k f y) : Level job F k f (fun G => if p then x G else y G) := by
  split
  · exact hx
  · exact hy

/-! The operations on the stack. -/

theorem popped {g : Footing → Value → Exec α} (h : ∀ v, Level job F k f (fun G => g G v)) :
    Level job F (k + 1) f (fun G => pop >>= g G) := by
  intro m hm
  have hne : m.stack ≠ #[] := by
    rintro hS
    simp [hS] at hm
  obtain ⟨S, v, hS⟩ := Array.exists_push_of_ne_empty hne
  have first (G : Footing) :
      (pop >>= g G) (G.machine m) = g G v (G.machine { m with stack := S }) := by
    have top : (G.machine m).stack = (G.values ++ S).push v := by
      rw [Array.push_append, ← hS]
      rfl
    simp only [Bind.bind, EStateM.bind, pop_eq top]
    rfl
  have below : k ≤ ({ m with stack := S } : Machine).stack.size := by
    simpa [hS] using hm
  rcases h v _ below with ⟨m', hx⟩ | ⟨o, ho⟩
  · exact .inl ⟨m', (first F).trans hx⟩
  · exact .inr ⟨o, fun G hG => (first G).trans (ho G hG)⟩

theorem popMany (n : Nat) : Steady job F n (fun _ => Exec.popMany n) := by
  intro m hm
  refine .inr ⟨.ok (m.stack.toList.drop (m.stack.size - n))
    { m with stack := m.stack.shrink (m.stack.size - n) }, fun G _ => ?_⟩
  apply eq_ok_of_wp
  rw [wp_popMany]
  have size : (G.machine m).stack.size - n = m.stack.size - n + G.height := by
    rw [G.machine_size]
    omega
  rw [size, G.machine_shrink]
  refine ⟨fun h => ?_, fun _ => ⟨?_, rfl⟩⟩
  · rw [G.machine_size] at h
    omega
  · have values : (G.machine m).stack.toList = G.values.toList ++ m.stack.toList :=
      Array.toList_append
    rw [values, List.drop_append, List.drop_of_length_le (by simp [Footing.height])]
    simp [Footing.height]

theorem push (v : Value) : Steady job F k (fun _ => Exec.push job v) := by
  intro m _
  by_cases limit : job.config.stackLimit ≤ m.stack.size + F.height
  · refine .inl ⟨F.machine m, eq_error_of_wp ?_⟩
    rw [wp_push, F.machine_size]
    exact ⟨fun _ => ⟨rfl, rfl⟩, fun h => absurd limit h⟩
  · refine .inr ⟨.ok () { m with stack := m.stack.push v }, fun G hG => eq_ok_of_wp ?_⟩
    rw [wp_push, G.machine_size]
    have := hG.height
    refine ⟨fun h => by omega, fun _ => ⟨rfl, ?_⟩⟩
    simp only [Footing.machine, Array.push_append]

theorem depth : Level job F k (fun G d => d + G.height) (fun _ => Exec.depth) := by
  intro m _
  refine .inr ⟨.ok m.stack.size m, fun G _ => ?_⟩
  exact congrArg (EStateM.Result.ok · (G.machine m)) (G.machine_size m)

theorem depthAt {m : Machine} {y : Footing → Nat → Exec α}
    (h : LevelAt job F f (fun G => y G (m.stack.size + G.height)) m) :
    LevelAt job F f (fun G => Exec.depth >>= y G) m := by
  simp only [← Footing.machine_size] at h
  exact h

theorem cut (baseline : Nat) : Steady job F k (fun G => Exec.cut (baseline + G.height)) := by
  intro m _
  refine .inr ⟨.ok () { m with stack := m.stack.shrink baseline }, fun G _ => ?_⟩
  refine congrArg (EStateM.Result.ok ()) ?_
  simp only [G.machine_shrink]
  rfl

theorem popInt : Steady job F 1 (fun _ => Exec.popInt) :=
  popped fun v => ordinary v.asInt_ordinary

theorem popBool : Steady job F 1 (fun _ => Exec.popBool) :=
  popped fun v => ordinary v.asBool_ordinary

theorem popRow : Steady job F 1 (fun _ => Exec.popRow) := by
  refine popped fun v => ?_
  cases v with
  | name n =>
    exact get (fun _ _ => rfl) fun m =>
      ordinary ((m.store.get_ordinary n).bind Value.asRow_ordinary)
  | _ => exact ordinary (Value.asRow_ordinary _)

theorem pushUndefined (mode : ModeId) : Steady job F k (fun _ => Exec.pushUndefined job mode) :=
  ite (pure ()) (push _)

/-! The operations on frames and on what is stored. -/

theorem enterAt (scope : ScopeId) (link : Nat) :
    Steady job F k (fun _ => Exec.enterAt job scope link) := by
  refine get (fun G m => by simp only [G.machine_frames, G.frames_checkRoom]) fun m => ?_
  refine bind (lift fun e he => ?_) fun _ => ?_
  · simp only [FrameStack.checkRoom] at he
    split at he <;> cases he
    rfl
  · refine get (fun G m => by simp only [G.machine_frames, G.frames_depth]) fun m => ?_
    refine bind (modify fun G m => ?_) fun _ => pure m.frames.depth
    simp [Footing.machine]

theorem enter (scope : ScopeId) : Steady job F k (fun _ => Exec.enter job scope) :=
  get (fun G m => by simp only [G.machine_frames, G.frames_top]) fun _ =>
    bind (ofLocal fun _ => FrameStack.top_error) fun link => enterAt scope link

theorem leave (depth : Nat) : Steady job F k (fun _ => Exec.leave depth) :=
  modify fun G m => by simp [Footing.machine]

theorem resetLocals (index : Nat) : Steady job F k (fun _ => Exec.resetLocals job index) := by
  refine modify fun G m => ?_
  refine congrArg (fun s => { G.machine m with frames := s }) (G.frames_modify m.frames index ?_).symm
  intro f _
  unfold Footing.frame
  split <;> rfl

theorem load (slot : Slot) : Steady job F k (fun _ => Exec.load slot) :=
  get (fun G m => by simp only [G.machine_frames, G.frames_load]) fun _ =>
    ofLocal fun _ => FrameStack.load_error

theorem store (slot : Slot) (v : Value) : Steady job F k (fun _ => Exec.store slot v) := by
  refine get (fun G m => by simp only [G.machine_frames, G.frames_holder]) fun m => ?_
  refine bind (ofLocal fun _ => FrameStack.holder_error) fun index => modify fun G m => ?_
  simp [Footing.machine]

theorem allocate (v : Value) : Steady job F k (fun _ => Exec.allocate v) :=
  fun m _ => .inr ⟨.ok (m.store.allocate v).1 { m with store := (m.store.allocate v).2 },
    fun _ _ => rfl⟩

theorem read (n : Name) : Steady job F k (fun _ => Exec.read n) :=
  get (fun _ _ => rfl) fun m => ordinary (m.store.get_ordinary n)

theorem assign (n : Name) (v : Value) : Steady job F k (fun _ => Exec.assign n v) :=
  get (fun _ _ => rfl) fun m => bind (ordinary (m.store.assigned_ordinary n v)) fun _ =>
    modify fun _ _ => rfl

theorem count (u : Counters → Counters) : Steady job F k (fun _ => Exec.count u) :=
  modify fun _ _ => rfl

theorem annotate (u : Annotations → Annotations) : Steady job F k (fun _ => Exec.annotate u) :=
  modify fun _ _ => rfl

theorem transput (u : Transput → Transput) : Steady job F k (fun _ => Exec.transput u) :=
  modify fun _ _ => rfl

end Level

end Algol68.Exec
