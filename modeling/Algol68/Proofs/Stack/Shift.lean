import Algol68.Proofs.Machine.Outcome
import Algol68.Proofs.Stack.Effect
import Algol68.Proofs.Value.Ordinary

/-! Operations on top of a part of the expression stack that they keep. Each takes a number of values
and leaves a number of values, and where it fails it does not fail for want of values. -/

namespace Algol68

/-- Whether a cause speaks of the number of values on the expression stack. -/
def Cause.ofStack : Cause → Bool
  | .stackUnderflow | .stackImbalance .. => true
  | _ => false

theorem Cause.ofStack_of_ordinary {c : Cause} (h : c.ordinary = true) : c.ofStack = false := by
  cases c <;> simp_all [ordinary, ofStack]

theorem Cause.ofStack_of_local {c : Cause} (h : c.ofLocal = true) : c.ofStack = false := by
  cases c <;> simp_all [ofLocal, ofStack]

/-- The signal does not speak of the number of values on the expression stack. -/
def Signal.Clean (s : Signal) : Prop := ∀ f, s = .fault f → f.cause.ofStack = false

@[simp] theorem Signal.clean_jump (j : Jump) : (Signal.jump j).Clean := fun _ h => nomatch h

@[simp] theorem Signal.clean_fault (f : Fault) :
    (Signal.fault f).Clean ↔ f.cause.ofStack = false := by
  constructor
  · exact fun h => h f rfl
  · rintro h g ⟨⟩
    exact h

@[simp] theorem Fault.of_cause (c : Cause) : (Fault.of c).cause = c := rfl

namespace Exec

variable {α β : Type} {P : List Value} {m : Machine} {u l a b : Nat}

/-- Where there are `uses` values above `P`, the operation replaces them by `leaves` values. -/
def Shifts (P : List Value) (x : Exec α) (uses leaves : Nat) : Prop :=
  ∀ m, P <+: m.stack.toList → P.length + uses ≤ m.stack.size →
    wp x (fun _ m' => P <+: m'.stack.toList ∧ m'.stack.size + uses = m.stack.size + leaves)
      (fun s m' => P <+: m'.stack.toList ∧ s.Clean) m

/-- The operation leaves the stack alone. -/
def Neutral (x : Exec α) : Prop :=
  ∀ m, wp x (fun _ m' => m'.stack = m.stack) (fun s m' => m'.stack = m.stack ∧ s.Clean) m

theorem Neutral.shifts {x : Exec α} (h : Neutral x) : Shifts P x u u := by
  intro m hP _
  refine wp_mono (h m) (fun _ m' hm => ?_) fun s m' hm => ?_
  · rw [hm]
    exact ⟨hP, rfl⟩
  · rw [hm.1]
    exact ⟨hP, hm.2⟩

theorem Neutral.bind {x : Exec α} {f : α → Exec β} (hx : Neutral x) (hf : ∀ a, Neutral (f a)) :
    Neutral (x >>= f) := by
  intro m
  rw [wp_bind]
  refine wp_mono (hx m) (fun a m' hm => ?_) fun _ _ hm => hm
  rw [← hm]
  exact hf a m'

namespace Shifts

theorem bind (u' : Nat) {x : Exec α} {f : α → Exec β} (hx : Shifts P x a b)
    (hf : ∀ v, Shifts P (f v) u' l) (ha : a ≤ u) (hu : u' + a = u + b) :
    Shifts P (x >>= f) u l := by
  intro m hP hd
  rw [wp_bind]
  refine wp_mono (hx m hP (by omega)) (fun v m' hm => ?_) fun _ _ hm => hm
  refine wp_mono (hf v m' hm.1 (by omega)) (fun _ m'' hm' => ⟨hm'.1, ?_⟩) fun _ _ hm' => hm'
  omega

theorem neutral {x : Exec α} {f : α → Exec β} (hx : Neutral x) (hf : ∀ v, Shifts P (f v) u l) :
    Shifts P (x >>= f) u l :=
  bind u (hx.shifts (u := u)) hf (Nat.le_refl _) rfl

end Shifts

/-! The operations that leave the stack alone. -/

theorem pure_neutral (v : α) : Neutral (pure v : Exec α) := fun _ => rfl

theorem get_neutral : Neutral get := fun _ => rfl

theorem lift_neutral_of {c : Checked α} (h : ∀ f, c = .error f → f.cause.ofStack = false) :
    Neutral (lift c) := by
  intro m
  rw [wp_lift]
  exact ⟨fun _ _ => rfl, fun f hf => ⟨rfl, (Signal.clean_fault f).mpr (h f hf)⟩⟩

theorem lift_neutral {c : Checked α} (h : Ordinary c) : Neutral (lift c) :=
  lift_neutral_of fun _ hf => Cause.ofStack_of_ordinary (h.cause hf)

theorem lift_local_neutral {c : Checked α} (h : ∀ f, c = .error f → f.cause.ofLocal = true) :
    Neutral (lift c) :=
  lift_neutral_of fun f hf => Cause.ofStack_of_local (h f hf)

theorem modify_neutral {f : Machine → Machine} (h : ∀ m, (f m).stack = m.stack) :
    Neutral (modify f : Exec Unit) := h

theorem read_neutral (n : Name) : Neutral (read n) :=
  get_neutral.bind fun m => lift_neutral (m.store.get_ordinary n)

theorem allocate_neutral (v : Value) : Neutral (allocate v) := fun _ => rfl

theorem assign_neutral (n : Name) (v : Value) : Neutral (assign n v) :=
  get_neutral.bind fun m => (lift_neutral (m.store.assigned_ordinary n v)).bind fun _ =>
    modify_neutral fun _ => rfl

theorem load_neutral (slot : Slot) : Neutral (load slot) :=
  get_neutral.bind fun _ => lift_local_neutral fun _ => FrameStack.load_error

theorem store_neutral (slot : Slot) (v : Value) : Neutral (store slot v) :=
  get_neutral.bind fun _ => (lift_local_neutral fun _ => FrameStack.holder_error).bind fun _ =>
    modify_neutral fun _ => rfl

theorem enterAt_neutral (job : Job) (scope : ScopeId) (link : Nat) :
    Neutral (enterAt job scope link) := by
  refine get_neutral.bind fun m => Neutral.bind (lift_neutral_of fun f hf => ?_) fun _ =>
    get_neutral.bind fun m => Neutral.bind (modify_neutral fun _ => rfl) fun _ => pure_neutral _
  simp only [FrameStack.checkRoom] at hf
  split at hf <;> cases hf
  rfl

theorem enter_neutral (job : Job) (scope : ScopeId) : Neutral (enter job scope) :=
  get_neutral.bind fun _ => (lift_local_neutral fun _ => FrameStack.top_error).bind fun _ =>
    enterAt_neutral job scope _

/-! The operations on the stack. -/

theorem prefix_of_push {S : Array Value} {v : Value} (hP : P <+: (S.push v).toList)
    (hd : P.length ≤ S.size) : P <+: S.toList := by
  rw [Array.toList_push] at hP
  exact List.prefix_of_prefix_length_le hP (List.prefix_append ..) (by simpa using hd)

theorem prefix_shrink {S : Array Value} (hP : P <+: S.toList) {n : Nat} (hn : P.length ≤ n) :
    P <+: (S.shrink n).toList := by
  rw [Array.toList_shrink]
  exact List.prefix_take_iff.mpr ⟨hP, hn⟩

theorem pop_shifts : Shifts P pop 1 0 := by
  intro m hP hd
  rw [wp_pop]
  constructor
  · intro S v hS
    rw [hS, Array.size_push] at hd
    rw [hS] at hP ⊢
    exact ⟨prefix_of_push hP (Nat.le_of_succ_le_succ hd), by simp⟩
  · intro hS
    simp [hS] at hd

theorem push_shifts (job : Job) (v : Value) : Shifts P (push job v) 0 1 := by
  intro m hP hd
  rw [wp_push]
  refine ⟨fun _ => ⟨hP, by simp [Cause.ofStack]⟩, fun _ => ⟨?_, by simp⟩⟩
  rw [Array.toList_push]
  exact hP.trans (List.prefix_append ..)

theorem popMany_shifts (n : Nat) : Shifts P (popMany n) n 0 := by
  intro m hP hd
  rw [wp_popMany]
  refine ⟨fun h => by omega, fun h => ⟨prefix_shrink hP (by omega), ?_⟩⟩
  simp only [Array.size_shrink]
  omega

theorem popInt_shifts : Shifts P popInt 1 0 :=
  pop_shifts.bind 0 (fun v => (lift_neutral v.asInt_ordinary).shifts) (by omega) (by omega)

theorem popBool_shifts : Shifts P popBool 1 0 :=
  pop_shifts.bind 0 (fun v => (lift_neutral v.asBool_ordinary).shifts) (by omega) (by omega)

theorem popRow_shifts : Shifts P popRow 1 0 := by
  refine pop_shifts.bind 0 (fun v => ?_) (by omega) (by omega)
  split
  · exact (get_neutral.bind fun m => lift_neutral
      ((m.store.get_ordinary _).bind Value.asRow_ordinary)).shifts
  · exact (lift_neutral (Value.asRow_ordinary _)).shifts

theorem pushUndefined_shifts (job : Job) (mode : ModeId) :
    Shifts P (pushUndefined job mode) 0 mode.worth := by
  unfold pushUndefined
  split
  · next h =>
    rw [h]
    exact (pure_neutral ()).shifts
  · next h =>
    rw [ModeId.worth_of_ne h]
    exact push_shifts job _

/-! Tasks: what they leave is what the stack holds once their work is done. -/

variable {t : Tree}

def Balances (t : Tree) (P : List Value) (x : Exec Agenda) (uses leaves : Nat) : Prop :=
  ∀ m, P <+: m.stack.toList → P.length + uses ≤ m.stack.size →
    wp x
      (fun work m' => P <+: m'.stack.toList ∧ ∀ e, e + uses = m.stack.size + leaves →
        Agenda.Balanced t P.length m'.stack.size work e)
      (fun s m' => P <+: m'.stack.toList ∧ s.Clean) m

namespace Balances

theorem bind (u' : Nat) {x : Exec α} {f : α → Exec Agenda} (hx : Shifts P x a b)
    (hf : ∀ v, Balances t P (f v) u' l) (ha : a ≤ u) (hu : u' + a = u + b) :
    Balances t P (x >>= f) u l := by
  intro m hP hd
  rw [wp_bind]
  refine wp_mono (hx m hP (by omega)) (fun v m' hm => ?_) fun _ _ hm => hm
  refine wp_mono (hf v m' hm.1 (by omega)) (fun _ m'' hm' => ⟨hm'.1, fun e he => ?_⟩)
    fun _ _ hm' => hm'
  exact hm'.2 e (by omega)

theorem neutral {x : Exec α} {f : α → Exec Agenda} (hx : Neutral x)
    (hf : ∀ v, Balances t P (f v) u l) : Balances t P (x >>= f) u l :=
  bind u (hx.shifts (u := u)) hf (Nat.le_refl _) rfl

theorem lift {c : Checked α} {f : α → Exec Agenda}
    (hc : ∀ e, c = .error e → e.cause.ofStack = false)
    (hf : ∀ v, c = .ok v → Balances t P (f v) u l) : Balances t P (Exec.lift c >>= f) u l := by
  intro m hP hd
  rw [wp_bind, wp_lift]
  constructor
  · intro v hv
    exact hf v hv m hP hd
  · intro e he
    exact ⟨hP, (Signal.clean_fault e).mpr (hc e he)⟩

theorem done : Balances t P (pure []) u u := fun _ hP _ =>
  ⟨hP, fun _ he => Agenda.Balanced.nil_iff.mpr (Nat.add_right_cancel he).symm⟩

theorem work {A : Agenda} (h : ∀ d e, P.length + u ≤ d → e + u = d + l →
    Agenda.Balanced t P.length d A e) : Balances t P (pure A) u l :=
  fun m hP hd => ⟨hP, fun e he => h m.stack.size e hd he⟩

theorem unit {n : NodeId} (h : (t.mode n).worth = l) : Balances t P (pure [.unit n]) 0 l :=
  work fun d e hd he => .unit hd (Agenda.Balanced.nil_iff.mpr (by omega))

theorem of_error {x : Exec Agenda}
    (h : ∀ m, wp x (fun _ _ => False) (fun s m' => m'.stack = m.stack ∧ s.Clean) m) :
    Balances t P x u l := by
  intro m hP _
  refine wp_mono (h m) (fun _ _ hm => hm.elim) fun s m' hm => ?_
  rw [hm.1]
  exact ⟨hP, hm.2⟩

theorem fails {c : Cause} (h : c.ofStack = false) : Balances t P (fail c) u l :=
  of_error fun _ => ⟨rfl, (Signal.clean_fault _).mpr h⟩

theorem fails_bind {c : Cause} {f : α → Exec Agenda} (h : c.ofStack = false) :
    Balances t P (fail c >>= f) u l :=
  of_error fun _ => ⟨rfl, (Signal.clean_fault _).mpr h⟩

theorem mismatch {expected : String} {v : Value} :
    Balances t P (Exec.lift (Value.mismatch expected v)) u l :=
  of_error fun _ => ⟨rfl, (Signal.clean_fault _).mpr rfl⟩

theorem mismatch_bind {expected : String} {v : Value} {f : α → Exec Agenda} :
    Balances t P (Exec.lift (Value.mismatch expected v) >>= f) u l :=
  of_error fun _ => ⟨rfl, (Signal.clean_fault _).mpr rfl⟩

theorem shifts {x : Exec α} (hx : Shifts P x u l) : Balances t P (do let _ ← x; return []) u l := by
  intro m hP hd
  rw [wp_bind]
  refine wp_mono (hx m hP hd) (fun _ m' hm => ⟨hm.1, fun e he => ?_⟩) fun _ _ hm => hm
  rw [Agenda.Balanced.nil_iff]
  omega

end Balances

end Exec

end Algol68
