import Algol68.Machine.Unit

/-! What an operation of the machine does, said by what holds of its outcomes. `wp x Q E m` says
that `x`, started in `m`, ends well with `Q` or in a signal with `E`; the lemmas compute it through
the operations that tasks are made of. -/

namespace Algol68

/-- What holds of the evaluation of units and of the end of a statement holds of the tasks of a chain. -/
theorem ChainStep.forall_task {P : Task → Prop} {baseline : Nat} (hu : ∀ n, P (.unit n))
    (hc : P (.cut baseline)) (steps : List ChainStep) : ∀ t ∈ steps.map (·.task baseline), P t := by
  rw [List.forall_mem_map]
  rintro (n | _) -
  · exact hu n
  · exact hc

namespace Exec

variable {α β : Type}

/-- Whatever way `x` ends when started in `m`, `Q` holds of its result or `E` of its signal. -/
def wp (x : Exec α) (Q : α → Machine → Prop) (E : Signal → Machine → Prop) (m : Machine) : Prop :=
  match x m with
  | .ok a m' => Q a m'
  | .error s m' => E s m'

variable {Q : α → Machine → Prop} {E : Signal → Machine → Prop} {m : Machine}

theorem wp_ok {x : Exec α} {a : α} {m' : Machine} (h : wp x Q E m) (hx : x m = .ok a m') :
    Q a m' := by
  simpa [wp, hx] using h

theorem wp_error {x : Exec α} {s : Signal} {m' : Machine} (h : wp x Q E m)
    (hx : x m = .error s m') : E s m' := by
  simpa [wp, hx] using h

theorem exists_of_wp {x : Exec α} (h : wp x Q (fun _ _ => False) m) :
    ∃ a m', x m = .ok a m' ∧ Q a m' := by
  unfold wp at h
  split at h
  · next hx => exact ⟨_, _, hx, h⟩
  · exact h.elim

theorem eq_ok_of_wp {x : Exec α} {a : α} {n : Machine}
    (h : wp x (fun b m' => b = a ∧ m' = n) (fun _ _ => False) m) : x m = .ok a n := by
  obtain ⟨_, _, hx, rfl, rfl⟩ := exists_of_wp h
  exact hx

theorem eq_error_of_wp {x : Exec α} {s : Signal} {n : Machine}
    (h : wp x (fun _ _ => False) (fun s' m' => s' = s ∧ m' = n) m) : x m = .error s n := by
  unfold wp at h
  split at h
  · exact h.elim
  · next hx => rw [hx, h.1, h.2]

theorem wp_mono {x : Exec α} {Q' : α → Machine → Prop} {E' : Signal → Machine → Prop}
    (h : wp x Q E m) (hq : ∀ a m', Q a m' → Q' a m') (he : ∀ s m', E s m' → E' s m') :
    wp x Q' E' m := by
  unfold wp at *
  split at h
  · exact hq _ _ h
  · exact he _ _ h

theorem wp_and {x : Exec α} {Q' : α → Machine → Prop} {E' : Signal → Machine → Prop}
    (h : wp x Q E m) (h' : wp x Q' E' m) :
    wp x (fun a n => Q a n ∧ Q' a n) (fun s n => E s n ∧ E' s n) m := by
  unfold wp at *
  split at h
  · next hx => exact ⟨h, by simpa [hx] using h'⟩
  · next hx => exact ⟨h, by simpa [hx] using h'⟩

/-! The monad. -/

@[simp] theorem wp_pure (a : α) : wp (pure a) Q E m ↔ Q a m := Iff.rfl

@[simp] theorem wp_bind {R : β → Machine → Prop} (x : Exec α) (f : α → Exec β) :
    wp (x >>= f) R E m ↔ wp x (fun a => wp (f a) R E) E m := by
  simp only [wp, bind, EStateM.bind]
  cases x m <;> rfl

@[simp] theorem wp_map {R : β → Machine → Prop} (x : Exec α) (f : α → β) :
    wp (f <$> x) R E m ↔ wp x (fun a => R (f a)) E m := by
  simp only [wp, Functor.map, EStateM.map]
  cases x m <;> rfl

@[simp] theorem wp_get {Q : Machine → Machine → Prop} : wp get Q E m ↔ Q m m := Iff.rfl

@[simp] theorem wp_modify {Q : Unit → Machine → Prop} (f : Machine → Machine) :
    wp (modify f) Q E m ↔ Q () (f m) := Iff.rfl

@[simp] theorem wp_modifyGet (f : Machine → α × Machine) :
    wp (modifyGet f) Q E m ↔ Q (f m).1 (f m).2 := Iff.rfl

@[simp] theorem wp_throw (s : Signal) : wp (throw s : Exec α) Q E m ↔ E s m := Iff.rfl

@[simp] theorem wp_ite (p : Prop) [Decidable p] (x y : Exec α) :
    wp (if p then x else y) Q E m ↔ (p → wp x Q E m) ∧ (¬ p → wp y Q E m) := by
  split <;> simp [*]

/-! The operations. -/

@[simp] theorem wp_fail (c : Cause) : wp (fail c : Exec α) Q E m ↔ E (.fault (.of c)) m := Iff.rfl

@[simp] theorem wp_lift (c : Checked α) :
    wp (lift c) Q E m ↔ (∀ a, c = .ok a → Q a m) ∧ (∀ f, c = .error f → E (.fault f) m) := by
  cases c <;> simp [lift]

@[simp] theorem wp_depth {Q : Nat → Machine → Prop} : wp depth Q E m ↔ Q m.stack.size m := Iff.rfl

@[simp] theorem wp_push (job : Job) (v : Value) {Q : Unit → Machine → Prop} :
    wp (push job v) Q E m ↔
      (job.config.stackLimit ≤ m.stack.size →
        E (.fault (.of (.expressionStackOverflow job.config.stackLimit))) m) ∧
      (¬ job.config.stackLimit ≤ m.stack.size → Q () { m with stack := m.stack.push v }) := by
  simp [push]

@[simp] theorem wp_pop {Q : Value → Machine → Prop} :
    wp pop Q E m ↔
      (∀ S v, m.stack = S.push v → Q v { m with stack := S }) ∧
      (m.stack = #[] → E (.fault (.of .stackUnderflow)) m) := by
  unfold pop
  simp only [wp_bind, wp_get]
  by_cases h : m.stack = #[]
  · simp [h]
  · obtain ⟨S, v, hS⟩ := Array.exists_push_of_ne_empty h
    simp only [hS, Array.back?_push, wp_bind, wp_modify, Array.pop_push, wp_pure,
      Array.push_eq_push]
    constructor
    · rintro h'
      refine ⟨?_, by simp⟩
      rintro T w ⟨rfl, rfl⟩
      exact h'
    · intro h'
      exact h'.1 S v ⟨rfl, rfl⟩

theorem pop_eq {S : Array Value} {v : Value} (h : m.stack = S.push v) :
    pop m = .ok v { m with stack := S } := by
  apply eq_ok_of_wp
  rw [wp_pop]
  constructor
  · intro T w hT
    obtain ⟨rfl, rfl⟩ := Array.push_eq_push.mp (h.symm.trans hT)
    exact ⟨rfl, rfl⟩
  · intro he
    simp [he] at h

@[simp] theorem wp_popMany (n : Nat) {Q : List Value → Machine → Prop} :
    wp (popMany n) Q E m ↔
      (m.stack.size < n → E (.fault (.of .stackUnderflow)) m) ∧
      (n ≤ m.stack.size →
        Q (m.stack.toList.drop (m.stack.size - n))
          { m with stack := m.stack.shrink (m.stack.size - n) }) := by
  have taken : (m.stack.extract (m.stack.size - n) m.stack.size).toList =
      m.stack.toList.drop (m.stack.size - n) := by
    simp [List.take_of_length_le]
  simp only [popMany, wp_bind, wp_get, wp_ite, wp_fail, wp_modify, wp_pure, taken, Nat.not_lt]

@[simp] theorem wp_cut (baseline : Nat) {Q : Unit → Machine → Prop} :
    wp (cut baseline) Q E m ↔ Q () { m with stack := m.stack.shrink baseline } := Iff.rfl

@[simp] theorem wp_leave (depth : Nat) {Q : Unit → Machine → Prop} :
    wp (leave depth) Q E m ↔ Q () { m with frames := m.frames.truncate depth } := Iff.rfl

@[simp] theorem wp_enterAt (job : Job) (scope : ScopeId) (link : Nat) {Q : Nat → Machine → Prop} :
    wp (enterAt job scope link) Q E m ↔
      (∀ u, m.frames.checkRoom job.config.frameLimit = .ok u →
        Q m.frames.depth { m with
          frames := m.frames.push scope (job.program.scopes.get scope).level (some link)
            (job.program.freshLocals scope) }) ∧
      (∀ f, m.frames.checkRoom job.config.frameLimit = .error f → E (.fault f) m) := by
  simp [enterAt]

@[simp] theorem wp_load (slot : Slot) {Q : Value → Machine → Prop} :
    wp (load slot) Q E m ↔
      (∀ v, m.frames.load slot = .ok v → Q v m) ∧
      (∀ f, m.frames.load slot = .error f → E (.fault f) m) := by
  simp [load]

@[simp] theorem wp_store (slot : Slot) (v : Value) {Q : Unit → Machine → Prop} :
    wp (store slot v) Q E m ↔
      (∀ i, m.frames.holder slot v = .ok i →
        Q () { m with frames := m.frames.setLocal i slot.offset v }) ∧
      (∀ f, m.frames.holder slot v = .error f → E (.fault f) m) := by
  simp [store]

@[simp] theorem wp_allocate (v : Value) {Q : Name → Machine → Prop} :
    wp (allocate v) Q E m ↔
      Q (m.store.allocate v).1 { m with store := (m.store.allocate v).2 } := Iff.rfl

@[simp] theorem wp_read (n : Name) {Q : Value → Machine → Prop} :
    wp (read n) Q E m ↔
      (∀ v, m.store.get n = .ok v → Q v m) ∧
      (∀ f, m.store.get n = .error f → E (.fault f) m) := by
  simp [read]

@[simp] theorem wp_assign (n : Name) (v : Value) {Q : Unit → Machine → Prop} :
    wp (assign n v) Q E m ↔
      (∀ c, m.store.assigned n v = .ok c → Q () { m with store := m.store.put n.cell c }) ∧
      (∀ f, m.store.assigned n v = .error f → E (.fault f) m) := by
  simp [assign]

@[simp] theorem wp_count (f : Counters → Counters) {Q : Unit → Machine → Prop} :
    wp (count f) Q E m ↔ Q () { m with counters := m.counters.map f } := Iff.rfl

@[simp] theorem wp_annotate (f : Annotations → Annotations) {Q : Unit → Machine → Prop} :
    wp (annotate f) Q E m ↔ Q () { m with annotations := f m.annotations } := Iff.rfl

@[simp] theorem wp_transput (f : Transput → Transput) {Q : Unit → Machine → Prop} :
    wp (transput f) Q E m ↔ Q () { m with transput := f m.transput } := Iff.rfl

/-! Choosing one of several units. -/

variable {job : Job}

theorem nth_mem {ns : List NodeId} {k : Int64} {n : NodeId} (h : nth ns k = some n) : n ∈ ns := by
  unfold nth at h
  split at h
  · exact List.mem_of_getElem? h
  · cases h

theorem accepting_mem {variant : ModeId} {ns : List NodeId} {a : Alternative} {mode : ModeId}
    (h : accepting job variant ns = .ok (some (a, mode))) :
    ∃ n ∈ ns, ∃ id, job.program.tree.kind n = .conformityAlternative id ∧
      a = job.program.tree.alternative id := by
  induction ns with
  | nil => cases h
  | cons n ns ih =>
    simp only [accepting] at h
    cases hk : job.program.tree.kind n with
    | conformityAlternative id =>
      simp only [hk] at h
      split at h
      · cases h
        exact ⟨n, List.mem_cons_self .., id, hk, rfl⟩
      · obtain ⟨k, hmem, hk⟩ := ih h
        exact ⟨k, List.mem_cons_of_mem _ hmem, hk⟩
    | _ => simp only [hk] at h; cases h

theorem accepting_error {variant : ModeId} {ns : List NodeId} {f : Fault}
    (h : accepting job variant ns = .error f) : ∃ kind, f.cause = .unknownNodeKind kind := by
  induction ns with
  | nil => cases h
  | cons n ns ih =>
    simp only [accepting] at h
    split at h
    · split at h
      · cases h
      · exact ih h
    · cases h
      exact ⟨_, rfl⟩

end Exec

end Algol68
