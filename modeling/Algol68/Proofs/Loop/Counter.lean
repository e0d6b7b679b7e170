import Algol68.Proofs.Loop.Isolation

/-! The counter of a loop in the frames. An iteration stores it first and makes the locals of the body as
new then, so it sees the counter where this is found in any frame but that of the body. -/

namespace Algol68

variable {job : Job}

/-- The counter, if it is named, is found outside of the frame of the body. -/
def Iteration.FindsCounter (i : Iteration) (s : FrameStack) : Prop :=
  ∀ slot, i.parts.counter = some slot → ∃ k, s.holder slot .void = .ok k ∧ k ≠ i.body

namespace FrameStack

variable {s s' : FrameStack} {slot : Slot} {k : Nat}

theorem holder_ok_iff (s : FrameStack) (slot : Slot) (v : Value) : s.holder slot v = .ok k ↔
    s.resolve slot.level = .ok k ∧ ∃ f, s.frames[k]? = some f ∧ slot.offset < f.locals.size := by
  rw [holder]
  cases hr : s.resolve slot.level with
  | error e => simp [bind, Except.bind]
  | ok j =>
    simp only [bind, Except.bind, pure, Except.pure, Except.ok.injEq]
    split
    · next hv =>
      obtain ⟨f, hf, hv⟩ := Option.bind_eq_some_iff.mp hv
      have inside := (Array.getElem?_eq_some_iff.mp hv).1
      simp only [Except.ok.injEq]
      constructor
      · rintro rfl
        exact ⟨rfl, f, hf, inside⟩
      · exact fun h => h.1
    · next hv =>
      simp only [Value.mismatch, fault, reduceCtorEq, false_iff, not_and]
      rintro rfl ⟨f, hf, inside⟩
      simp [hf, inside] at hv

/-- Which frame has a level is not changed by the values of locals. -/
theorem resolveFrom_of_hollow (h : s'.hollow = s.hollow) (level links i : Nat) :
    s'.resolveFrom level links i = s.resolveFrom level links i := by
  induction links generalizing i with
  | zero => rfl
  | succ links ih =>
    have same : (s'.frames[i]?).map Frame.hollow = (s.frames[i]?).map Frame.hollow := by
      rw [← hollow_getElem?, ← hollow_getElem?, h]
    rw [resolveFrom, resolveFrom]
    cases hf : s.frames[i]? with
    | none =>
      rw [hf] at same
      rw [Option.map_eq_none_iff.mp same]
    | some f =>
      rw [hf] at same
      obtain ⟨f', hf', same⟩ := Option.map_eq_some_iff.mp same
      obtain ⟨same, -⟩ := Frame.eq_of_hollow same
      rw [hf', same]
      simp only [ih]

theorem holder_of_hollow (h : s'.hollow = s.hollow) {v : Value} (hk : s.holder slot v = .ok k) :
    s'.holder slot v = .ok k := by
  obtain ⟨level, f, hf, inside⟩ := (s.holder_ok_iff slot v).mp hk
  have depth : s'.frames.size = s.frames.size := by
    simpa [FrameStack.depth] using congrArg List.length h
  have same : (s'.frames[k]?).map Frame.hollow = some f.hollow := by
    rw [← hollow_getElem?, h, hollow_getElem?, hf]
    rfl
  obtain ⟨f', hf', same⟩ := Option.map_eq_some_iff.mp same
  refine (s'.holder_ok_iff slot v).mpr ⟨?_, f', hf', (Frame.eq_of_hollow same).2 ▸ inside⟩
  rw [← level, resolve, resolve, top, top, Array.isEmpty, Array.isEmpty, depth]
  simp only [bind, Except.bind]
  split <;> simp [resolveFrom_of_hollow h]

theorem hollow_renewed (s : FrameStack) (job : Job) (i : Iteration) :
    (s.renewed job i).hollow = s.hollow := by
  rw [renewed]
  split
  · rfl
  · exact s.hollow_modify_locals i.body fun f => by simp [Frame.hollow, Frame.renew]

theorem load_of_holder (hk : s.holder slot .void = .ok k) :
    s.load slot = .ok (s.localAt k slot.offset) := by
  rw [load, hk]
  rfl

end FrameStack

theorem Iteration.FindsCounter.of_hollow {i j : Iteration} {s s' : FrameStack} (h : i.FindsCounter s)
    (hs : s'.hollow = s.hollow) (hparts : j.parts = i.parts) (hbody : j.body = i.body) :
    j.FindsCounter s' := by
  intro slot hslot
  obtain ⟨k, hk, outside⟩ := h slot (hparts ▸ hslot)
  exact ⟨k, FrameStack.holder_of_hollow hs hk, hbody ▸ outside⟩

/-- An iteration begins and sees its counter. -/
theorem Iteration.FindsCounter.begins {i : Iteration} {m : Machine} (h : i.FindsCounter m.frames) :
    ∃ m', Exec.begin job i m = .ok () m' ∧
      ∀ slot, i.parts.counter = some slot → m'.frames.load slot = .ok (.int i.counter) := by
  cases hcounter : i.parts.counter with
  | none =>
    have begins : Exec.begin job i m = Exec.renewBody job i m := by
      simp only [Exec.begin, Exec.setCounter, hcounter]
      rfl
    refine ⟨_, begins.trans (Exec.renewBody_eq ..), fun slot hslot => ?_⟩
    cases hslot
  | some slot =>
    obtain ⟨k, hk, outside⟩ := h slot hcounter
    obtain ⟨f, hf, inside⟩ := ((m.frames.holder_ok_iff slot .void).mp hk).2
    have hint : m.frames.holder slot (.int i.counter) = .ok k :=
      (m.frames.holder_ok_iff slot _).mpr ((m.frames.holder_ok_iff slot .void).mp hk)
    refine ⟨{ m with frames := (m.frames.setLocal k slot.offset (.int i.counter)).renewed job i }, ?_, ?_⟩
    · have begins : Exec.begin job i m =
          (Exec.store slot (.int i.counter) >>= fun _ => Exec.renewBody job i : Exec Unit) m := by
        simp only [Exec.begin, Exec.setCounter, hcounter]
      simp only [begins, bind, EStateM.bind, Exec.store_eq, hint, Exec.renewBody_eq]
    · rintro _ ⟨⟩
      have found : ((m.frames.setLocal k slot.offset (.int i.counter)).renewed job i).holder slot .void =
          .ok k :=
        FrameStack.holder_of_hollow
          ((FrameStack.hollow_renewed ..).trans (FrameStack.hollow_setLocal ..)) hk
      -- the frame of the counter is not the one that is made as new
      have kept : ((m.frames.setLocal k slot.offset (.int i.counter)).renewed job i).frames[k]? =
          some { f with locals := f.locals.setIfInBounds slot.offset (.int i.counter) } := by
        rw [FrameStack.renewed_getElem?, if_neg fun h => outside h.1, FrameStack.setLocal,
          FrameStack.modify, Array.getElem?_modify, if_pos rfl, hf]
        rfl
      rw [FrameStack.load_of_holder found, FrameStack.localAt, kept, Option.bind_some,
        Array.getElem?_setIfInBounds_self_of_lt inside, Option.getD_some]

end Algol68
