import Algol68.Proofs.Loop.Round
import Algol68.Proofs.Value.Arithmetic

/-! The course of a loop from its first bound test on. The test before which `k` iterations ran through
is the one with the counter `count k`, taken on the integers themselves, and it is reached just when
every iteration before it was inside the bounds and ran through and no counter so far overflowed. -/

namespace Algol68

variable {job : Job}

/-- Whether an integer has 64 bits. -/
def FitsWord (n : Int) : Prop := ∃ c : Int64, c.toInt = n

theorem fitsWord_toInt (c : Int64) : FitsWord c.toInt := ⟨c, rfl⟩

theorem FitsWord.toInt_ofInt {n : Int} (h : FitsWord n) : (Int64.ofInt n).toInt = n := by
  obtain ⟨c, rfl⟩ := h
  rw [Int64.ofInt_toInt]

instance (n : Int) : Decidable (FitsWord n) :=
  decidable_of_iff ((Int64.ofInt n).toInt = n) ⟨fun h => ⟨_, h⟩, FitsWord.toInt_ofInt⟩

theorem FitsWord.between {a b n : Int} (ha : FitsWord a) (hb : FitsWord b) (hl : a ≤ n) (hu : n ≤ b) :
    FitsWord n := by
  obtain ⟨c, rfl⟩ := ha
  obtain ⟨d, rfl⟩ := hb
  have lower := c.le_toInt
  have upper := d.toInt_lt
  exact ⟨Int64.ofInt n, Int64.toInt_ofInt_of_le (by omega) (by omega)⟩

namespace Iteration

variable {i j : Iteration} {k : Nat} {m m' : Machine} {x y : Agenda × Machine}

/-- The counter of iteration `k` of a loop whose first iteration is `i`. -/
def count (i : Iteration) (k : Nat) : Int :=
  if i.parts.steps then i.counter.toInt + k * i.step.toInt else i.counter.toInt

/-- Whether a counter passes the bound test: it is not beyond the limit in the direction of the
step. -/
def Within (i : Iteration) (c : Int) : Prop :=
  (0 < i.step.toInt → c ≤ i.limit.toInt) ∧ (i.step.toInt < 0 → i.limit.toInt ≤ c)

/-- Iteration `k` of a loop whose first iteration is `i`. -/
def nth (i : Iteration) (k : Nat) : Iteration :=
  { i with counter := Int64.ofInt (i.count k), first := i.first && k == 0 }

/-- Before the bound test of iteration `k` all earlier iterations passed theirs and ran through, and no
counter overflowed. -/
inductive Through (job : Job) (i : Iteration) (m : Machine) : Nat → Machine → Prop where
  | start : Through job i m 0 m
  | next {k : Nat} {m₁ m₂ : Machine} (before : Through job i m k m₁) (within : i.Within (i.count k))
      (round : Round job (i.nth k) m₁ m₂) (fits : FitsWord (i.count (k + 1))) :
      Through job i m (k + 1) m₂

/-- The run that begins with the bound test of `i`, in machine `m`, comes to a bound test for the time
after the first `k`. -/
inductive Arrives (job : Job) (i : Iteration) (m : Machine) : Nat → Iteration → Machine → Prop where
  | first : Arrives job i m 0 i m
  | next {k : Nat} {j j' : Iteration} {m₁ m₂ : Machine} (before : Arrives job i m k j m₁)
      (goes : Goes job j m₁ ([.iterate j'], m₂)) : Arrives job i m (k + 1) j' m₂

/-! Counters. -/

@[simp] theorem count_zero (i : Iteration) : i.count 0 = i.counter.toInt := by
  simp [count]

theorem count_succ (h : i.parts.steps) (k : Nat) : i.count (k + 1) = i.count k + i.step.toInt := by
  rw [count, if_pos h, count, if_pos h, Nat.cast_succ, Int.add_mul, Int.one_mul, Int.add_assoc]

theorem count_of_not_steps (h : ¬ i.parts.steps) (k : Nat) : i.count k = i.counter.toInt := by
  rw [count, if_neg h]

@[simp] theorem nth_zero (i : Iteration) : i.nth 0 = i := by
  simp [nth, Int64.ofInt_toInt]

theorem admits_iff (i : Iteration) : i.admits ↔ i.Within i.counter.toInt := by
  have zero : (0 : Int64).toInt = 0 := Int64.toInt_zero
  simp only [admits, Within]
  split
  · next h =>
    rw [Int64.lt_iff_toInt_lt, zero] at h
    simp only [decide_eq_true_eq, Int64.le_iff_toInt_le]
    exact ⟨fun hc => ⟨fun _ => hc, fun hn => by omega⟩, fun hw => hw.1 h⟩
  · next h =>
    rw [Int64.lt_iff_toInt_lt, zero] at h
    split
    · next h' =>
      rw [Int64.lt_iff_toInt_lt, zero] at h'
      simp only [decide_eq_true_eq, Int64.le_iff_toInt_le]
      exact ⟨fun hc => ⟨fun hp => absurd hp h, fun _ => hc⟩, fun hw => hw.2 h'⟩
    · next h' =>
      rw [Int64.lt_iff_toInt_lt, zero] at h'
      exact ⟨fun _ => ⟨fun hp => absurd hp h, fun hn => absurd hn h'⟩, fun _ => rfl⟩

theorem nth_admits_iff (h : FitsWord (i.count k)) : (i.nth k).admits ↔ i.Within (i.count k) := by
  rw [admits_iff, nth, h.toInt_ofInt]
  rfl

theorem Through.fits (h : Through job i m k m') : FitsWord (i.count k) := by
  cases h with
  | start => exact ⟨i.counter, (count_zero i).symm⟩
  | next _ _ _ fits => exact fits

theorem Through.unique {m₁ m₂ : Machine} (h : Through job i m k m₁) (h' : Through job i m k m₂) : m₁ = m₂ := by
  induction h generalizing m₂ with
  | start =>
    cases h'
    rfl
  | next before _ round _ ih =>
    cases h' with
    | next before' _ round' _ =>
      obtain rfl := ih before'
      exact round.unique round'

/-- Every iteration before a bound test ran through. -/
theorem Through.exists_round {j : Nat} (h : Through job i m k m') (hj : j < k) :
    ∃ m₁ m₂, Through job i m j m₁ ∧ Round job (i.nth j) m₁ m₂ := by
  induction h with
  | start => cases hj
  | @next k m₁ m₂ before _ round _ ih =>
    rcases Nat.lt_succ_iff_lt_or_eq.mp hj with hlt | rfl
    · exact ih hlt
    · exact ⟨m₁, m₂, before, round⟩

/-! The next iteration. -/

theorem next?_nth_of_steps (h : i.parts.steps) (hk : FitsWord (i.count k)) :
    (i.nth k).begun.next? =
      (narrow? (i.count (k + 1))).map fun c => { (i.nth k).begun with counter := c } := by
  have sum : (i.nth k).counter.toInt + i.step.toInt = i.count (k + 1) := by
    rw [count_succ h, nth, hk.toInt_ofInt]
  rw [← sum]
  exact if_pos h

theorem next?_nth (hk : FitsWord (i.count k)) (hn : FitsWord (i.count (k + 1))) :
    (i.nth k).begun.next? = some (i.nth (k + 1)) := by
  by_cases hs : i.parts.steps
  · have narrows : narrow? (i.count (k + 1)) = some (Int64.ofInt (i.count (k + 1))) :=
      narrow?_eq_some_iff.mpr hn.toInt_ofInt
    rw [next?_nth_of_steps hs hk, narrows]
    simp [nth, begun]
  · have next : (i.nth k).begun.next? = some (i.nth k).begun := if_neg hs
    rw [next]
    simp [nth, begun, count_of_not_steps hs]

theorem next?_nth_eq_none (hk : FitsWord (i.count k)) (hn : ¬ FitsWord (i.count (k + 1))) :
    (i.nth k).begun.next? = none := by
  have hs : i.parts.steps := by
    by_contra hs
    rw [count_of_not_steps hs] at hn
    exact hn (fitsWord_toInt _)
  have narrows : narrow? (i.count (k + 1)) = none :=
    narrow?_eq_none_iff.mpr fun n hn' => hn ⟨n, hn'⟩
  rw [next?_nth_of_steps hs hk, narrows]
  rfl

theorem next?_nth_eq_some_iff (hk : FitsWord (i.count k)) :
    (i.nth k).begun.next? = some j ↔ FitsWord (i.count (k + 1)) ∧ j = i.nth (k + 1) := by
  by_cases hn : FitsWord (i.count (k + 1))
  · rw [next?_nth hk hn, Option.some.injEq]
    exact ⟨fun h => ⟨hn, h.symm⟩, fun h => h.2.symm⟩
  · rw [next?_nth_eq_none hk hn]
    exact ⟨nofun, fun h => absurd h.1 hn⟩

/-! Bound tests that the run comes to. -/

/-- Inside an iteration the agenda is empty or holds something else than a bound test. -/
theorem Amid.exists_mem (h : Amid job i m y) : y.1 = [] ∨ ∃ t ∈ y.1, ∀ j, t ≠ .iterate j := by
  cases h with
  | asking => exact .inr ⟨_, List.mem_append_right _ (List.mem_singleton_self _), by simp⟩
  | doing =>
    obtain ⟨t, ht, htest⟩ := i.begun.exists_mem_closing
    exact .inr ⟨t, List.mem_append_right _ ht, htest⟩
  | checking => exact .inr ⟨_, List.mem_append_right _ (List.mem_singleton_self _), by simp⟩
  | stepping => exact .inr ⟨_, List.mem_singleton_self _, by simp⟩
  | ended => exact .inl rfl

theorem Amid.ne_iterate (h : Amid job i m y) (j : Iteration) : y.1 ≠ [.iterate j] := by
  intro heq
  rcases h.exists_mem with hnil | ⟨t, ht, htest⟩
  · rw [hnil] at heq
    cases heq
  · rw [heq] at ht
    exact htest j (List.mem_singleton.mp ht)

theorem Goes.amid (h : Goes job i m y) : Amid.Or job i m y := by
  obtain ⟨x, hs, hp⟩ := h
  induction hp with
  | refl => exact .inl (amid_of_does hs)
  | tail _ hs' ih =>
    rcases ih with amid | ⟨m', j, -, -, -, rfl⟩
    · exact amid.step hs'.1
    · exact absurd rfl (hs'.2 j)

theorem goes_iterate_iff :
    Goes job i m ([.iterate j], m') ↔ i.admits ∧ Round job i m m' ∧ i.begun.next? = some j := by
  constructor
  · intro h
    rcases h.amid with amid | ⟨_, _, hi, round, next, heq⟩
    · exact absurd rfl (amid.ne_iterate j)
    · cases heq
      exact ⟨hi, round, next⟩
  · rintro ⟨hi, round, next⟩
    exact round.goes_next hi next

/-- The run comes to bound tests just where all went well before, and with the counters that belong
there. -/
theorem arrives_iff : Arrives job i m k j m' ↔ Through job i m k m' ∧ j = i.nth k := by
  constructor
  · intro h
    induction h with
    | first => exact ⟨.start, (nth_zero i).symm⟩
    | @next k j j' m₁ m₂ _ goes ih =>
      obtain ⟨through, rfl⟩ := ih
      obtain ⟨hi, round, next⟩ := goes_iterate_iff.mp goes
      obtain ⟨fits, rfl⟩ := (next?_nth_eq_some_iff through.fits).mp next
      exact ⟨.next through ((nth_admits_iff through.fits).mp hi) round fits, rfl⟩
  · rintro ⟨through, rfl⟩
    induction through with
    | start =>
      rw [nth_zero]
      exact .first
    | next before within round fits ih =>
      have hi := (nth_admits_iff before.fits).mpr within
      exact .next ih (round.goes_next hi (next?_nth before.fits fits))

theorem Goes.runs (h : Goes job i m y) : Runs job ([.iterate i], m) y := by
  obtain ⟨x, hs, hp⟩ := h
  exact .head hs hp.runs

theorem Arrives.runs (h : Arrives job i m k j m') : Runs job ([.iterate i], m) ([.iterate j], m') := by
  induction h with
  | first => exact .refl
  | next _ goes ih => exact ih.trans goes.runs

theorem exists_arrives (h : Runs job ([.iterate i], m) y) :
    ∃ k j m', Arrives job i m k j m' ∧ (y = ([.iterate j], m') ∨ Goes job j m' y) := by
  induction h with
  | refl => exact ⟨0, i, m, .first, .inl rfl⟩
  | @tail y z _ hs ih =>
    obtain ⟨k, j, m', arrives, rfl | goes⟩ := ih
    · exact ⟨k, j, m', arrives, .inr ⟨z, hs, .refl⟩⟩
    · by_cases htest : ∃ j', y.1 = [.iterate j']
      · obtain ⟨Y, my⟩ := y
        obtain ⟨j', rfl⟩ := htest
        exact ⟨k + 1, j', my, .next arrives goes, .inr ⟨z, hs, .refl⟩⟩
      · exact ⟨k, j, m', arrives, .inr (goes.trans (.single ⟨hs, fun j' heq => htest ⟨j', heq⟩⟩))⟩

/-- Every bound test of the run is that of some iteration. -/
theorem runs_iterate_iff :
    Runs job ([.iterate i], m) ([.iterate j], m') ↔ ∃ k, Arrives job i m k j m' := by
  constructor
  · intro h
    obtain ⟨k, j', m₁, arrives, heq | goes⟩ := exists_arrives h
    · cases heq
      exact ⟨k, arrives⟩
    · exact ⟨k + 1, .next arrives goes⟩
  · rintro ⟨k, arrives⟩
    exact arrives.runs

theorem goes_nil_iff : Goes job i m ([], m') ↔ Ends job i m m' := by
  constructor
  · intro h
    rcases h.amid with amid | ⟨_, _, _, _, _, heq⟩
    · generalize hy : (([], m') : Agenda × Machine) = y at amid
      cases amid with
      | asking => simp at hy
      | doing =>
        obtain ⟨t, ht, -⟩ := i.begun.exists_mem_closing
        have hnil : _ ++ i.begun.closing = [] := (congrArg Prod.fst hy).symm
        simp [List.append_eq_nil_iff.mp hnil |>.2] at ht
      | checking => simp at hy
      | stepping => simp at hy
      | ended h =>
        cases hy
        exact h
    · cases heq
  · exact Ends.goes

/-- The loop completes with an iteration that ends it. -/
theorem completes_iff : Runs job ([.iterate i], m) ([], m') ↔
    ∃ k m₁, Through job i m k m₁ ∧ Ends job (i.nth k) m₁ m' := by
  constructor
  · intro h
    obtain ⟨k, j, m₁, arrives, heq | goes⟩ := exists_arrives h
    · cases heq
    · obtain ⟨through, rfl⟩ := arrives_iff.mp arrives
      exact ⟨k, m₁, through, goes_nil_iff.mp goes⟩
  · rintro ⟨k, m₁, through, ends⟩
    exact (arrives_iff.mpr ⟨through, rfl⟩).runs.trans ends.goes.runs

end Iteration

end Algol68
