import Algol68.Proofs.Collateral.Evaluation

/-! Runs that are alike. Two runs show the same and end in the same way, although the second holds more
values on the stack. What two runs do that begin with the evaluation of one unit on two footings follows
from what they do once it has come to its end. -/

namespace Algol68

variable {job : Job} {x x' y y' z : Agenda × Machine} {L : List (Task × Machine)} {A B B' : Agenda}
  {P : Array Value} {m m' : Machine} {s s' : Signal} {u : NodeId}

/-! Runs in two parts. -/

/-- A task that no signal stops at. -/
def Task.inert : Task → Bool
  | .unit _ | .cut _ | .aggregate .. | .yields .. => true
  | _ => false

def Agenda.Inert (A : Agenda) : Prop := ∀ t ∈ A, t.inert

theorem Agenda.Inert.unlabelled (h : A.Inert) : A.Unlabelled :=
  fun c hc => nomatch h (.labelled c) hc

theorem Agenda.Inert.unwind (h : A.Inert) (s : Signal) (m : Machine) :
    Algol68.unwind job s A m = .escaped s m := by
  induction A with
  | nil => rfl
  | cons t A ih =>
    have ht := h t (List.mem_cons_self ..)
    have hA := ih fun u hu => h u (List.mem_cons_of_mem _ hu)
    cases t with
    | unit | cut | aggregate | yields => cases s <;> exact hA
    | _ => cases ht

theorem completes_append (hB : B.Inert) :
    Runs job (A ++ B, m) ([], m') ↔ ∃ m₁, Runs job (A, m) ([], m₁) ∧ Runs job (B, m₁) ([], m') := by
  constructor
  · intro h
    rcases Runs.cut hB.unlabelled h with ⟨A', hnil, hr⟩ | done
    · obtain ⟨rfl, rfl⟩ := List.append_eq_nil_iff.mp hnil.symm
      exact ⟨m', hr, .refl⟩
    · exact done
  · rintro ⟨m₁, hA, hB⟩
    exact (hA.append B).trans hB

theorem escapes_append (hB : B.Inert) :
    Escapes job (A ++ B, m) s m' ↔ Escapes job (A, m) s m' ∨
      ∃ m₁, Runs job (A, m) ([], m₁) ∧ Escapes job (B, m₁) s m' := by
  constructor
  · rintro ⟨t, rest, m₀, n, s₀, hr, he, hu⟩
    rcases Runs.cut hB.unlabelled hr with ⟨A', hrest, hA⟩ | ⟨m₁, hA, hB'⟩
    · cases A' with
      | nil =>
        obtain rfl : t :: rest = B := hrest
        exact .inr ⟨m₀, hA, t, rest, m₀, n, s₀, .refl, he, hu⟩
      | cons t' A' =>
        obtain ⟨rfl, rfl⟩ := List.cons.inj hrest
        refine .inl ⟨t, A', m₀, n, s₀, hA, he, ?_⟩
        change unwind job s₀ (A' ++ B) n = _ at hu
        rw [unwind_append] at hu
        split at hu
        · cases hu
        · next hA' => rw [hA', ← hu, hB.unwind]
    · exact .inr ⟨m₁, hA, t, rest, m₀, n, s₀, hB', he, hu⟩
  · rintro (hA | ⟨m₁, hA, hB'⟩)
    · exact hA.append (hB.unwind s m')
    · exact hB'.of_runs (hA.append B)

/-- What a run of two parts shows is shown by the first, or by the whole of it and the second. -/
theorem shows_append (hB : B.Inert) : (∃ z, Shows job (A ++ B, m) L z) ↔
    (∃ z, Shows job (A, m) L z) ∨ ∃ L₁ L₂ m₁, L = L₁ ++ L₂ ∧ Shows job (A, m) L₁ ([], m₁) ∧
      ∃ z, Shows job (B, m₁) L₂ z := by
  constructor
  · rintro ⟨z, h⟩
    have cut : (∃ A', z.1 = A' ++ B ∧ Shows job (A, m) L (A', z.2)) ∨
        ∃ L₁ L₂ m₁, L = L₁ ++ L₂ ∧ Shows job (A, m) L₁ ([], m₁) ∧ Shows job (B, m₁) L₂ z := by
      induction h with
      | start => exact .inl ⟨A, rfl, .start⟩
      | @step L y z _ hs ih =>
        rcases ih with ⟨A', hy, hA⟩ | ⟨L₁, L₂, m₁, rfl, hA, hB'⟩
        · obtain ⟨Y, my⟩ := y
          obtain rfl : Y = A' ++ B := hy
          cases A' with
          | nil => exact .inr ⟨L, _, my, rfl, hA, Shows.start.step hs⟩
          | cons t A' =>
            obtain ⟨A'', hz, hd⟩ := hs.cut hB.unlabelled
            refine .inl ⟨A'', hz, ?_⟩
            rw [seen_append]
            exact hA.step hd
        · exact .inr ⟨L₁, L₂ ++ seen y, m₁, List.append_assoc .., hA, hB'.step hs⟩
    rcases cut with ⟨A', -, hA⟩ | ⟨L₁, L₂, m₁, hL, hA, hB'⟩
    · exact .inl ⟨_, hA⟩
    · exact .inr ⟨L₁, L₂, m₁, hL, hA, z, hB'⟩
  · rintro (⟨z, hA⟩ | ⟨L₁, L₂, m₁, rfl, hA, z, hB'⟩)
    · exact ⟨_, hA.append B⟩
    · exact ⟨z, (hA.append B).trans hB'⟩

/-! A step that shows nothing. -/

theorem shows_step (hs : Does job x x') (hx : seen x = []) :
    (∃ z, Shows job x L z) ↔ ∃ z, Shows job x' L z := by
  constructor
  · rintro ⟨z, h⟩
    have late : z = x ∧ L = [] ∨ Shows job x' L z := by
      induction h with
      | start => exact .inl ⟨rfl, rfl⟩
      | @step L y z _ hd ih =>
        rcases ih with ⟨rfl, rfl⟩ | h
        · rw [hd.unique hs, hx]
          exact .inr .start
        · exact .inr (h.step hd)
    rcases late with ⟨-, rfl⟩ | h
    · exact ⟨x', .start⟩
    · exact ⟨z, h⟩
  · rintro ⟨z, h⟩
    have first : Shows job x [] x' := by simpa [hx] using Shows.start.step hs
    exact ⟨z, first.trans h⟩

theorem completes_step (hs : Does job x x') : Runs job x ([], m) ↔ Runs job x' ([], m) := by
  refine ⟨fun h => ?_, .head hs⟩
  rcases Relation.ReflTransGen.cases_head h with rfl | ⟨y, hd, hr⟩
  · exact absurd hs (Final.of_empty m x')
  · rwa [hs.unique hd]

theorem escapes_step (hs : Does job x x') : Escapes job x s m ↔ Escapes job x' s m := by
  refine ⟨?_, .of_does hs⟩
  rintro ⟨t, rest, m₀, m₁, s₀, hr, he, hu⟩
  rcases Relation.ReflTransGen.cases_head hr with rfl | ⟨y, hd, hr⟩
  · exact absurd hs (Final.of_escaped he hu x')
  · exact ⟨t, rest, m₀, m₁, s₀, by rwa [hs.unique hd], he, hu⟩

/-! What is the same of two runs. -/

/-- Two runs on top of `P` are ended by the same jump, or the same fault: the second only holds more
values on top of `P`, and a fault that tells depths of the stack counts them. -/
def EndsAlike (P : Array Value) (s : Signal) (m : Machine) (s' : Signal) (m' : Machine) : Prop :=
  ∃ held rest : Array Value, s' = s.above held.size ∧ m.stack = P ++ rest ∧
    m'.stack = P ++ held ++ rest ∧ m'.apart = m.apart

/-- Two runs on top of `P` show the same and end in the same way; when they come to their end, they do
so in the same machine, with nothing left on top of `P`. -/
structure Alike (job : Job) (P : Array Value) (x y : Agenda × Machine) : Prop where
  shows : ∀ L, (∃ z, Shows job x L z) ↔ ∃ z, Shows job y L z
  completes : ∀ m, Runs job x ([], m) ↔ Runs job y ([], m)
  restores : ∀ m, Runs job x ([], m) → m.stack = P
  escapes : ∀ s m, Escapes job x s m → ∃ s' m', Escapes job y s' m' ∧ EndsAlike P s m s' m'
  escapes_of : ∀ s' m', Escapes job y s' m' → ∃ s m, Escapes job x s m ∧ EndsAlike P s m s' m'

namespace Alike

theorem empty (hm : m.stack = P) : Alike job P ([], m) ([], m) := by
  have final {y : Agenda × Machine} (h : Runs job ([], m) y) : y = ([], m) := by
    rcases Relation.ReflTransGen.cases_head h with rfl | ⟨_, hd, -⟩
    · rfl
    · exact nomatch hd
  have none {s : Signal} {m' : Machine} : ¬ Escapes job ([], m) s m' := by
    rintro ⟨t, rest, m₀, m₁, s₀, hr, -⟩
    cases final hr
  refine ⟨fun _ => .rfl, fun _ => .rfl, fun m' h => ?_, fun _ _ h => absurd h none,
    fun _ _ h => absurd h none⟩
  cases final h
  exact hm

theorem left (h : Alike job P x' y) (hs : Does job x x') (hx : seen x = []) : Alike job P x y where
  shows L := (shows_step hs hx).trans (h.shows L)
  completes m := (completes_step hs).trans (h.completes m)
  restores m hm := h.restores m ((completes_step hs).mp hm)
  escapes s m he := h.escapes s m ((escapes_step hs).mp he)
  escapes_of s' m' he := (h.escapes_of s' m' he).imp fun _ => .imp fun _ h => ⟨h.1.of_does hs, h.2⟩

theorem right (h : Alike job P x y') (hs : Does job y y') (hy : seen y = []) : Alike job P x y where
  shows L := (h.shows L).trans (shows_step hs hy).symm
  completes m := (h.completes m).trans (completes_step hs).symm
  restores := h.restores
  escapes s m he := (h.escapes s m he).imp fun _ => .imp fun _ h => ⟨h.1.of_does hs, h.2⟩
  escapes_of s' m' he := h.escapes_of s' m' ((escapes_step hs).mp he)

end Alike

theorem Outline.Sound.serial_lt {next : Nat} (h : m.outline.Sound job next) :
    ∀ f ∈ m.frames.frames, f.serial < next := by
  intro f hf
  obtain ⟨i, hi, hf⟩ := Array.mem_iff_getElem.mp hf
  exact h.given i f.hollow (Machine.outline_frame (Array.getElem?_eq_some_iff.mpr ⟨hi, hf⟩))

namespace Footing

variable {F G : Footing} {r : Machine} {J : Array Value}

theorem endsAlike (hG : G.values = P) (hF : F.values = P ++ J) (s : Signal) (m : Machine) :
    EndsAlike P (s.above G.height) (G.machine m) (s.above F.height) (F.machine m) := by
  refine ⟨J, m.stack, ?_, ?_, ?_, ?_⟩
  · rw [Signal.above_above, height, height, hG, hF, Array.size_append]
  · rw [machine, hG]
  · rw [machine, hF]
  · rw [machine_apart, machine_apart]

namespace Carries

/-- A unit that is evaluated to its end on one footing is so on every other one. -/
theorem completed (h : F.Carries job u r) (hG : G.Below F)
    (hs : Shows job ([.unit u], G.machine r) L ([], m)) : ∃ m₀, m = G.machine m₀ ∧
      ∀ G' : Footing, G'.Below F → Shows job ([.unit u], G'.machine r) L ([], G'.machine m₀) := by
  obtain ⟨A, m₀, heq, all⟩ := h.shows hG hs
  obtain ⟨hA, rfl⟩ := Prod.mk.inj heq
  obtain rfl : A = [] := List.map_eq_nil_iff.mp hA.symm
  exact ⟨m₀, rfl, all⟩

theorem completes (h : F.Carries job u r) (hG : G.Below F)
    (hr : Runs job ([.unit u], G.machine r) ([], m)) : ∃ m₀, m = G.machine m₀ ∧
      ∀ G' : Footing, G'.Below F → Runs job ([.unit u], G'.machine r) ([], G'.machine m₀) := by
  obtain ⟨L, hL⟩ := hr.shows
  obtain ⟨m₀, hm, all⟩ := h.completed hG hL
  exact ⟨m₀, hm, fun G' hG' => (all G' hG').runs⟩

/-- A unit that has come to its end leaves older frames only. -/
theorem ended (h : F.Carries job u r) (hr : Runs job ([.unit u], F.machine r) ([], F.machine m)) :
    Consistent job [] m ∧
      ∀ G : Footing, G.Below F → G.machine m = { m with stack := G.values ++ m.stack } := by
  obtain ⟨hm, hp, -⟩ := h.consistent.runs hr
  have hp : (F.machine m).outline = (F.machine r).outline := hp
  have old : ∀ f ∈ m.frames.frames, f.serial < F.next := by
    intro f hf
    have sound := h.consistent.sound
    rw [← hp] at sound
    rw [h.next, ← F.frame_serial f]
    exact sound.serial_lt _ (Array.mem_map_of_mem hf)
  refine ⟨?_, fun G hG => machine_of_serial_lt (hG.next ▸ old)⟩
  rw [machine_of_serial_lt old] at hm
  exact ⟨hm.sound, hm.truthful, trivial⟩

/-! What a run that begins with the unit does on one footing it does on another, if what follows the
unit does. -/

variable {G' : Footing}

theorem shows_before (h : F.Carries job u r) (hG : G.Below F) (hG' : G'.Below F) (hB : B.Inert)
    (hB' : B'.Inert) (rest : ∀ m, Runs job ([.unit u], F.machine r) ([], F.machine m) →
      ∀ L, (∃ z, Shows job (B, G.machine m) L z) → ∃ z, Shows job (B', G'.machine m) L z)
    (hs : ∃ z, Shows job (.unit u :: B, G.machine r) L z) :
    ∃ z, Shows job (.unit u :: B', G'.machine r) L z := by
  apply (shows_append (A := [.unit u]) hB').mpr
  rcases (shows_append (A := [.unit u]) hB).mp hs with ⟨z, hu⟩ | ⟨L₁, L₂, m, rfl, hu, hz⟩
  · obtain ⟨A, m, -, all⟩ := h.shows hG hu
    exact .inl ⟨_, all G' hG'⟩
  · obtain ⟨m₀, rfl, all⟩ := h.completed hG hu
    exact .inr ⟨L₁, L₂, _, rfl, all G' hG', rest m₀ (all F (.refl F)).runs L₂ hz⟩

theorem completes_before (h : F.Carries job u r) (hG : G.Below F) (hG' : G'.Below F) (hB : B.Inert)
    (hB' : B'.Inert) (rest : ∀ m, Runs job ([.unit u], F.machine r) ([], F.machine m) →
      ∀ m', Runs job (B, G.machine m) ([], m') → Runs job (B', G'.machine m) ([], m'))
    (hr : Runs job (.unit u :: B, G.machine r) ([], m)) :
    Runs job (.unit u :: B', G'.machine r) ([], m) := by
  apply (completes_append (A := [.unit u]) hB').mpr
  obtain ⟨m₁, hu, hm⟩ := (completes_append (A := [.unit u]) hB).mp hr
  obtain ⟨m₀, rfl, all⟩ := h.completes hG hu
  exact ⟨_, all G' hG', rest m₀ (all F (.refl F)) m hm⟩

theorem escapes_before {C : Signal → Machine → Signal → Machine → Prop} (h : F.Carries job u r)
    (hG : G.Below F) (hG' : G'.Below F) (hB : B.Inert) (hB' : B'.Inert)
    (ends : ∀ (s : Signal) m, C (s.above G.height) (G.machine m) (s.above G'.height) (G'.machine m))
    (rest : ∀ m, Runs job ([.unit u], F.machine r) ([], F.machine m) → ∀ s m₁,
      Escapes job (B, G.machine m) s m₁ → ∃ s' m', Escapes job (B', G'.machine m) s' m' ∧ C s m₁ s' m')
    (he : Escapes job (.unit u :: B, G.machine r) s m) :
    ∃ s' m', Escapes job (.unit u :: B', G'.machine r) s' m' ∧ C s m s' m' := by
  rcases (escapes_append (A := [.unit u]) hB).mp he with hu | ⟨m₁, hu, he⟩
  · obtain ⟨s₀, m₀, rfl, rfl, all⟩ := h.escapes hG hu
    exact ⟨_, _, (escapes_append (A := [.unit u]) hB').mpr (.inl (all G' hG')), ends s₀ m₀⟩
  · obtain ⟨m₀, rfl, all⟩ := h.completes hG hu
    obtain ⟨s', m', he, hc⟩ := rest m₀ (all F (.refl F)) s m he
    exact ⟨s', m', (escapes_append (A := [.unit u]) hB').mpr (.inr ⟨_, all G' hG', he⟩), hc⟩

/-- Runs that begin with the same unit are alike if they are alike from where it has come to its end. -/
theorem alike (h : F.Carries job u r) (hG : G.Below F) (hP : G.values = P) (hF : F.values = P ++ J)
    (hB : B.Inert) (hB' : B'.Inert)
    (rest : ∀ m, Runs job ([.unit u], F.machine r) ([], F.machine m) →
      Alike job P (B, G.machine m) (B', F.machine m)) :
    Alike job P (.unit u :: B, G.machine r) (.unit u :: B', F.machine r) where
  shows L :=
    ⟨h.shows_before hG (.refl F) hB hB' fun m hm L => ((rest m hm).shows L).mp,
      h.shows_before (.refl F) hG hB' hB fun m hm L => ((rest m hm).shows L).mpr⟩
  completes m :=
    ⟨h.completes_before hG (.refl F) hB hB' fun m hm m' => ((rest m hm).completes m').mp,
      h.completes_before (.refl F) hG hB' hB fun m hm m' => ((rest m hm).completes m').mpr⟩
  restores m hm := by
    obtain ⟨m₁, hu, hm⟩ := (completes_append (A := [.unit u]) hB).mp hm
    obtain ⟨m₀, rfl, all⟩ := h.completes hG hu
    exact (rest m₀ (all F (.refl F))).restores m hm
  escapes s m :=
    h.escapes_before (C := EndsAlike P) hG (.refl F) hB hB' (endsAlike hP hF)
      fun m hm => (rest m hm).escapes
  escapes_of s m :=
    h.escapes_before (C := fun s m s' m' => EndsAlike P s' m' s m) (.refl F) hG hB' hB
      (endsAlike hP hF) fun m hm => (rest m hm).escapes_of

end Carries

end Footing

end Algol68
