import Algol68.Proofs.Clause.Nesting
import Algol68.Proofs.Run.Step

/-! The two ways to run a clause. A clause without labels replays the chain made of its items; a clause
with labels is walked over as it stands, between the evaluations of its units, and the walk may look for
a labelled unit first. Both do the same things to the same states. -/

namespace Algol68

variable {job : Job} {b : Nat}

/-- What comes of doing the tasks of an agenda, in some number of steps. -/
def Performs (job : Job) (A : Agenda) (m : Machine) (h : Halt) : Prop :=
  ∃ steps, drive job steps A m = h

/-- Whether nothing is done after this. -/
def Halt.Stops : Halt → Prop
  | .completed _ => False
  | .escaped .. | .unfinished .. => True

/-- Whether a run came to its end. -/
def Halt.Ended : Halt → Prop
  | .completed _ | .escaped .. => True
  | .unfinished .. => False

/-- The state after a statement boundary of a clause entered at `baseline`. -/
def Machine.cut (m : Machine) (baseline : Nat) : Machine :=
  { m with stack := m.stack.shrink baseline }

/-- The steps that were begun, each with the state it was begun in. -/
abbrev Deeds := List (ChainStep × Machine)

/-- The replay of a chain: one step after the other, until one does not complete. -/
inductive Replays (job : Job) (b : Nat) : List ChainStep → Machine → Deeds → Halt → Prop where
  | nil (m : Machine) : Replays job b [] m [] (.completed m)
  | unit {n : NodeId} {steps : List ChainStep} {m m' : Machine} {D : Deeds} {h : Halt}
      (hp : Performs job [.unit n] m (.completed m')) (hr : Replays job b steps m' D h) :
      Replays job b (.unit n :: steps) m ((.unit n, m) :: D) h
  | stopped {n : NodeId} {steps : List ChainStep} {m : Machine} {h : Halt}
      (hp : Performs job [.unit n] m h) (hs : h.Stops) :
      Replays job b (.unit n :: steps) m [(.unit n, m)] h
  | boundary {steps : List ChainStep} {m : Machine} {D : Deeds} {h : Halt}
      (hr : Replays job b steps (m.cut b) D h) :
      Replays job b (.boundary :: steps) m ((.boundary, m) :: D) h

/-- How a walk over some items ends: it returns whether control reached their end, and the labelled unit
that is still looked for, or one of the units did not complete. -/
inductive Walked where
  | returned (reachesEnd : Bool) (pending : Option NodeId) (m : Machine)
  | stopped (h : Halt)

/-- Whether the walk goes on with what follows. -/
def Walked.GoesOn : Walked → Prop
  | .returned true _ _ => True
  | _ => False

/-- What a walk that looks for nothing returns where a replay ends. -/
def Halt.walked (reachesEnd : Bool) : Halt → Walked
  | .completed m => .returned reachesEnd none m
  | h => .stopped h

/-- The labelled unit that is still looked for at an item. -/
def ClauseItem.sought (pending : Option NodeId) : ClauseItem → Option NodeId
  | .labelled item _ => if pending = some item then none else pending
  | _ => pending

/-- What a walk does at one item. -/
inductive Meets (job : Job) (b : Nat) :
    ClauseItem → Option NodeId → Machine → Deeds → Walked → Prop where
  | skipped {i : ClauseItem} {p : Option NodeId} {target : NodeId} {m : Machine}
      (h : i.sought p = some target) : Meets job b i p m [] (.returned true (some target) m)
  | exit (m : Machine) : Meets job b .exit none m [] (.returned false none m)
  | boundary (m : Machine) :
      Meets job b .boundary none m [(.boundary, m)] (.returned true none (m.cut b))
  | unit {i : ClauseItem} {p : Option NodeId} {n : NodeId} {m m' : Machine}
      (h : i.sought p = none) (hu : i.unit? = some n)
      (hp : Performs job [.unit n] m (.completed m')) :
      Meets job b i p m [(.unit n, m)] (.returned true none m')
  | stopped {i : ClauseItem} {p : Option NodeId} {n : NodeId} {m : Machine} {h : Halt}
      (hn : i.sought p = none) (hu : i.unit? = some n) (hp : Performs job [.unit n] m h)
      (hs : h.Stops) : Meets job b i p m [(.unit n, m)] (.stopped h)

/-- The walk over the items of a clause, while `pending` is looked for. -/
inductive Walks (job : Job) (b : Nat) :
    List NodeId → Option NodeId → Machine → Deeds → Walked → Prop where
  | nil (p : Option NodeId) (m : Machine) : Walks job b [] p m [] (.returned true p m)
  | nothing {item : NodeId} {rest : List NodeId} {p : Option NodeId} {m : Machine} {D : Deeds}
      {r : Walked} (hs : job.program.tree.shape item = .nothing) (hr : Walks job b rest p m D r) :
      Walks job b (item :: rest) p m D r
  | past {item : NodeId} {rest : List NodeId} {i : ClauseItem} {p p' : Option NodeId}
      {m m' : Machine} {D D' : Deeds} {r : Walked} (hs : job.program.tree.shape item = .one i)
      (h : Meets job b i p m D (.returned true p' m')) (hr : Walks job b rest p' m' D' r) :
      Walks job b (item :: rest) p m (D ++ D') r
  | ends {item : NodeId} {rest : List NodeId} {i : ClauseItem} {p : Option NodeId} {m : Machine}
      {D : Deeds} {r : Walked} (hs : job.program.tree.shape item = .one i)
      (h : Meets job b i p m D r) (hr : ¬ r.GoesOn) : Walks job b (item :: rest) p m D r
  | pastInner {item : NodeId} {items rest : List NodeId} {p p' : Option NodeId} {m m' : Machine}
      {D D' : Deeds} {r : Walked} (hs : job.program.tree.shape item = .inlined items)
      (h : Walks job b items p m D (.returned true p' m')) (hr : Walks job b rest p' m' D' r) :
      Walks job b (item :: rest) p m (D ++ D') r
  | endsInner {item : NodeId} {items rest : List NodeId} {p : Option NodeId} {m : Machine}
      {D : Deeds} {r : Walked} (hs : job.program.tree.shape item = .inlined items)
      (h : Walks job b items p m D r) (hr : ¬ r.GoesOn) : Walks job b (item :: rest) p m D r

/-! Walks over a text, with nothing inlined left in it. -/

/-- Part of a walk. -/
abbrev Traversal := Option NodeId → Machine → Deeds → Walked → Prop

namespace Traversal

def idle : Traversal := fun p m D r => D = [] ∧ r = .returned true p m

/-- One part of a walk and then another one, unless the walk ends in the first. -/
def andThen (P Q : Traversal) : Traversal := fun p m D r =>
  (∃ D₁ p' m' D₂, P p m D₁ (.returned true p' m') ∧ Q p' m' D₂ r ∧ D = D₁ ++ D₂) ∨
    P p m D r ∧ ¬ r.GoesOn

theorem idle_andThen (P : Traversal) : idle.andThen P = P := by
  funext p m D r
  simp only [andThen, idle, eq_iff_iff]
  constructor
  · rintro (⟨D₁, p', m', D₂, ⟨rfl, h⟩, hp, rfl⟩ | ⟨⟨-, rfl⟩, hr⟩)
    · cases h
      exact hp
    · exact absurd trivial hr
  · intro hp
    exact .inl ⟨[], p, m, D, ⟨rfl, rfl⟩, hp, rfl⟩

theorem andThen_assoc (P Q R : Traversal) :
    (P.andThen Q).andThen R = P.andThen (Q.andThen R) := by
  funext p m D r
  simp only [andThen, eq_iff_iff]
  constructor
  · rintro (⟨D₁, p', m', D₂, ⟨E₁, q, k, E₂, hp, hq, rfl⟩ | ⟨-, hno⟩, hr, rfl⟩ |
      ⟨⟨D₁, p', m', D₂, hp, hq, rfl⟩ | ⟨hp, -⟩, hr⟩)
    · exact .inl ⟨E₁, q, k, E₂ ++ D₂, hp, .inl ⟨E₂, p', m', D₂, hq, hr, rfl⟩,
        List.append_assoc ..⟩
    · exact absurd trivial hno
    · exact .inl ⟨D₁, p', m', D₂, hp, .inr ⟨hq, hr⟩, rfl⟩
    · exact .inr ⟨hp, hr⟩
  · rintro (⟨D₁, p', m', D₂, hp, ⟨E₁, q, k, E₂, hq, hr, rfl⟩ | ⟨hq, hr⟩, rfl⟩ | ⟨hp, hr⟩)
    · exact .inl ⟨D₁ ++ E₁, q, k, E₂, .inl ⟨D₁, p', m', E₁, hp, hq, rfl⟩, hr,
        (List.append_assoc ..).symm⟩
    · exact .inr ⟨.inl ⟨D₁, p', m', D₂, hp, hq, rfl⟩, hr⟩
    · exact .inr ⟨.inr ⟨hp, hr⟩, hr⟩

end Traversal

/-- The walk over a text. -/
def Passes (job : Job) (b : Nat) : List ClauseItem → Traversal
  | [] => .idle
  | i :: L => Traversal.andThen (Meets job b i) (Passes job b L)

theorem passes_append (L M : List ClauseItem) :
    Passes job b (L ++ M) = Traversal.andThen (Passes job b L) (Passes job b M) := by
  induction L with
  | nil => exact (Traversal.idle_andThen _).symm
  | cons i L ih => rw [List.cons_append, Passes, ih, Passes, Traversal.andThen_assoc]

/-- Groups, declaration lists and inner serial clauses make no difference to a walk. -/
theorem Tree.Reads.walks_eq {items : List NodeId} {L : List ClauseItem}
    (h : job.program.tree.Reads items L) : Walks job b items = Passes job b L := by
  induction h with
  | nil =>
    funext p m D r
    refine propext ⟨?_, ?_⟩
    · rintro ⟨⟩
      exact ⟨rfl, rfl⟩
    · rintro ⟨rfl, rfl⟩
      exact .nil p m
  | @nothing item rest M h _ ih =>
    rw [← ih]
    funext p m D r
    refine propext ⟨?_, .nothing h⟩
    intro hw
    cases hw with
    | nothing _ hr => exact hr
    | past hs | ends hs | pastInner hs | endsInner hs => cases h.symm.trans hs
  | @one item rest i M h _ ih =>
    rw [Passes, ← ih]
    funext p m D r
    refine propext ⟨?_, ?_⟩
    · intro hw
      cases hw with
      | past hs hi hr =>
        cases h.symm.trans hs
        exact .inl ⟨_, _, _, _, hi, hr, rfl⟩
      | ends hs hi hr =>
        cases h.symm.trans hs
        exact .inr ⟨hi, hr⟩
      | nothing hs | pastInner hs | endsInner hs => cases h.symm.trans hs
    · rintro (⟨D₁, p', m', D₂, hi, hr, rfl⟩ | ⟨hi, hr⟩)
      · exact .past h hi hr
      · exact .ends h hi hr
  | @inlined item items rest L M h _ _ ihi ihr =>
    rw [passes_append, ← ihi, ← ihr]
    funext p m D r
    refine propext ⟨?_, ?_⟩
    · intro hw
      cases hw with
      | pastInner hs hi hr =>
        cases h.symm.trans hs
        exact .inl ⟨_, _, _, _, hi, hr, rfl⟩
      | endsInner hs hi hr =>
        cases h.symm.trans hs
        exact .inr ⟨hi, hr⟩
      | nothing hs | past hs | ends hs => cases h.symm.trans hs
    · rintro (⟨D₁, p', m', D₂, hi, hr, rfl⟩ | ⟨hi, hr⟩)
      · exact .pastInner h hi hr
      · exact .endsInner h hi hr

/-! What a walk does is a replay. -/

open ClauseItem (chain)

theorem meets_unit_iff {i : ClauseItem} {p : Option NodeId} {n : NodeId} {m : Machine} {D : Deeds}
    {r : Walked} (h : i.sought p = none) (hu : i.unit? = some n) :
    Meets job b i p m D r ↔
      ∃ x, Performs job [.unit n] m x ∧ D = [(.unit n, m)] ∧ r = x.walked true := by
  constructor
  · intro hm
    cases hm with
    | skipped hs => cases h.symm.trans hs
    | exit | boundary => cases hu
    | unit _ hu' hp =>
      cases hu.symm.trans hu'
      exact ⟨_, hp, rfl, rfl⟩
    | @stopped _ _ _ _ x _ hu' hp hs =>
      cases hu.symm.trans hu'
      refine ⟨x, hp, rfl, ?_⟩
      cases x with
      | completed => exact hs.elim
      | escaped | unfinished => rfl
  · rintro ⟨x, hp, rfl, rfl⟩
    cases x with
    | completed => exact .unit h hu hp
    | escaped | unfinished => exact .stopped h hu hp trivial

/-- What a unit does in front of the rest of a replay. -/
theorem replays_unit_iff {n : NodeId} {steps : List ChainStep} {m : Machine} {D : Deeds} {h : Halt} :
    Replays job b (.unit n :: steps) m D h ↔
      (∃ m' D', Performs job [.unit n] m (.completed m') ∧ Replays job b steps m' D' h ∧
        D = (.unit n, m) :: D') ∨
      Performs job [.unit n] m h ∧ h.Stops ∧ D = [(.unit n, m)] := by
  constructor
  · intro hr
    cases hr with
    | unit hp hr => exact .inl ⟨_, _, hp, hr, rfl⟩
    | stopped hp hs => exact .inr ⟨hp, hs, rfl⟩
  · rintro (⟨m', D', hp, hr, rfl⟩ | ⟨hp, hs, rfl⟩)
    · exact .unit hp hr
    · exact .stopped hp hs

theorem Halt.walked_goesOn {x : Halt} : (x.walked true).GoesOn ↔ ¬ x.Stops := by
  cases x <;> simp [walked, Walked.GoesOn, Stops]

theorem Halt.walked_of_stops {x : Halt} (h : x.Stops) (e e' : Bool) : x.walked e = x.walked e' := by
  cases x with
  | completed => exact h.elim
  | escaped | unfinished => rfl

theorem passes_unit_iff {i : ClauseItem} {p : Option NodeId} {n : NodeId} {L : List ClauseItem}
    (h : i.sought p = none) (hu : i.unit? = some n)
    (ih : ∀ m D r, Passes job b L none m D r ↔
      ∃ x, Replays job b (chain L).steps m D x ∧ r = x.walked (chain L).reachesEnd)
    (m : Machine) (D : Deeds) (r : Walked) :
    Passes job b (i :: L) p m D r ↔
      ∃ x, Replays job b (.unit n :: (chain L).steps) m D x ∧ r = x.walked (chain L).reachesEnd := by
  simp only [Passes, Traversal.andThen, meets_unit_iff h hu, replays_unit_iff]
  constructor
  · rintro (⟨D₁, p', m', D₂, ⟨x, hp, rfl, hx⟩, hr, rfl⟩ | ⟨⟨x, hp, rfl, rfl⟩, hr⟩)
    · cases x with
      | completed =>
        cases hx
        obtain ⟨y, hy, rfl⟩ := (ih _ _ _).mp hr
        exact ⟨y, .inl ⟨_, _, hp, hy, rfl⟩, rfl⟩
      | escaped | unfinished => cases hx
    · rw [Halt.walked_goesOn, not_not] at hr
      exact ⟨x, .inr ⟨hp, hr, rfl⟩, x.walked_of_stops hr _ _⟩
  · rintro ⟨x, ⟨m', D', hp, hr, rfl⟩ | ⟨hp, hs, rfl⟩, rfl⟩
    · exact .inl ⟨[(.unit n, m)], none, m', D', ⟨_, hp, rfl, rfl⟩, (ih _ _ _).mpr ⟨x, hr, rfl⟩, rfl⟩
    · rw [x.walked_of_stops hs _ true]
      exact .inr ⟨⟨x, hp, rfl, rfl⟩, by rw [Halt.walked_goesOn, not_not]; exact hs⟩

/-- A walk that looks for nothing replays what stands before the first `EXIT`. -/
theorem passes_none_iff (L : List ClauseItem) (m : Machine) (D : Deeds) (r : Walked) :
    Passes job b L none m D r ↔
      ∃ x, Replays job b (chain L).steps m D x ∧ r = x.walked (chain L).reachesEnd := by
  induction L generalizing m D r with
  | nil =>
    constructor
    · rintro ⟨rfl, rfl⟩
      exact ⟨.completed m, .nil m, rfl⟩
    · rintro ⟨x, hx, rfl⟩
      cases hx
      exact ⟨rfl, rfl⟩
  | cons i L ih =>
    cases i with
    | unit n => exact passes_unit_iff rfl rfl ih m D r
    | labelled item n => exact passes_unit_iff (by simp [ClauseItem.sought]) rfl ih m D r
    | boundary =>
      constructor
      · rintro (⟨D₁, p', m', D₂, hm, hr, rfl⟩ | ⟨hm, hr⟩)
        · cases hm with
          | skipped h | unit h hu => cases h <;> cases hu
          | boundary =>
            obtain ⟨x, hx, rfl⟩ := (ih _ _ _).mp hr
            exact ⟨x, .boundary hx, rfl⟩
        · cases hm with
          | skipped | boundary => exact absurd trivial hr
          | unit h hu | stopped h hu => cases hu
      · rintro ⟨x, hx, rfl⟩
        cases hx with
        | boundary hx =>
          exact .inl ⟨[(.boundary, m)], none, m.cut b, _, .boundary m, (ih _ _ _).mpr ⟨x, hx, rfl⟩, rfl⟩
    | exit =>
      constructor
      · rintro (⟨D₁, p', m', D₂, hm, hr, rfl⟩ | ⟨hm, hr⟩)
        · cases hm with
          | skipped h => cases h
          | unit h hu => cases hu
        · cases hm with
          | skipped h => cases h
          | exit => exact ⟨.completed m, .nil m, rfl⟩
          | unit h hu | stopped h hu => cases hu
      · rintro ⟨x, hx, rfl⟩
        cases hx
        exact .inr ⟨.exit m, id⟩

theorem meets_skipped_iff {i : ClauseItem} {p : Option NodeId} {target : NodeId} {m : Machine}
    {D : Deeds} {r : Walked} (h : i.sought p = some target) :
    Meets job b i p m D r ↔ D = [] ∧ r = .returned true (some target) m := by
  constructor
  · intro hm
    cases hm with
    | skipped h' =>
      cases h.symm.trans h'
      exact ⟨rfl, rfl⟩
    | exit | boundary => cases h
    | unit h' | stopped h' => cases h.symm.trans h'
  · rintro ⟨rfl, rfl⟩
    exact .skipped h

theorem passes_some_iff {target : NodeId} {L : List ClauseItem}
    (h : ∀ n, .labelled target n ∉ L) (m : Machine) (D : Deeds) (r : Walked) :
    Passes job b L (some target) m D r ↔ D = [] ∧ r = .returned true (some target) m := by
  induction L generalizing m D r with
  | nil => exact Iff.rfl
  | cons i L ih =>
    have hi : i.sought (some target) = some target := by
      cases i with
      | labelled item n =>
        have hne : target ≠ item := by
          rintro rfl
          exact h n (List.mem_cons_self ..)
        simp [ClauseItem.sought, hne]
      | unit | boundary | exit => rfl
    have rest := ih fun n hn => h n (List.mem_cons_of_mem _ hn)
    simp only [Passes, Traversal.andThen, meets_skipped_iff hi]
    constructor
    · rintro (⟨D₁, p', m', D₂, ⟨rfl, hx⟩, hr, rfl⟩ | ⟨⟨-, rfl⟩, hr⟩)
      · cases hx
        exact (rest _ _ _).mp hr
      · exact absurd trivial hr
    · rintro ⟨rfl, rfl⟩
      exact .inl ⟨[], some target, m, [], ⟨rfl, rfl⟩, (rest _ _ _).mpr ⟨rfl, rfl⟩, rfl⟩

/-- From the labelled unit that it looks for on, a walk replays what stands before the next `EXIT`. -/
theorem passes_found_iff {target n : NodeId} {before after : List ClauseItem}
    (h : ∀ k, .labelled target k ∉ before) (m : Machine) (D : Deeds) (r : Walked) :
    Passes job b (before ++ .labelled target n :: after) (some target) m D r ↔
      ∃ x, Replays job b (.unit n :: (chain after).steps) m D x ∧
        r = x.walked (chain after).reachesEnd := by
  have sought : ClauseItem.sought (some target) (.labelled target n) = none := if_pos rfl
  have found := passes_unit_iff sought rfl (@passes_none_iff job b after)
  simp only [passes_append, Traversal.andThen, passes_some_iff h]
  constructor
  · rintro (⟨D₁, p', m', D₂, ⟨rfl, hx⟩, hr, rfl⟩ | ⟨⟨-, rfl⟩, hr⟩)
    · cases hx
      exact (found _ _ _).mp hr
    · exact absurd trivial hr
  · intro hx
    exact .inl ⟨[], some target, m, D, ⟨rfl, rfl⟩, (found _ _ _).mpr hx, rfl⟩

/-! The agenda of a clause. -/

theorem unwind_chain (s : Signal) (steps : List ChainStep) (m : Machine) :
    unwind job s (steps.map (·.task b)) m = .escaped s m := by
  induction steps with
  | nil => rfl
  | cons step steps ih => cases s <;> cases step <;> exact ih

/-- Some tasks are done in front of the steps of a chain as they are done alone. -/
theorem drive_append_chain (chain : List ChainStep) (steps : Nat) (A : Agenda) (m : Machine) :
    match drive job steps A m with
    | .completed m' => ∃ used ≤ steps, ∀ k,
        drive job (used + k) (A ++ chain.map (·.task b)) m = drive job k (chain.map (·.task b)) m'
    | .escaped s m' => drive job steps (A ++ chain.map (·.task b)) m = .escaped s m'
    | .unfinished A' m' =>
      A' ≠ [] ∧ drive job steps (A ++ chain.map (·.task b)) m =
        .unfinished (A' ++ chain.map (·.task b)) m' := by
  fun_induction drive job steps A m with
  | case1 steps m => exact ⟨0, Nat.zero_le _, fun k => by rw [Nat.zero_add, List.nil_append]⟩
  | case2 A m hne =>
    cases A with
    | nil => exact absurd rfl hne
    | cons t A => exact ⟨hne, rfl⟩
  | case3 steps t rest m work m' he ih =>
    have next (j : Nat) : drive job (j + 1) (t :: rest ++ chain.map (·.task b)) m =
        drive job j (work ++ rest ++ chain.map (·.task b)) m' := by
      simp only [List.cons_append, drive, he, List.append_assoc]
    split at ih
    · obtain ⟨used, hle, ih⟩ := ih
      refine ⟨used + 1, by omega, fun k => ?_⟩
      rw [Nat.add_right_comm, next, ih]
    · rw [next, ih]
    · rw [next, ih.2]
      exact ⟨ih.1, rfl⟩
  | case4 steps t rest m s m' he agenda m'' hu ih =>
    have next (j : Nat) : drive job (j + 1) (t :: rest ++ chain.map (·.task b)) m =
        drive job j (agenda ++ chain.map (·.task b)) m'' := by
      simp only [List.cons_append, drive, he, unwind_append, hu]
    split at ih
    · obtain ⟨used, hle, ih⟩ := ih
      refine ⟨used + 1, by omega, fun k => ?_⟩
      rw [Nat.add_right_comm, next, ih]
    · rw [next, ih]
    · rw [next, ih.2]
      exact ⟨ih.1, rfl⟩
  | case5 steps t rest m s m' he s' m'' hu =>
    simp only [List.cons_append, drive, he, unwind_append, hu, unwind_chain]

theorem performs_unit_iff {n : NodeId} {steps : List ChainStep} {m : Machine} {x : Halt}
    (hx : x.Ended) :
    Performs job (.unit n :: steps.map (·.task b)) m x ↔
      (∃ m', Performs job [.unit n] m (.completed m') ∧
        Performs job (steps.map (·.task b)) m' x) ∨
      Performs job [.unit n] m x ∧ x.Stops := by
  constructor
  · rintro ⟨k, hd⟩
    have happ := @drive_append_chain job b steps k [.unit n] m
    cases hk : drive job k [.unit n] m with
    | completed m' =>
      rw [hk] at happ
      obtain ⟨used, hle, happ⟩ := happ
      have hrest := happ (k - used)
      rw [Nat.add_sub_cancel' hle] at hrest
      exact .inl ⟨m', ⟨k, hk⟩, k - used, hrest.symm.trans hd⟩
    | escaped s m' =>
      rw [hk] at happ
      obtain rfl : x = .escaped s m' := hd.symm.trans happ
      exact .inr ⟨⟨k, hk⟩, trivial⟩
    | unfinished A' m' =>
      rw [hk] at happ
      obtain rfl := hd.symm.trans happ.2
      exact hx.elim
  · rintro (⟨m', ⟨k, hk⟩, j, hj⟩ | ⟨⟨k, hk⟩, hs⟩)
    · have happ := @drive_append_chain job b steps k [.unit n] m
      rw [hk] at happ
      obtain ⟨used, -, happ⟩ := happ
      exact ⟨used + j, (happ j).trans hj⟩
    · have happ := @drive_append_chain job b steps k [.unit n] m
      cases x with
      | completed => exact hs.elim
      | escaped s m' =>
        rw [hk] at happ
        exact ⟨k, happ⟩
      | unfinished => exact hx.elim

theorem performs_cut_iff {A : Agenda} {m : Machine} {x : Halt} (hx : x.Ended) :
    Performs job (.cut b :: A) m x ↔ Performs job A (m.cut b) x := by
  constructor
  · rintro ⟨k, hd⟩
    cases k with
    | zero =>
      cases hd
      exact hx.elim
    | succ k => exact ⟨k, hd⟩
  · rintro ⟨k, hd⟩
    exact ⟨k + 1, hd⟩

theorem performs_chain_iff {steps : List ChainStep} {m : Machine} {x : Halt} (hx : x.Ended) :
    Performs job (steps.map (·.task b)) m x ↔ ∃ D, Replays job b steps m D x := by
  induction steps generalizing m with
  | nil =>
    constructor
    · rintro ⟨k, hd⟩
      obtain rfl : Halt.completed m = x := by
        rw [← hd]
        cases k <;> rfl
      exact ⟨[], .nil m⟩
    · rintro ⟨D, hr⟩
      cases hr
      exact ⟨0, rfl⟩
  | cons step steps ih =>
    cases step with
    | unit n =>
      have hiff := @performs_unit_iff job b n steps m x hx
      refine hiff.trans ?_
      simp only [replays_unit_iff, ih]
      constructor
      · rintro (⟨m', hp, D, hr⟩ | ⟨hp, hs⟩)
        · exact ⟨_, .inl ⟨m', D, hp, hr, rfl⟩⟩
        · exact ⟨_, .inr ⟨hp, hs, rfl⟩⟩
      · rintro ⟨D, ⟨m', D', hp, hr, -⟩ | ⟨hp, hs, -⟩⟩
        · exact .inl ⟨m', hp, D', hr⟩
        · exact .inr ⟨hp, hs⟩
    | boundary =>
      refine (performs_cut_iff hx).trans (ih.trans ?_)
      constructor
      · rintro ⟨D, hr⟩
        exact ⟨_, .boundary hr⟩
      · rintro ⟨D, hr⟩
        cases hr with
        | boundary hr => exact ⟨_, hr⟩

theorem ClauseItem.walk_of_notMem {target : NodeId} {L : List ClauseItem}
    (h : ∀ n, .labelled target n ∉ L) : ClauseItem.walk (some target) L = .idle (some target) := by
  induction L with
  | nil => rfl
  | cons i L ih =>
    have rest := ih fun n hn => h n (List.mem_cons_of_mem _ hn)
    cases i with
    | labelled item n =>
      have hne : target ≠ item := by
        rintro rfl
        exact h n (List.mem_cons_self ..)
      rw [ClauseItem.walk, if_neg hne, rest]
    | _ => exact rest

theorem ClauseItem.walk_of_first {target n : NodeId} {before after : List ClauseItem}
    (h : ∀ k, .labelled target k ∉ before) :
    ClauseItem.walk (some target) (before ++ .labelled target n :: after) =
      ⟨.unit n :: (chain after).steps, none, (chain after).reachesEnd⟩ := by
  simp [ClauseItem.walk_append, ClauseItem.walk_of_notMem h, Walk.idle, ClauseItem.walk]

/-- A labelled unit is not among the items, or there is a first place where it stands. -/
theorem ClauseItem.exists_first (target : NodeId) (L : List ClauseItem) :
    (∀ n, .labelled target n ∉ L) ∨ ∃ before n after, L = before ++ .labelled target n :: after ∧
      ∀ k, .labelled target k ∉ before := by
  induction L with
  | nil => exact .inl fun n hn => absurd hn List.not_mem_nil
  | cons i L ih =>
    by_cases hi : ∃ n, i = .labelled target n
    · obtain ⟨n, rfl⟩ := hi
      exact .inr ⟨[], n, L, rfl, fun k hk => absurd hk List.not_mem_nil⟩
    · have keep {M : List ClauseItem} (hM : ∀ n, .labelled target n ∉ M) (n : NodeId) :
          .labelled target n ∉ i :: M := by
        intro hn
        rcases List.mem_cons.mp hn with hn | hn
        · exact hi ⟨n, hn.symm⟩
        · exact hM n hn
      rcases ih with hL | ⟨before, n, after, rfl, hb⟩
      · exact .inl (keep hL)
      · exact .inr ⟨i :: before, n, after, rfl, keep hb⟩

/-- What a walk returns where the steps it chose end. -/
def Walk.ending (w : Walk) : Halt → Walked
  | .completed m => .returned w.reachesEnd w.pending m
  | h => .stopped h

/-- A walk that is a replay does what the agenda made of its steps does. -/
theorem performs_walk_iff {W : Machine → Deeds → Walked → Prop} {w : Walk} (hw : w.pending = none)
    (hW : ∀ m D r, W m D r ↔ ∃ x, Replays job b w.steps m D x ∧ r = x.walked w.reachesEnd)
    {m : Machine} {x : Halt} (hx : x.Ended) :
    Performs job (w.steps.map (·.task b)) m x ↔ ∃ D, W m D (w.ending x) := by
  have ending (y : Halt) : w.ending y = y.walked w.reachesEnd := by
    cases y <;> simp only [Walk.ending, Halt.walked, hw]
  simp only [performs_chain_iff hx, hW, ending]
  constructor
  · rintro ⟨D, hr⟩
    exact ⟨D, x, hr, rfl⟩
  · rintro ⟨D, y, hr, hy⟩
    obtain rfl : x = y := by
      cases x <;> cases y <;> simp_all [Halt.walked]
    exact ⟨D, hr⟩

/-- The agenda of a clause, from its start or from a label, does what the walk over its items does. -/
theorem performs_passes_iff (p : Option NodeId) (L : List ClauseItem) {m : Machine} {x : Halt}
    (hx : x.Ended) :
    Performs job ((ClauseItem.walk p L).steps.map (·.task b)) m x ↔
      ∃ D, Passes job b L p m D ((ClauseItem.walk p L).ending x) := by
  cases p with
  | none =>
    rw [ClauseItem.walk_none]
    exact performs_walk_iff (W := Passes job b L none) rfl (passes_none_iff L) hx
  | some target =>
    rcases ClauseItem.exists_first target L with hL | ⟨before, n, after, rfl, hb⟩
    · rw [ClauseItem.walk_of_notMem hL]
      simp only [passes_some_iff hL]
      have none : Performs job ([].map (ChainStep.task b)) m x ↔ ∃ D, Replays job b [] m D x :=
        performs_chain_iff hx
      refine none.trans ?_
      constructor
      · rintro ⟨D, hr⟩
        cases hr
        exact ⟨[], rfl, rfl⟩
      · rintro ⟨D, rfl, he⟩
        cases x with
        | completed =>
          cases he
          exact ⟨[], .nil m⟩
        | escaped | unfinished => cases he
    · rw [ClauseItem.walk_of_first hb]
      exact performs_walk_iff (W := Passes job b _ (some target)) rfl (passes_found_iff hb) hx

namespace ClauseItem

/-- The step that an item is in a chain. -/
def step? : ClauseItem → Option ChainStep
  | .unit n | .labelled _ n => some (.unit n)
  | .boundary => some .boundary
  | .exit => none

/-- The steps in front of the first `EXIT`. -/
def upToExit (L : List ClauseItem) : List ChainStep := (L.takeWhile (· ≠ .exit)).filterMap step?

theorem chain_eq (L : List ClauseItem) : chain L = ⟨upToExit L, decide (.exit ∉ L)⟩ := by
  induction L with
  | nil => rfl
  | cons i L ih => cases i <;> simp [chain, ih, upToExit, step?]

end ClauseItem

open ClauseItem (upToExit)

/-- Over the items of a clause, however they are nested, the walk that looks for nothing is the replay of
the chain of the clause: the same units are evaluated in the same states, the stack is cut at the same
places, and both end in the same way. A walk that looks for a labelled unit does nothing before it, and
from there on is the replay of the items up to the next `EXIT`; where there is no such unit, it does
nothing at all. The agenda of a clause, from its start or from a label, does what the walk does. -/
theorem walk_replays {items : List NodeId} {L : List ClauseItem}
    (h : job.program.tree.Reads items L) (b : Nat) :
    job.program.tree.flatten items = upToExit L ∧
    (∀ m D r, Walks job b items none m D r ↔
      ∃ x, Replays job b (job.program.tree.flatten items) m D x ∧
        r = x.walked (decide (.exit ∉ L))) ∧
    (∀ before target n after, L = before ++ .labelled target n :: after →
      (∀ k, .labelled target k ∉ before) → ∀ m D r, Walks job b items (some target) m D r ↔
        ∃ x, Replays job b (.unit n :: upToExit after) m D x ∧
          r = x.walked (decide (.exit ∉ after))) ∧
    (∀ target, (∀ n, .labelled target n ∉ L) → ∀ m D r,
      Walks job b items (some target) m D r ↔ D = [] ∧ r = .returned true (some target) m) ∧
    (∀ p m x, x.Ended → (Performs job ((job.program.tree.walk p items).steps.map (·.task b)) m x ↔
      ∃ D, Walks job b items p m D ((job.program.tree.walk p items).ending x))) ∧
    (∀ m x, x.Ended → (Performs job ((job.program.tree.flatten items).map (·.task b)) m x ↔
      ∃ D, Replays job b (job.program.tree.flatten items) m D x)) := by
  have hchain : job.program.tree.flatten items = (chain L).steps := by
    rw [Tree.flatten_eq, h.clauseItems_eq]
  have heq := ClauseItem.chain_eq L
  refine ⟨by rw [hchain, heq], ?_, ?_, ?_, ?_, ?_⟩
  · intro m D r
    rw [h.walks_eq, passes_none_iff, hchain, heq]
  · rintro before target n after rfl hb m D r
    rw [h.walks_eq, passes_found_iff hb, ClauseItem.chain_eq after]
  · intro target hL m D r
    rw [h.walks_eq, passes_some_iff hL]
  · intro p m x hx
    rw [Tree.walk_eq, h.clauseItems_eq, h.walks_eq]
    exact performs_passes_iff p L hx
  · intro m x hx
    exact performs_chain_iff hx

/-- The items of the clause `((1; EXIT l: 2) EXIT 3)` with a group in it, the label `l` in that group. -/
def detour : Job where
  program := {
    tree := {
      nodes := #[⟨.literal (.int 1), .int, .dummy⟩, ⟨.separator, .void, .dummy⟩,
        ⟨.exit, .void, .dummy⟩, ⟨.literal (.int 2), .int, .dummy⟩, ⟨.labeled ⟨0⟩ ⟨3⟩, .int, .dummy⟩,
        ⟨.group ⟨0, 4⟩, .int, .dummy⟩, ⟨.exit, .void, .dummy⟩, ⟨.literal (.int 3), .int, .dummy⟩]
      lists := #[⟨0⟩, ⟨1⟩, ⟨2⟩, ⟨4⟩]
      modeLists := #[]
      loops := #[]
      alternatives := #[] }
    modes := .new
    scopes := ⟨#[.standard]⟩
    labels := ⟨#[]⟩
    interner := .new
    root := ⟨7⟩
    environs := #[] }
  oracle := ModeTable.oracle .new
  config := .default

/-- The walk from `l` in `detour` evaluates the unit behind the label and ends at the `EXIT` behind the
group, with the value of the unit on the stack. -/
theorem detour_walks : ∃ m', m'.stack = #[.int 2] ∧
    Walks detour 0 [⟨5⟩, ⟨6⟩, ⟨7⟩] (some ⟨4⟩) (.new detour false)
      [(.unit ⟨3⟩, .new detour false)] (.returned false none m') := by
  have reads : detour.program.tree.Reads [⟨5⟩, ⟨6⟩, ⟨7⟩]
      [.unit ⟨0⟩, .boundary, .exit, .labelled ⟨4⟩ ⟨3⟩, .exit, .unit ⟨7⟩] := by
    have group : detour.program.tree.Reads [⟨0⟩, ⟨1⟩, ⟨2⟩, ⟨4⟩]
        [.unit ⟨0⟩, .boundary, .exit, .labelled ⟨4⟩ ⟨3⟩] :=
      .one rfl (.one rfl (.one rfl (.one rfl .nil)))
    exact .inlined rfl group (.one rfl (.one rfl .nil))
  have found := (walk_replays reads 0).2.2.1 [.unit ⟨0⟩, .boundary, .exit] ⟨4⟩ ⟨3⟩ [.exit, .unit ⟨7⟩]
    rfl (by simp)
  obtain ⟨m', hp, hs⟩ : ∃ m', Performs detour [.unit ⟨3⟩] (.new detour false) (.completed m') ∧
      m'.stack = #[.int 2] := ⟨_, ⟨3, rfl⟩, rfl⟩
  exact ⟨m', hs, (found _ _ _).mpr ⟨.completed m', .unit hp (.nil m'), rfl⟩⟩

end Algol68
