import Mathlib.Algebra.GroupWithZero.Nat
import Algol68.Proofs.Clause.Items

/-! The values the items of a clause leave on the expression stack. A statement boundary drops what
its statement left, so a clause that yields a value does so by the units behind its last boundary. -/

namespace Algol68

/-- The number of values a construct of the mode leaves on the expression stack. -/
def ModeId.worth (m : ModeId) : Nat := if m = .void then 0 else 1

@[simp] theorem ModeId.worth_void : ModeId.void.worth = 0 := rfl

theorem ModeId.worth_of_ne {m : ModeId} (h : m ≠ .void) : m.worth = 1 := if_neg h

theorem ModeId.worth_congr {m n : ModeId} (h : m = .void ↔ n = .void) : m.worth = n.worth := by
  simp only [worth, h]

namespace Tree

variable {t : Tree}

/-- The number of values some units leave. -/
def worth (t : Tree) (ns : List NodeId) : Nat := (ns.map fun n => (t.mode n).worth).sum

@[simp] theorem worth_nil : t.worth [] = 0 := rfl

@[simp] theorem worth_append (ns ms : List NodeId) :
    t.worth (ns ++ ms) = t.worth ns + t.worth ms := by
  simp [worth]

@[simp] theorem worth_singleton (n : NodeId) : t.worth [n] = (t.mode n).worth := by
  simp [worth]

/-- The last of the units yields a value and no other one does. -/
def LastYields (t : Tree) (ns : List NodeId) : Prop :=
  ∃ before last, ns = before ++ [last] ∧ t.mode last ≠ .void ∧ ∀ n ∈ before, t.mode n = .void

theorem lastYields_iff {ns : List NodeId} : t.LastYields ns ↔
    (∃ last ∈ ns.getLast?, t.mode last ≠ .void) ∧ ∀ n ∈ ns.dropLast, t.mode n = .void := by
  constructor
  · rintro ⟨before, last, rfl, hl, hb⟩
    rw [List.getLast?_concat, List.dropLast_concat]
    exact ⟨⟨last, rfl, hl⟩, hb⟩
  · rintro ⟨⟨last, hlast, hl⟩, hb⟩
    obtain ⟨before, rfl⟩ := List.getLast?_eq_some_iff.mp hlast
    rw [List.dropLast_concat] at hb
    exact ⟨before, last, rfl, hl, hb⟩

instance (ns : List NodeId) : Decidable (t.LastYields ns) := decidable_of_iff _ lastYields_iff.symm

theorem worth_of_void {ns : List NodeId} (h : ∀ n ∈ ns, t.mode n = .void) : t.worth ns = 0 := by
  induction ns with
  | nil => rfl
  | cons n ns ih =>
    simp only [worth, List.map_cons, List.sum_cons, h n (by simp), ModeId.worth_void, Nat.zero_add]
    exact ih fun k hk => h k (by simp [hk])

theorem worth_of_ne {ns : List NodeId} (h : ∀ n ∈ ns, t.mode n ≠ .void) :
    t.worth ns = ns.length := by
  induction ns with
  | nil => rfl
  | cons n ns ih =>
    have rest := ih fun k hk => h k (by simp [hk])
    simp only [worth] at rest
    simp [worth, rest, ModeId.worth_of_ne (h n (by simp)), Nat.add_comm]

theorem LastYields.worth_eq {ns : List NodeId} (h : t.LastYields ns) : t.worth ns = 1 := by
  obtain ⟨before, last, rfl, hl, hb⟩ := h
  simp [worth_of_void hb, ModeId.worth_of_ne hl]

theorem LastYields.of_append {ns ms : List NodeId} (h : t.LastYields (ns ++ ms)) (hm : ms ≠ []) :
    t.LastYields ms := by
  obtain ⟨before, last, he, hl, hb⟩ := h
  obtain ⟨init, k, rfl⟩ : ∃ init k, ms = init ++ [k] :=
    ⟨_, _, (List.dropLast_concat_getLast hm).symm⟩
  rw [← List.append_assoc] at he
  obtain ⟨rfl, hk⟩ := List.append_inj' he rfl
  cases hk
  exact ⟨init, last, rfl, hl, fun n hn => hb n (by simp [hn])⟩

/-- The depth of the expression stack after some steps of a clause entered at `baseline`. -/
def depthAfter (t : Tree) (baseline : Nat) : Nat → List ChainStep → Nat
  | depth, [] => depth
  | depth, .unit n :: steps => t.depthAfter baseline (depth + (t.mode n).worth) steps
  | _, .boundary :: steps => t.depthAfter baseline baseline steps

theorem le_depthAfter {baseline depth : Nat} (h : baseline ≤ depth) (steps : List ChainStep) :
    baseline ≤ t.depthAfter baseline depth steps := by
  induction steps generalizing depth with
  | nil => exact h
  | cons s steps ih =>
    cases s with
    | unit n => exact ih (Nat.le_add_right_of_le h)
    | boundary => exact ih (Nat.le_refl _)

end Tree

namespace ClauseItem

/-- Whether a stretch of units may start behind these items. -/
def Opens (before : List ClauseItem) : Prop :=
  before = [] ∨ before.getLast? = some .boundary ∨ before.getLast? = some .exit

/-- Whether a stretch of units in front of these items is the end of a run of the clause. -/
def Closes (after : List ClauseItem) : Prop := after = [] ∨ after.head? = some .exit

/-- Every stretch of units at which a run of the clause can end leaves one value, by its last unit.
Behind an `EXIT` there may be no unit at all. -/
def EndsInValue (t : Tree) (L : List ClauseItem) : Prop :=
  ∀ before stretch after, L = before ++ stretch ++ after → Opens before →
    (∀ i ∈ stretch, i.unit?.isSome) → Closes after →
    stretch = [] ∧ before.getLast? = some .exit ∨ t.LastYields (stretch.filterMap unit?)

instance (before : List ClauseItem) : Decidable (Opens before) :=
  inferInstanceAs (Decidable (_ ∨ _ ∨ _))

instance (after : List ClauseItem) : Decidable (Closes after) := inferInstanceAs (Decidable (_ ∨ _))

/-- Whether a stretch of units at which a run of a clause can end leaves one value. -/
def StretchYields (t : Tree) (before stretch after : List ClauseItem) : Prop :=
  Opens before ∧ (∀ i ∈ stretch, i.unit?.isSome) ∧ Closes after →
    stretch = [] ∧ before.getLast? = some .exit ∨ t.LastYields (stretch.filterMap unit?)

instance (t : Tree) (before stretch after : List ClauseItem) :
    Decidable (StretchYields t before stretch after) :=
  inferInstanceAs (Decidable (_ ∧ _ ∧ _ → _ ∨ _))

/-- There are only so many places at which a stretch can begin and end. -/
theorem endsInValue_iff {t : Tree} {L : List ClauseItem} : EndsInValue t L ↔
    ∀ i < L.length + 1, ∀ j < L.length + 1,
      StretchYields t (L.take i) ((L.drop i).take j) ((L.drop i).drop j) := by
  constructor
  · rintro h i _ j _ ⟨ho, hu, hc⟩
    refine h _ _ _ ?_ ho hu hc
    rw [List.append_assoc, List.take_append_drop, List.take_append_drop]
  · rintro h before stretch after rfl ho hu hc
    have hlen : (before ++ stretch ++ after).length = before.length + stretch.length + after.length := by
      simp only [List.length_append]
    have here := h before.length (by omega) stretch.length (by omega)
    simp only [List.append_assoc, List.take_left, List.drop_left] at here
    exact here ⟨ho, hu, hc⟩

instance (t : Tree) (L : List ClauseItem) : Decidable (EndsInValue t L) :=
  decidable_of_iff _ endsInValue_iff.symm

/-- The units that stand last among the items. -/
theorem exists_stretch (L : List ClauseItem) :
    ∃ before stretch, L = before ++ stretch ∧ Opens before ∧ ∀ i ∈ stretch, i.unit?.isSome := by
  induction L with
  | nil => exact ⟨[], [], rfl, .inl rfl, by simp⟩
  | cons i L ih =>
    obtain ⟨before, stretch, rfl, ho, hs⟩ := ih
    cases before with
    | nil =>
      cases i with
      | boundary => exact ⟨[.boundary], stretch, rfl, .inr (.inl rfl), hs⟩
      | exit => exact ⟨[.exit], stretch, rfl, .inr (.inr rfl), hs⟩
      | unit n => exact ⟨[], .unit n :: stretch, rfl, .inl rfl, by simpa [unit?] using hs⟩
      | labelled item n =>
        exact ⟨[], .labelled item n :: stretch, rfl, .inl rfl, by simpa [unit?] using hs⟩
    | cons k before =>
      refine ⟨i :: k :: before, stretch, rfl, .inr ?_, hs⟩
      simpa [Opens] using ho

theorem chain_cons_of_unit {i : ClauseItem} {n : NodeId} (hi : i.unit? = some n)
    (L : List ClauseItem) :
    chain (i :: L) = ⟨.unit n :: (chain L).steps, (chain L).reachesEnd⟩ := by
  cases i with
  | unit | labelled =>
    cases hi
    rfl
  | boundary | exit => cases hi

namespace EndsInValue

variable {t : Tree} {L before dropped kept after : List ClauseItem}

/-- A run that ends with a stretch and has only the values of the later units of it, `kept`, left
one value. -/
theorem worth_eq (h : EndsInValue t L) (hL : L = before ++ (dropped ++ kept) ++ after)
    (ho : Opens before) (hu : ∀ i ∈ dropped ++ kept, i.unit?.isSome) (hc : Closes after)
    (hk : kept = [] → dropped = [] ∧ before.getLast? ≠ some .exit) :
    t.worth (kept.filterMap unit?) = 1 := by
  rcases h before (dropped ++ kept) after hL ho hu hc with ⟨hnil, hexit⟩ | hl
  · exact absurd hexit (hk (List.append_eq_nil_iff.mp hnil).2).2
  · cases kept with
    | nil =>
      rw [(hk rfl).1] at hl
      exact hl.worth_eq
    | cons i kept =>
      rw [List.filterMap_append] at hl
      refine (hl.of_append fun hnil => ?_).worth_eq
      have hi := hu i (by simp)
      rw [List.filterMap_eq_nil_iff] at hnil
      simp [hnil i (by simp)] at hi

/-- A run that goes on behind such a stretch will leave one value. -/
theorem depthAfter_eq (h : EndsInValue t L) (baseline : Nat)
    (before dropped kept after : List ClauseItem) (hL : L = before ++ (dropped ++ kept) ++ after)
    (ho : Opens before)
    (hu : ∀ i ∈ dropped ++ kept, i.unit?.isSome)
    (hk : kept = [] → dropped = [] ∧ before.getLast? ≠ some .exit) :
    t.depthAfter baseline (baseline + t.worth (kept.filterMap unit?)) (chain after).steps =
      baseline + 1 := by
  induction after generalizing before dropped kept with
  | nil => exact congrArg (baseline + ·) (h.worth_eq hL ho hu (.inl rfl) hk)
  | cons i after ih =>
    cases hi : i.unit? with
    | some n =>
      have next := ih before dropped (kept ++ [i]) (by simp [hL]) ho (fun k hk => ?_) (by simp)
      · rw [chain_cons_of_unit hi]
        simpa [hi, Nat.add_assoc, Tree.depthAfter] using next
      · rw [← List.append_assoc, List.mem_append, List.mem_singleton] at hk
        rcases hk with hk | rfl
        · exact hu k hk
        · simp [hi]
    | none =>
      cases i with
      | exit => exact congrArg (baseline + ·) (h.worth_eq hL ho hu (.inr rfl) hk)
      | boundary =>
        have next := ih (before ++ (dropped ++ kept) ++ [.boundary]) [] []
          (by simp [hL]) (.inr (.inl List.getLast?_concat)) (by simp)
          (by rw [List.getLast?_concat]; simp)
        exact next
      | unit | labelled => cases hi

theorem depthAfter_chain (h : EndsInValue t L) (baseline : Nat) :
    t.depthAfter baseline baseline (chain L).steps = baseline + 1 :=
  h.depthAfter_eq baseline [] [] [] L rfl (.inl rfl) (by simp) (by simp)

theorem depthAfter_walk (h : EndsInValue t L) (baseline : Nat) {target : NodeId}
    (hw : (walk (some target) L).pending = none) :
    t.depthAfter baseline baseline (walk (some target) L).steps = baseline + 1 := by
  obtain ⟨before, n, after, rfl, hs⟩ := walk_found hw
  obtain ⟨before, stretch, rfl, ho, hu⟩ := exists_stretch before
  have := h.depthAfter_eq baseline before stretch [.labelled target n] after
    (by simp) ho (fun i hi => ?_) (by simp)
  · rw [hs]
    simpa [chain, unit?, Tree.depthAfter] using this
  · rcases List.mem_append.mp hi with hi | hi
    · exact hu i hi
    · rw [List.mem_singleton.mp hi]
      rfl

end EndsInValue

end ClauseItem

end Algol68
