import Algol68.Proofs.Row.Position

/-! Gathering round by round. The elements of a part of a row can be gathered by a loop that keeps one
count of steps for each range and turns the counts like an odometer. It comes to an end after the last
subscript, and with the same elements or the same fault as going through the subscripts in order. -/

namespace Algol68

/-- What a loop comes to: it goes on from one state to the next until a round gives a result or
faults. -/
inductive Checked.Loops {σ β : Type} (round : σ → Checked (σ ⊕ β)) : σ → Checked β → Prop where
  | done {s : σ} {b : β} (h : round s = .ok (.inr b)) : Loops round s (.ok b)
  | fault {s : σ} {f : Fault} (h : round s = .error f) : Loops round s (.error f)
  | next {s s' : σ} {c : Checked β} (h : round s = .ok (.inl s')) (rest : Loops round s' c) :
    Loops round s c

namespace Checked.Loops

variable {σ β : Type} {round : σ → Checked (σ ⊕ β)} {s : σ} {c c' : Checked β}

theorem unique (h : Loops round s c) (h' : Loops round s c') : c = c' := by
  induction h with
  | done h =>
    cases h' with
    | done h' => simpa [h] using h'
    | fault h' => simp [h] at h'
    | next h' _ => simp [h] at h'
  | fault h =>
    cases h' with
    | done h' => simp [h] at h'
    | fault h' => simpa [h] using h'
    | next h' _ => simp [h] at h'
  | next h _ ih =>
    cases h' with
    | done h' => simp [h] at h'
    | fault h' => simp [h] at h'
    | next h' rest =>
      obtain rfl : _ = _ := by simpa [h] using h'
      exact ih rest

theorem iff_eq (h : Loops round s c) : Loops round s c' ↔ c' = c :=
  ⟨fun h' => h'.unique h, fun hc => hc ▸ h⟩

end Checked.Loops

namespace Row

variable {α : Type} {ns steps : List Nat} {picked : List (Int64 × Nat)}

/-- All counts of steps below the given numbers, the last one changing fastest. -/
def counts : List Nat → List (List Nat)
  | [] => [[]]
  | n :: ns => (List.range n).flatMap fun a => (counts ns).map (a :: ·)

/-- The counts after the given ones: the last count that can grow does, and those behind it start
again at zero. There are none after the last. -/
def turn : List Nat → List Nat → Option (List Nat)
  | n :: ns, a :: steps =>
    match turn ns steps with
    | some steps' => some (a :: steps')
    | none => if a + 1 < n then some ((a + 1) :: steps.map fun _ => 0) else none
  | _, _ => none

theorem length_counts (ns : List Nat) : (counts ns).length = ns.prod := by
  induction ns with
  | nil => rfl
  | cons n ns ih =>
    simp only [counts, List.length_flatMap, List.length_map, ih, List.map_const',
      List.sum_replicate_nat, List.length_range, List.prod_cons]

theorem getElem?_counts {n a k : Nat} (ha : a < n) (hk : k < ns.prod) :
    (counts (n :: ns))[a * ns.prod + k]? = (counts ns)[k]?.map (a :: ·) := by
  rw [counts, getElem?_blocks (fun a _ => ?_) (List.getElem?_range ha) hk, List.getElem?_map]
  rw [List.length_map, length_counts]

theorem getElem?_counts_zero (h : 0 < ns.prod) :
    (counts ns)[0]? = some (ns.map fun _ => 0) := by
  induction ns with
  | nil => rfl
  | cons n ns ih =>
    rw [List.prod_cons] at h
    have hns : 0 < ns.prod := Nat.pos_of_lt_mul_left h
    have hfirst := getElem?_counts (Nat.pos_of_lt_mul_right h) hns
    rw [Nat.zero_mul, Nat.zero_add] at hfirst
    rw [hfirst, ih hns]
    rfl

theorem length_of_mem_counts (h : steps ∈ counts ns) : steps.length = ns.length := by
  induction ns generalizing steps with
  | nil =>
    obtain rfl := List.mem_singleton.mp h
    rfl
  | cons n ns ih =>
    simp only [counts, List.mem_flatMap, List.mem_map] at h
    obtain ⟨a, -, steps, hsteps, rfl⟩ := h
    rw [List.length_cons, ih hsteps, List.length_cons]

/-- A turn leads from each of the counts to the one after it. -/
theorem turn_eq {k : Nat} (h : (counts ns)[k]? = some steps) :
    turn ns steps = (counts ns)[k + 1]? := by
  induction ns generalizing k steps with
  | nil =>
    rw [counts, List.getElem?_singleton] at h
    split at h
    · next hk => simp [hk, turn, counts]
    · cases h
  | cons n ns ih =>
    have hk : k < n * ns.prod := by
      have hlt := (List.getElem?_eq_some_iff.mp h).1
      rwa [length_counts, List.prod_cons] at hlt
    have hpos : 0 < ns.prod := Nat.pos_of_lt_mul_left hk
    obtain ⟨a, c, ha, hc, rfl⟩ := exists_block hk
    rw [getElem?_counts ha hc, Option.map_eq_some_iff] at h
    obtain ⟨steps, hsteps, rfl⟩ := h
    rw [turn, ih hsteps]
    rcases Nat.lt_or_eq_of_le (Nat.succ_le_of_lt hc) with hlt | heq
    · have hlen : c + 1 < (counts ns).length := by rwa [length_counts]
      have hnext : (counts ns)[c + 1]? = some (counts ns)[c + 1] := List.getElem?_eq_getElem hlen
      rw [Nat.add_assoc, getElem?_counts ha hlt, hnext]
      rfl
    · -- the counts behind the first one have come to their end
      have hend : (counts ns)[c + 1]? = none := by
        rw [List.getElem?_eq_none_iff, length_counts]
        omega
      have hblock : a * ns.prod + c + 1 = (a + 1) * ns.prod := by
        rw [Nat.succ_mul]
        omega
      have hlength := length_of_mem_counts (List.mem_of_getElem? hsteps)
      rw [hend, hblock]
      by_cases hn : a + 1 < n
      · have hfirst := getElem?_counts hn hpos
        rw [Nat.add_zero] at hfirst
        rw [hfirst, getElem?_counts_zero hpos]
        simp [hn, hlength]
      · have hle : n * ns.prod ≤ (a + 1) * ns.prod := Nat.mul_le_mul_right _ (by omega)
        have hnone : (counts (n :: ns))[(a + 1) * ns.prod]? = none := by
          rw [List.getElem?_eq_none_iff, length_counts, List.prod_cons]
          exact hle
        rw [hnone]
        simp [hn]

/-- The subscript that so many steps lead to. -/
def subscriptAt (picked : List (Int64 × Nat)) (steps : List Nat) : List Int64 :=
  List.zipWith (fun range (step : Nat) => saturate (range.1.toInt + step)) picked steps

theorem subscriptsWithin_eq (picked : List (Int64 × Nat)) :
    subscriptsWithin picked = (counts (picked.map Prod.snd)).map (subscriptAt picked) := by
  induction picked with
  | nil => rfl
  | cons range picked ih =>
    simp only [subscriptsWithin, ih, List.map_cons, counts, List.map_flatMap, List.map_map]
    rfl

/-- One round of gathering: take the element that the counts lead to and turn them. -/
def gatherRound (r : Row α) (picked : List (Int64 × Nat)) :
    List Nat × Array α → Checked ((List Nat × Array α) ⊕ Array α)
  | (steps, gathered) =>
    if gathered.size < (picked.map Prod.snd).prod then do
      let x ← r.select (subscriptAt picked steps)
      match turn (picked.map Prod.snd) steps with
      | some steps' => return .inl (steps', gathered.push x)
      | none => return .inr (gathered.push x)
    else return .inr gathered

theorem gathered_nil (r : Row α) (gathered : Array α) :
    (fun xs : List α => gathered ++ xs.toArray) <$> ([] : List (List Int64)).mapM r.select =
      .ok gathered :=
  congrArg Except.ok (Array.append_empty : gathered ++ #[] = gathered)

theorem gathered_cons (r : Row α) (gathered : Array α) (x : α) (ss : List (List Int64)) :
    (fun xs : List α => gathered ++ xs.toArray) <$> (do
        let xs ← ss.mapM r.select
        pure (x :: xs)) =
      (fun xs => gathered.push x ++ xs.toArray) <$> ss.mapM r.select := by
  cases ss.mapM r.select with
  | error f => rfl
  | ok xs => simp [Functor.map, Except.map, bind, Except.bind, pure, Except.pure]

/-- From the counts that stand at some place on, the loop gathers what is still to come. -/
theorem gathers_from (r : Row α) (picked : List (Int64 × Nat)) {k : Nat} {gathered : Array α}
    (hk : gathered.size = k) (hle : k ≤ (picked.map Prod.snd).prod)
    (hsteps : k < (picked.map Prod.snd).prod →
      (counts (picked.map Prod.snd))[k]? = some steps) :
    Checked.Loops (r.gatherRound picked) (steps, gathered)
      ((fun xs => gathered ++ xs.toArray) <$> ((subscriptsWithin picked).drop k).mapM r.select) := by
  -- by how many subscripts are still to come, each with the counts that lead to it
  induction hle using Nat.decreasingInduction generalizing steps gathered with
  | self =>
    have hdrop : (subscriptsWithin picked).drop (picked.map Prod.snd).prod = [] := by
      rw [List.drop_eq_nil_iff, length_subscriptsWithin]
    rw [hdrop, gathered_nil]
    refine .done ?_
    simp only [gatherRound, hk, Nat.lt_irrefl, if_false]
    rfl
  | of_succ k hlt ih =>
    have hcounts := hsteps hlt
    have hdrop : (subscriptsWithin picked).drop k =
        subscriptAt picked steps :: (subscriptsWithin picked).drop (k + 1) := by
      have hk : (subscriptsWithin picked)[k]? = some (subscriptAt picked steps) := by
        rw [subscriptsWithin_eq, List.getElem?_map, hcounts]
        rfl
      obtain ⟨hlen, hget⟩ := List.getElem?_eq_some_iff.mp hk
      rw [List.drop_eq_getElem_cons hlen, hget]
    rw [hdrop, List.mapM_cons]
    cases hx : r.select (subscriptAt picked steps) with
    | error f =>
      refine .fault ?_
      simp only [gatherRound, hk, hlt, if_true, hx]
      rfl
    | ok x =>
      have hpush : (gathered.push x).size = k + 1 := by rw [Array.size_push, hk]
      have hturn := turn_eq hcounts
      have hrest := gathered_cons r gathered x ((subscriptsWithin picked).drop (k + 1))
      refine hrest.symm ▸ ?_
      cases hsome : (counts (picked.map Prod.snd))[k + 1]? with
      | some steps' =>
        refine .next ?_ (ih hpush fun _ => hsome)
        simp only [gatherRound, hk, hlt, if_true, hx, hturn, hsome]
        rfl
      | none =>
        have hend := List.getElem?_eq_none_iff.mp hsome
        rw [length_counts] at hend
        have hdrop : (subscriptsWithin picked).drop (k + 1) = [] := by
          rw [List.drop_eq_nil_iff, length_subscriptsWithin]
          exact hend
        rw [hdrop, gathered_nil]
        refine .done ?_
        simp only [gatherRound, hk, hlt, if_true, hx, hturn, hsome]
        rfl

/-- The loop comes to an end, with what going through the subscripts in order comes to. -/
theorem gathers (r : Row α) (picked : List (Int64 × Nat)) :
    Checked.Loops (r.gatherRound picked) (picked.map fun _ => 0, #[])
      (List.toArray <$> (subscriptsWithin picked).mapM r.select) := by
  have hfirst : 0 < (picked.map Prod.snd).prod →
      (counts (picked.map Prod.snd))[0]? = some (picked.map fun _ => 0) := by
    intro hpos
    rw [getElem?_counts_zero hpos, List.map_map]
    rfl
  simpa using r.gathers_from picked Array.size_empty (Nat.zero_le _) hfirst

end Row

end Algol68
