import Algol68.Proofs.Scope.Environ

/-! The ranges a node needs. A node needs a range around it when some part of the node uses a slot or
a label of the range. The environ of a routine text is the deepest range that its body needs from
outside, so the routine finds there all that it needs. -/

namespace Algol68

open Relation (ReflTransGen)

namespace Program

variable (p : Program)

/-- The levels of the ranges whose slots or labels a node of this kind itself uses. -/
def uses : NodeKind → List Nat
  | .identityDeclaration slot _ | .variableDeclaration slot _ _ => [slot.level]
  | kind => Tree.levels p.scopes p.labels kind

/-- A node where it stands, as a part of another one. -/
abbrev Below : ScopeId × NodeId → ScopeId × NodeId → Prop :=
  ReflTransGen fun x y => y ∈ p.standings x.1 (p.tree.kind x.2)

/-- The node `n`, which stands in `s'`, needs a range around `s`. -/
structure Needs (s s' : ScopeId) (n : NodeId) (d : ScopeId) : Prop where
  encloses : p.Encloses d s
  used : ∃ c, p.Below (s', n) c ∧ p.Encloses d c.1 ∧ p.level d ∈ p.uses (p.tree.kind c.2)

variable {p} {starts : NodeId → Prop} {s s' d : ScopeId} {n : NodeId}

theorem Stands.part {c : ScopeId × NodeId} (h : p.Stands starts s n) (hb : p.Below (s, n) c) :
    p.Stands starts c.1 c.2 := by
  induction hb with
  | refl => exact h
  | tail _ hc ih => exact .inner ih hc

theorem WellScoped.encloses_below (hw : p.WellScoped starts) (h : p.Stands starts s n)
    {c : ScopeId × NodeId} (hb : p.Below (s, n) c) : p.Encloses s c.1 := by
  induction hb with
  | refl => exact .refl
  | tail hb hc ih => exact ih.trans (encloses_of_mem (hw.proper (h.part hb)) hc)

theorem Below.path {x y : ScopeId × NodeId} (h : p.Below x y) : ∃ k, p.tree.Path k x.2 y.2 := by
  induction h with
  | refl => exact ⟨0, .here _⟩
  | @tail y z _ hc ih =>
    obtain ⟨k, hk⟩ := ih
    refine ⟨k + 1, hk.append (.down ?_ (.here _))⟩
    rw [← standings_nodes y.1]
    exact List.mem_map_of_mem hc

theorem exists_below {k : Nat} {x : NodeId} (h : p.tree.Path k n x) (s : ScopeId) :
    ∃ s', p.Below (s, n) (s', x) := by
  induction h generalizing s with
  | here => exact ⟨s, .refl⟩
  | down hc _ ih =>
    obtain ⟨s₁, h₁⟩ := exists_standing (s := s) hc
    obtain ⟨s₂, h₂⟩ := ih s₁
    exact ⟨s₂, .head h₁ h₂⟩

/-- What a node uses of a range around it is a local or a label of that range. -/
theorem WellScoped.occupied (hw : p.WellScoped starts) (hj : p.JumpsOutward starts)
    (h : p.Stands starts s n) (hd : p.Encloses d s) (hu : p.level d ∈ p.uses (p.tree.kind n)) :
    (p.scopes.get d).locals ≠ #[] ∨ (p.scopes.get d).hasLabels := by
  have declared {slot : Slot} {s' : ScopeId} (he : p.Encloses s' s) (hs : p.Declares s' slot)
      (hl : p.level d = slot.level) : (p.scopes.get d).locals ≠ #[] := by
    obtain rfl : d = s' := hd.eq_of_level he (hl.trans hs.level.symm)
    intro hz
    have := hs.offset
    simp [hz] at this
  have hp := hw.proper h
  cases hk : p.tree.kind n with
  | identifier slot =>
    simp only [hk, uses, Tree.levels, List.mem_singleton] at hu hp
    obtain ⟨s', he, hs⟩ := hp
    exact .inl (declared he hs hu)
  | formula op left right | monadic op operand =>
    simp only [hk, uses, Tree.levels, List.mem_map] at hu hp
    obtain ⟨slot, hm, hl⟩ := hu
    obtain ⟨s', he, hs⟩ := hp slot hm
    exact .inl (declared he hs hl.symm)
  | identityDeclaration slot value | variableDeclaration slot generator init =>
    simp only [hk, uses, List.mem_singleton] at hu hp
    exact .inl (declared .refl hp hu)
  | jump l =>
    simp only [hk, uses, Tree.levels, List.mem_singleton] at hu
    obtain ⟨he, hl⟩ := hj h hk
    obtain rfl := hd.eq_of_level he hu
    exact .inr hl
  | _ => simp [hk, uses, Tree.levels] at hu

/-- What a node refers to is a range around it. -/
theorem WellScoped.exists_encloses (hw : p.WellScoped starts) (hj : p.JumpsOutward starts)
    (h : p.Stands starts s n) {l : Nat}
    (hl : l ∈ Tree.levels p.scopes p.labels (p.tree.kind n)) :
    ∃ d, p.Encloses d s ∧ p.level d = l ∧ p.level d ∈ p.uses (p.tree.kind n) := by
  have hp := hw.proper h
  cases hk : p.tree.kind n with
  | identifier slot =>
    simp only [hk, Tree.levels, List.mem_singleton] at hl hp
    obtain ⟨d, he, hs⟩ := hp
    exact ⟨d, he, hs.level.trans hl.symm, by simp [uses, Tree.levels, hs.level]⟩
  | formula op left right | monadic op operand =>
    simp only [hk, Tree.levels, List.mem_map] at hl hp
    obtain ⟨slot, hm, rfl⟩ := hl
    obtain ⟨d, he, hs⟩ := hp slot hm
    exact ⟨d, he, hs.level, by simpa [uses, Tree.levels, hs.level] using ⟨slot, hm, rfl⟩⟩
  | jump id =>
    simp only [hk, Tree.levels, List.mem_singleton] at hl
    exact ⟨_, (hj h hk).1, hl.symm, by simp [uses, Tree.levels, level]⟩
  | _ => simp [hk, Tree.levels] at hl

section

variable {r body : NodeId} {q : ScopeId} {k : Nat}

/-- What the body of a routine text needs from outside is what some part of it refers to: what is
declared in the body lies deeper. -/
theorem WellScoped.refers (hw : p.WellScoped starts) (h : p.Stands starts s r)
    (hr : p.tree.kind r = .routineText q k body) (hn : p.Needs s q body d) :
    ∃ c, p.Below (q, body) c ∧ p.Encloses d c.1 ∧
      p.level d ∈ Tree.levels p.scopes p.labels (p.tree.kind c.2) := by
  have hq : p.Child q s := by
    have := hw.proper h
    rwa [hr] at this
  have hbody : p.Stands starts q body := .inner (c := (q, body)) h (by simp [hr, standings])
  have hlt : p.level d < p.level q := by
    have := hq.level
    have := hn.encloses.level_le
    omega
  obtain ⟨c, hc, hd, hu⟩ := hn.used
  have hcq : p.level q ≤ p.level c.1 := (hw.encloses_below hbody hc).level_le
  have hp := hw.proper (hbody.part hc)
  refine ⟨c, hc, hd, ?_⟩
  cases hk : p.tree.kind c.2 with
  | identityDeclaration slot value | variableDeclaration slot generator init =>
    simp only [hk, uses, List.mem_singleton] at hu hp
    have := hp.level
    omega
  | _ => simpa [hk, uses] using hu

/-- The environ of a routine text is not outside of a range that the body needs. -/
theorem WellScoped.level_le_environ (hw : p.WellScoped starts) (h : p.Stands starts s r)
    (hr : p.tree.kind r = .routineText q k body) (hn : p.Needs s q body d) :
    p.level d ≤ p.environLevel r := by
  have hq : p.Child q s := by
    have := hw.proper h
    rwa [hr] at this
  have hlt : p.level d < p.level q := by
    have := hq.level
    have := hn.encloses.level_le
    omega
  obtain ⟨c, hc, -, hl⟩ := hw.refers h hr hn
  have hin : c.2.index < p.tree.size := by
    by_contra hn
    have : p.tree.kind c.2 = .punct := by
      simp only [Tree.kind, Tree.node, Array.getD_eq_getD_getElem?]
      rw [Array.getElem?_eq_none (Nat.le_of_not_lt hn)]
      rfl
    rw [this] at hl
    cases hl
  obtain ⟨i, hi⟩ := Below.path hc
  obtain ⟨j, hj, hpath⟩ := hi.exists_short hin
  rw [hw.environs, Tree.environLevel, hr]
  exact Tree.le_youngestAt hpath hj hl hlt

/-- The environ of a routine text is the standard environ or a range that the body needs. -/
theorem WellScoped.environ_needed (hw : p.WellScoped starts) (hj : p.JumpsOutward starts)
    (h : p.Stands starts s r) (hr : p.tree.kind r = .routineText q k body) :
    p.environLevel r = 0 ∨ ∃ d, p.Needs s q body d ∧ p.level d = p.environLevel r := by
  have hq : p.Child q s := by
    have := hw.proper h
    rwa [hr] at this
  have hbody : p.Stands starts q body := .inner (c := (q, body)) h (by simp [hr, standings])
  rw [hw.environs, Tree.environLevel, hr]
  rcases @Tree.youngestAt_mem p.tree p.scopes p.labels (p.scopes.get q).level p.tree.size body with
    hz | ⟨i, x, hpath, hl, hlt⟩
  · exact .inl hz
  obtain ⟨s', hb⟩ := exists_below hpath q
  obtain ⟨d, hd, hdl, hu⟩ := hw.exists_encloses hj (hbody.part hb) hl
  refine .inr ⟨d, ⟨?_, ⟨_, hb, hd, hu⟩⟩, hdl⟩
  have hlt : p.level d < p.level q := by
    rw [hdl]
    exact hlt
  have hdq : p.Encloses d q := hd.of_level_le (hw.encloses_below hbody hb) (Nat.le_of_lt hlt)
  refine hdq.of_child hq ?_
  rintro rfl
  exact Nat.lt_irrefl _ hlt

end

end Program

end Algol68
