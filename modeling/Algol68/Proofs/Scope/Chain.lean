import Algol68.Proofs.Frames.Outline
import Algol68.Proofs.Scope.Needs

/-! Static chains. Each frame on a chain belongs to a range around that of the frame before it, so the
frame at the level of a range is the frame of that range, if the chain has one. -/

namespace Algol68

open Relation (ReflTransGen)

/-- What tells one activation from another, and where its static link points. -/
def Frame.key (f : Frame) : ScopeId × Option Nat × Nat := (f.scope, f.staticLink, f.serial)

/-- The static link of one frame points to another one. -/
def Link (fs : List Frame) (i l : Nat) : Prop := ∃ f, fs[i]? = some f ∧ f.staticLink = some l

/-- Static links lead from one frame to another one. -/
abbrev Leads (fs : List Frame) : Nat → Nat → Prop := ReflTransGen (Link fs)

/-- Static links lead from a frame to one of the given range. -/
def Reaches (fs : List Frame) (i : Nat) (d : ScopeId) : Prop :=
  ∃ k f, Leads fs i k ∧ fs[k]? = some f ∧ f.scope = d

/-- Static links point to frames of ranges further out, down to the standard environ. -/
structure Nested (p : Program) (fs : List Frame) : Prop where
  levels : ∀ {i : Nat} {f : Frame}, fs[i]? = some f → f.level = p.level f.scope
  linked : ∀ {i l : Nat} {f : Frame}, fs[i]? = some f → f.staticLink = some l →
    l < i ∧ ∃ g : Frame, fs[l]? = some g ∧ p.Encloses g.scope f.scope ∧ p.level g.scope < p.level f.scope
  rooted : ∀ {i : Nat} {f : Frame}, fs[i]? = some f → f.staticLink = none → f.scope = .standard

namespace Nested

variable {p : Program} {fs : List Frame} {i k : Nat} {f g : Frame} {d : ScopeId}

theorem linked_of_link (h : Nested p fs) {l : Nat} (hl : Link fs i l) : l < i := by
  obtain ⟨f, hf, hl⟩ := hl
  exact (h.linked hf hl).1

theorem le_of_leads (h : Nested p fs) (hl : Leads fs i k) : k ≤ i := by
  induction hl with
  | refl => exact Nat.le_refl _
  | tail _ hs ih =>
    have := h.linked_of_link hs
    omega

theorem encloses (h : Nested p fs) (hf : fs[i]? = some f) (hl : Leads fs i k)
    (hg : fs[k]? = some g) : p.Encloses g.scope f.scope := by
  induction hl generalizing g with
  | refl =>
    cases hf.symm.trans hg
    exact .refl
  | @tail j k _ hs ih =>
    obtain ⟨x, hx, hl⟩ := hs
    obtain ⟨-, y, hy, he, -⟩ := h.linked hx hl
    cases hy.symm.trans hg
    exact he.trans (ih hx)

theorem level_lt (h : Nested p fs) (hf : fs[i]? = some f) (hl : Leads fs i k)
    (hg : fs[k]? = some g) (hne : i ≠ k) : p.level g.scope < p.level f.scope := by
  rcases Relation.ReflTransGen.cases_head hl with rfl | ⟨j, ⟨x, hx, hxl⟩, hl⟩
  · exact absurd rfl hne
  · cases hf.symm.trans hx
    obtain ⟨-, y, hy, -, hlt⟩ := h.linked hf hxl
    have := (h.encloses hy hl hg).level_le
    omega

theorem reaches_standard (h : Nested p fs) (hf : fs[i]? = some f) :
    ∃ k g, Leads fs i k ∧ fs[k]? = some g ∧ g.scope = .standard := by
  induction i using Nat.strong_induction_on generalizing f with
  | _ i ih =>
    cases hl : f.staticLink with
    | none => exact ⟨i, f, .refl, hf, h.rooted hf hl⟩
    | some l =>
      obtain ⟨hlt, g, hg, -⟩ := h.linked hf hl
      obtain ⟨k, x, hk, hx, hs⟩ := ih l hlt hg
      exact ⟨k, x, .head ⟨f, hf, hl⟩ hk, hx, hs⟩

/-- Of two frames on a static chain, the one that is not at a higher level is led to by the other. -/
theorem leads_of_level_le (h : Nested p fs) {a b : Nat} {x y : Frame}
    (ha : Leads fs i a) (hb : Leads fs i b) (hx : fs[a]? = some x) (hy : fs[b]? = some y)
    (hl : p.level y.scope ≤ p.level x.scope) : Leads fs a b := by
  have unique : Relator.RightUnique (Link fs) := by
    rintro i a b ⟨f, hf, ha⟩ ⟨g, hg, hb⟩
    cases hf.symm.trans hg
    exact Option.some.inj (ha.symm.trans hb)
  rcases Relation.ReflTransGen.total_of_right_unique unique ha hb with h' | h'
  · exact h'
  · by_cases hab : b = a
    · rw [hab]
    · have := h.level_lt hy h' hx hab
      omega

end Nested

/-- A chain of frames is followed to the frame at a level. -/
theorem FrameStack.resolveFrom_eq {p : Program} {s : FrameStack} (h : Nested p s.hollow)
    {i k links : Nat} {f g : Frame} (hf : s.hollow[i]? = some f) (hl : Leads s.hollow i k)
    (hg : s.hollow[k]? = some g) (hi : i < links) :
    s.resolveFrom (p.level g.scope) links i = .ok k := by
  induction links generalizing i f with
  | zero => omega
  | succ links ih =>
    have hf' := hf
    rw [hollow_getElem?] at hf'
    obtain ⟨x, hx, rfl⟩ := Option.map_eq_some_iff.mp hf'
    have hlevel : x.level = p.level x.scope := h.levels (f := x.hollow) hf
    simp only [resolveFrom, hx]
    by_cases hik : i = k
    · subst hik
      cases hf.symm.trans hg
      exact if_pos hlevel
    · have hlt : p.level g.scope < p.level x.scope := h.level_lt (f := x.hollow) hf hl hg hik
      rw [if_neg (by omega)]
      rcases Relation.ReflTransGen.cases_head hl with rfl | ⟨j, ⟨y, hy, hyl⟩, hl⟩
      · exact absurd rfl hik
      · cases hf.symm.trans hy
        have hxl : x.staticLink = some j := hyl
        obtain ⟨hji, z, hz, -⟩ := h.linked hf hyl
        simp only [hxl]
        rw [if_pos (by omega)]
        exact ih hz hl (by omega)

theorem FrameStack.resolve_eq {p : Program} {s : FrameStack} (h : Nested p s.hollow) {k : Nat}
    {g : Frame} (hpos : 0 < s.depth) (hl : Leads s.hollow (s.depth - 1) k)
    (hg : s.hollow[k]? = some g) : s.resolve (p.level g.scope) = .ok k := by
  have htop : s.top = .ok (s.depth - 1) := by
    have hne : s.frames.isEmpty = false := by
      simpa [depth, Array.size_pos_iff] using hpos
    simp [top, depth, hne]
  have hlt : s.depth - 1 < s.hollow.length := by
    rw [hollow_length]
    omega
  have hf : s.hollow[s.depth - 1]? = some s.hollow[s.depth - 1] := List.getElem?_eq_getElem hlt
  rw [resolve, htop]
  exact s.resolveFrom_eq h hf hl hg (by simp only [depth] at *; omega)

/-! Frames further up do not matter for a chain. -/

/-- Two lists of frames have the same activations, linked in the same way, below a place. -/
def SameBelow (n : Nat) (fs gs : List Frame) : Prop :=
  ∀ i < n, (fs[i]?).map Frame.key = (gs[i]?).map Frame.key

namespace SameBelow

variable {n i k : Nat} {fs gs : List Frame} {p : Program} {d : ScopeId}

theorem symm (h : SameBelow n fs gs) : SameBelow n gs fs := fun i hi => (h i hi).symm

theorem exists_key (h : SameBelow n fs gs) (hi : i < n) {f : Frame} (hf : fs[i]? = some f) :
    ∃ g, gs[i]? = some g ∧ g.key = f.key := by
  have := h i hi
  rw [hf, Option.map_some] at this
  obtain ⟨g, hg, hk⟩ := Option.map_eq_some_iff.mp this.symm
  exact ⟨g, hg, hk⟩

theorem link (h : SameBelow n fs gs) (hi : i < n) (hl : Link fs i k) : Link gs i k := by
  obtain ⟨f, hf, hl⟩ := hl
  obtain ⟨g, hg, hk⟩ := h.exists_key hi hf
  simp only [Frame.key, Prod.mk.injEq] at hk
  exact ⟨g, hg, hk.2.1.trans hl⟩

theorem leads (h : SameBelow n fs gs) (hn : Nested p fs) (hi : i < n) (hl : Leads fs i k) :
    Leads gs i k := by
  induction hl with
  | refl => exact .refl
  | @tail j k hij hjk ih =>
    have := hn.le_of_leads hij
    exact .tail ih (h.link (by omega) hjk)

theorem reaches (h : SameBelow n fs gs) (hn : Nested p fs) (hi : i < n) (hr : Reaches fs i d) :
    Reaches gs i d := by
  obtain ⟨k, f, hl, hf, hs⟩ := hr
  have := hn.le_of_leads hl
  obtain ⟨g, hg, hk⟩ := h.exists_key (by omega) hf
  simp only [Frame.key, Prod.mk.injEq] at hk
  exact ⟨k, g, h.leads hn hi hl, hg, hk.1.trans hs⟩

theorem take (n : Nat) (fs : List Frame) : SameBelow n fs (fs.take n) := by
  intro i hi
  rw [List.getElem?_take_of_lt hi]

theorem append (fs gs : List Frame) : SameBelow fs.length fs (fs ++ gs) := by
  intro i hi
  rw [List.getElem?_append_left hi]

theorem modify (n : Nat) (fs : List Frame) (k : Nat) {f : Frame → Frame}
    (hf : ∀ x, (f x).key = x.key) : SameBelow n fs (fs.modify k f) := by
  intro i hi
  rw [List.getElem?_modify]
  cases fs[i]? with
  | none => rfl
  | some x => by_cases hk : k = i <;> simp [hk, hf]

end SameBelow

end Algol68
