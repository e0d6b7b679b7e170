import Algol68.Program.Chain
import Algol68.Program.Environ
import Algol68.Program.Basic
import Mathlib.Logic.Relation

/-! Where the nodes of a program stand. A range that a node opens is a child of the range the node
stands in, and every slot names a local of a range around its use. -/

namespace Algol68

open Relation (ReflTransGen)

namespace Program

variable (p : Program)

/-- The lexical level of a range. -/
def level (s : ScopeId) : Nat := (p.scopes.get s).level

/-- A range directly inside another one. -/
structure Child (inner outer : ScopeId) : Prop where
  parent : (p.scopes.get inner).parent = some outer
  level : p.level inner = p.level outer + 1

/-- A range is another one or a range around it. -/
abbrev Encloses : ScopeId → ScopeId → Prop := ReflTransGen fun outer inner => p.Child inner outer

namespace Encloses

variable {p} {a b s : ScopeId}

theorem level_le (h : p.Encloses a s) : p.level a ≤ p.level s := by
  induction h with
  | refl => exact Nat.le_refl _
  | tail _ hc ih =>
    have := hc.level
    omega

theorem total (ha : p.Encloses a s) (hb : p.Encloses b s) : p.Encloses a b ∨ p.Encloses b a := by
  have unique : Relator.RightUnique fun inner outer => p.Child inner outer := by
    intro x y z hy hz
    have := hy.parent.symm.trans hz.parent
    exact Option.some.inj this
  have ha' := Relation.reflTransGen_swap.mpr ha
  have hb' := Relation.reflTransGen_swap.mpr hb
  rcases Relation.ReflTransGen.total_of_right_unique unique ha' hb' with h | h
  · exact .inr (Relation.reflTransGen_swap.mp h)
  · exact .inl (Relation.reflTransGen_swap.mp h)

theorem eq_of_level_le (h : p.Encloses a s) (hl : p.level s ≤ p.level a) : a = s := by
  rcases Relation.ReflTransGen.cases_tail h with h | ⟨b, hb, hc⟩
  · exact h.symm
  · have := hc.level
    have := level_le hb
    omega

theorem eq_of_level (ha : p.Encloses a s) (hb : p.Encloses b s) (hl : p.level a = p.level b) :
    a = b := by
  rcases total ha hb with h | h
  · exact eq_of_level_le h (Nat.le_of_eq hl.symm)
  · exact (eq_of_level_le h (Nat.le_of_eq hl)).symm

theorem of_child (ha : p.Encloses a s) (hc : p.Child s b) (hne : a ≠ s) : p.Encloses a b := by
  rcases Relation.ReflTransGen.cases_tail ha with h | ⟨c, hc', h⟩
  · exact absurd h.symm hne
  · have := h.parent.symm.trans hc.parent
    cases this
    exact hc'

theorem of_level_le (ha : p.Encloses a s) (hb : p.Encloses b s) (hl : p.level a ≤ p.level b) :
    p.Encloses a b := by
  rcases total ha hb with h | h
  · exact h
  · rw [eq_of_level_le h hl]

end Encloses

/-- The nodes that a node of this kind is made of, each with the range it stands in, for a node that
stands in `s`. -/
def standings (s : ScopeId) : NodeKind → List (ScopeId × NodeId)
  | .closed scope serial => [(scope, serial)]
  | .conditional scope enquiry thenPart elsePart =>
    (enquiry :: thenPart :: elsePart.toList).map (scope, ·)
  | .integerCase scope enquiry alternatives outPart
  | .conformityCase scope enquiry alternatives outPart =>
    (enquiry :: p.tree.list alternatives ++ outPart.toList).map (scope, ·)
  | .conformityAlternative id =>
    let a := p.tree.alternative id
    [(a.scope, a.unit)]
  | .loop id =>
    let parts := p.tree.loopParts id
    (parts.fromPart.toList ++ parts.byPart.toList ++ parts.toPart.toList).map (s, ·) ++
      (parts.whilePart.toList ++ [parts.doPart] ++ parts.untilPart.toList).map (parts.bodyScope, ·)
  | .routineText scope _ body => [(scope, body)]
  | kind => (p.tree.children kind).map (s, ·)

/-- Whether a node, as part of one of the nodes to start from, stands directly in a range. -/
inductive Stands (starts : NodeId → Prop) : ScopeId → NodeId → Prop where
  | start {n : NodeId} (h : starts n) : Stands starts .standard n
  | inner {s : ScopeId} {n : NodeId} {c : ScopeId × NodeId} (h : Stands starts s n)
      (hc : c ∈ p.standings s (p.tree.kind n)) : Stands starts c.1 c.2

/-- A slot of a range itself. -/
structure Declares (s : ScopeId) (slot : Slot) : Prop where
  level : p.level s = slot.level
  offset : slot.offset < (p.scopes.get s).locals.size

/-- A slot of a range around a place. -/
def Visible (s : ScopeId) (slot : Slot) : Prop := ∃ d, p.Encloses d s ∧ p.Declares d slot

/-- A serial clause that is run for a range belongs to that range. -/
def RunsIn (scope : ScopeId) (n : NodeId) : Prop :=
  ∀ range items, p.tree.kind n = .serialClause range items → range = scope

/-- A node of this kind opens ranges and uses slots as it should where it stands. -/
def Proper (s : ScopeId) : NodeKind → Prop
  | .identifier slot => p.Visible s slot
  | .formula op _ _ | .monadic op _ => ∀ slot ∈ op.slots, p.Visible s slot
  | .identityDeclaration slot _ | .variableDeclaration slot _ _ => p.Declares s slot
  | .closed scope clause | .conditional scope clause _ _ | .integerCase scope clause _ _
  | .conformityCase scope clause _ _ => p.Child scope s ∧ p.RunsIn scope clause
  | .conformityAlternative id =>
    let a := p.tree.alternative id
    p.Child a.scope s ∧ ∀ slot ∈ a.binding, p.Declares a.scope slot
  | .loop id =>
    let parts := p.tree.loopParts id
    p.Child parts.scope s ∧ p.Child parts.bodyScope parts.scope ∧
      (∀ slot ∈ parts.counter, p.Declares parts.scope slot) ∧
      ∀ n ∈ parts.whilePart.toList ++ [parts.doPart] ++ parts.untilPart.toList,
        p.RunsIn parts.bodyScope n
  | .routineText scope _ _ => p.Child scope s
  | _ => True

/-- A program whose nodes use ranges and slots as they should, and whose routine texts have the
environs computed for them. -/
structure WellScoped (starts : NodeId → Prop) : Prop where
  standard : p.level .standard = 0
  environs : ∀ n, p.environLevel n = p.tree.environLevel p.scopes p.labels n
  proper : ∀ {s n}, p.Stands starts s n → p.Proper s (p.tree.kind n)

/-- Jumps lead to labels of ranges around them. -/
def JumpsOutward (starts : NodeId → Prop) : Prop :=
  ∀ {s n l}, p.Stands starts s n → p.tree.kind n = .jump l →
    p.Encloses (p.labels.get l).scope s ∧ (p.scopes.get (p.labels.get l).scope).hasLabels

variable {p} {starts : NodeId → Prop}

/-- The nodes stand where a list of places says that holds the parts of all that is in it. -/
theorem Stands.mem {places : List (ScopeId × NodeId)} {s : ScopeId} {n : NodeId}
    (h : p.Stands starts s n) (hs : ∀ n, starts n → (.standard, n) ∈ places)
    (hc : ∀ x ∈ places, ∀ c ∈ p.standings x.1 (p.tree.kind x.2), c ∈ places) : (s, n) ∈ places := by
  induction h with
  | start h => exact hs _ h
  | inner _ hm ih => exact hc _ ih _ hm

theorem environLevel_of_size_le {n : NodeId} (hn : p.tree.size ≤ n.index) :
    p.tree.environLevel p.scopes p.labels n = 0 := by
  have : p.tree.kind n = .punct := by
    simp only [Tree.kind, Tree.node, Array.getD_eq_getD_getElem?]
    rw [Array.getElem?_eq_none hn]
    rfl
  rw [Tree.environLevel, this]

/-- A program is well-scoped if it is so at each place of a list that holds the parts of all that is
in it. -/
theorem WellScoped.of_places (places : List (ScopeId × NodeId)) (hl : p.level .standard = 0)
    (henv : ∀ k < p.tree.size, p.environLevel ⟨k⟩ = p.tree.environLevel p.scopes p.labels ⟨k⟩)
    (hsize : p.environs.size ≤ p.tree.size) (hs : ∀ n, starts n → (.standard, n) ∈ places)
    (hc : ∀ x ∈ places, ∀ c ∈ p.standings x.1 (p.tree.kind x.2), c ∈ places)
    (hp : ∀ x ∈ places, p.Proper x.1 (p.tree.kind x.2)) : p.WellScoped starts := by
  refine ⟨hl, fun n => ?_, fun h => hp _ (h.mem hs hc)⟩
  by_cases hn : n.index < p.tree.size
  · exact henv n.index hn
  · rw [environLevel_of_size_le (Nat.le_of_not_lt hn), environLevel, Array.getD_eq_getD_getElem?,
      Array.getElem?_eq_none (Nat.le_trans hsize (Nat.le_of_not_lt hn))]
    rfl

/-- The nodes a node is made of all stand somewhere. -/
theorem standings_nodes (s : ScopeId) (kind : NodeKind) :
    (p.standings s kind).map Prod.snd = p.tree.children kind := by
  cases kind <;> simp [standings, Tree.children, Function.comp_def]

theorem exists_standing {s : ScopeId} {kind : NodeKind} {n : NodeId}
    (h : n ∈ p.tree.children kind) : ∃ s', (s', n) ∈ p.standings s kind := by
  rw [← standings_nodes s] at h
  obtain ⟨c, hc, rfl⟩ := List.mem_map.mp h
  exact ⟨c.1, hc⟩

/-- A node stands in the range of the node it is part of, or in one inside of it. -/
theorem encloses_of_mem {s : ScopeId} {kind : NodeKind} {c : ScopeId × NodeId}
    (hp : p.Proper s kind) (hc : c ∈ p.standings s kind) : p.Encloses s c.1 := by
  have same {ns : List NodeId} (h : c ∈ ns.map (s, ·)) : p.Encloses s c.1 := by
    obtain ⟨n, -, rfl⟩ := List.mem_map.mp h
    exact .refl
  have inner {scope : ScopeId} (ns : List NodeId) (hs : p.Child scope s)
      (h : c ∈ ns.map (scope, ·)) : p.Encloses s c.1 := by
    obtain ⟨n, -, rfl⟩ := List.mem_map.mp h
    exact .single hs
  cases kind with
  | closed scope serial => exact inner [serial] hp.1 hc
  | conditional | integerCase | conformityCase => exact inner _ hp.1 hc
  | conformityAlternative id => exact inner [_] hp.1 hc
  | routineText scope params body => exact inner [body] hp hc
  | loop id =>
    obtain ⟨hloop, hbody, -⟩ := hp
    rcases List.mem_append.mp hc with h | h
    · exact same h
    · obtain ⟨n, -, rfl⟩ := List.mem_map.mp h
      exact .tail (.single hloop) hbody
  | _ => exact same hc

end Program

end Algol68
