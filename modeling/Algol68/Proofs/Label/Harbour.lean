import Algol68.Proofs.Jump.Running
import Algol68.Proofs.Label.Parts
import Algol68.Proofs.Scope.Liveness

/-! Where the jumps to a label find the clause that owns it. All of them stand in one closed clause.
Whatever has such a jump in it is evaluated with an activation of that clause on the static chain, in
which its serial clause has begun and has not ended. -/

namespace Algol68

open Outline (Along Admits)
open Relation (ReflTransGen)

/-! Frames on one static chain. -/

theorem Nested.eq_of_scope {p : Program} {fs : List Frame} {i a b : Nat} {x y : Frame}
    (h : Nested p fs) (ha : Leads fs i a) (hb : Leads fs i b) (hx : fs[a]? = some x)
    (hy : fs[b]? = some y) (hs : x.scope = y.scope) : a = b := by
  by_contra hne
  have hl := h.leads_of_level_le ha hb hx hy (by rw [hs])
  have := h.level_lt hx hl hy hne
  rw [hs] at this
  exact Nat.lt_irrefl _ this

/-- The activation of a range that static links lead to is the one that is found. -/
theorem FrameStack.findScopeFrom_eq {p : Program} {s : FrameStack} (h : Nested p s.hollow)
    {i k links : Nat} {f g : Frame} (hf : s.hollow[i]? = some f) (hl : Leads s.hollow i k)
    (hg : s.hollow[k]? = some g) (hi : i < links) :
    ∃ x, s.findScopeFrom g.scope links i = some x ∧ x.hollow = g := by
  induction links generalizing i f with
  | zero => omega
  | succ links ih =>
    have hf' := hf
    rw [hollow_getElem?] at hf'
    obtain ⟨x, hx, rfl⟩ := Option.map_eq_some_iff.mp hf'
    simp only [findScopeFrom, hx, Option.bind_eq_bind, Option.bind_some]
    by_cases hs : x.scope = g.scope
    · obtain rfl := h.eq_of_scope .refl hl hf hg hs
      rw [if_pos hs]
      exact ⟨x, rfl, Option.some.inj (hf.symm.trans hg)⟩
    · rw [if_neg hs]
      rcases Relation.ReflTransGen.cases_head hl with rfl | ⟨j, ⟨y, hy, hyl⟩, hl⟩
      · cases hf.symm.trans hg
        exact absurd rfl hs
      · cases hf.symm.trans hy
        have hxl : x.staticLink = some j := hyl
        obtain ⟨hji, z, hz, -⟩ := h.linked hf hyl
        rw [hxl]
        exact ih hz hl (by omega)

theorem FrameStack.findScope_eq {p : Program} {s : FrameStack} (h : Nested p s.hollow) {k : Nat}
    {g : Frame} (hpos : 0 < s.depth) (hl : Leads s.hollow (s.depth - 1) k)
    (hg : s.hollow[k]? = some g) : ∃ x, s.findScope g.scope = some x ∧ x.hollow = g := by
  have hlt : s.depth - 1 < s.hollow.length := by
    rw [hollow_length]
    omega
  exact s.findScopeFrom_eq h (List.getElem?_eq_getElem hlt) hl hg (by simp only [depth] at *; omega)

namespace Outline

theorem along_of_splits {P : Outline → Task → Prop} {o : Outline} {A : Agenda}
    (h : ∀ before t after, A = before ++ t :: after → P (o.passAll before) t) : Along P o A := by
  induction A generalizing o with
  | nil => trivial
  | cons t A ih =>
    refine ⟨h [] t A rfl, ih fun before u after hA => ?_⟩
    subst hA
    exact h (t :: before) u after rfl

theorem passAll_length_le (o : Outline) (A : Agenda) :
    (o.passAll A).frames.length ≤ o.frames.length := by
  induction A generalizing o with
  | nil => exact Nat.le_refl _
  | cons t A ih => exact Nat.le_trans (ih _) (o.length_pass_le t)

end Outline

theorem Machine.undo_hollow (m : Machine) (A : Agenda) :
    ∃ n, (m.undo A).frames.hollow = m.frames.hollow.take n := by
  induction A generalizing m with
  | nil => exact ⟨m.frames.hollow.length, by simp⟩
  | cons t A ih =>
    obtain ⟨n, hn⟩ := ih (t.undo m)
    rw [Machine.undo_cons, hn]
    cases t with
    | leave depth => exact ⟨min n depth, by simp [Task.undo, List.take_take]⟩
    | _ => exact ⟨n, rfl⟩

theorem Task.Turns.stays_or_opens {m m' : Machine} {t : Task} (h : t.Turns m m')
    (hl : ∀ depth, t ≠ .leave depth)
    (hr : ∀ scope environ args body, t ≠ .enterRoutine scope environ args body) :
    m.Stays m' ∨ m.Opens m.outline.top m' := by
  cases t with
  | elaborate | conform => exact h
  | enterLoop | enterBody => exact .inr h
  | enterRoutine scope environ args body => exact absurd rfl (hr scope environ args body)
  | leave depth => exact absurd rfl (hl depth)
  | _ => exact .inl h

/-- A label, the closed clause that all jumps to it stand in, and its serial clause. -/
structure Harbour where
  label : LabelId
  closed : NodeId
  serial : NodeId

namespace Harbour

section

variable (H : Harbour) (p : Program)

/-- The range that the label is declared in. -/
def scope : ScopeId := (p.labels.get H.label).scope

/-- A jump to the label stands in a node, outside of the closed clause. -/
inductive Awaits : NodeId → Prop where
  | jump {n : NodeId} (hk : p.tree.kind n = .jump H.label) : Awaits n
  | part {n c : NodeId} (hn : n ≠ H.closed) (hc : c ∈ p.tree.children (p.tree.kind n))
      (h : Awaits c) : Awaits n

/-- The closed clause is of the label's range, its serial clause owns the label, and no jump to the
label stands outside of it. -/
structure Proper (starts : NodeId → Prop) : Prop where
  closed : p.tree.kind H.closed = .closed (H.scope p) H.serial
  serial : ∃ items, p.tree.kind H.serial = .serialClause (H.scope p) items
  labelled : (p.scopes.get (H.scope p)).hasLabels
  owner : (p.labels.get H.label).owner = some H.serial
  inside : ∀ n, starts n → ¬ H.Awaits p n

/-- Static links lead to an activation in which the serial clause runs. -/
def Moored (fs : List Frame) (i : Nat) : Prop :=
  H.Awaits p H.serial ∧ ∃ k f b, Leads fs i k ∧ fs[k]? = some f ∧ f.scope = H.scope p ∧
    f.resumption = some ⟨H.serial, b⟩

/-- Where a jump to the label stands in what a task evaluates, the serial clause runs. -/
def Guards (o : Outline) (t : Task) : Prop := ∀ n ∈ t.parts, H.Awaits p n → H.Moored p o.frames o.top

/-- The closed clause was entered and its serial clause is about to begin. -/
def Opening (A : Agenda) (m : Machine) : Prop :=
  ∃ rest f, A = .clause H.serial false :: .leave m.outline.top :: rest ∧
    m.outline.frames[m.outline.top]? = some f ∧ f.scope = H.scope p

/-- Each task on the agenda will find the serial clause running where a jump to the label stands in
what it evaluates, but for the clause itself where it is about to begin. -/
def Settled (A : Agenda) (m : Machine) : Prop :=
  Along (H.Guards p) m.outline A ∨ H.Opening p A m ∧ Along (H.Guards p) m.outline A.tail

end

/-- The innermost frame is about to be closed. -/
def Leaving (A : Agenda) : Prop :=
  ∃ i rest, A = .leave i :: rest ∨ ∃ b, A = .cut b :: .leave i :: rest

variable {H : Harbour} {p : Program} {starts : NodeId → Prop} {s d q : ScopeId} {n : NodeId}
  {fs gs : List Frame} {i j k : Nat}

namespace Awaits

theorem exists_below (h : H.Awaits p n) (s : ScopeId) :
    ∃ c, p.Below (s, n) c ∧ p.tree.kind c.2 = .jump H.label := by
  induction h generalizing s with
  | jump hk => exact ⟨_, .refl, hk⟩
  | part _ hc _ ih =>
    obtain ⟨s', hs⟩ := Program.exists_standing (s := s) hc
    obtain ⟨c, hb, hk⟩ := ih s'
    exact ⟨c, .head hs hb, hk⟩

theorem body {params : Nat} {body : NodeId} (h : H.Awaits p n)
    (hk : p.tree.kind n = .routineText q params body) : H.Awaits p body := by
  cases h with
  | jump hj => cases hk.symm.trans hj
  | part _ hc h =>
    rw [hk] at hc
    rwa [List.mem_singleton.mp hc] at h

end Awaits

namespace Proper

variable (h : H.Proper p starts)

include h

theorem spreads : p.Spreads (· = H.closed) fun n => ¬ H.Awaits p n := by
  refine ⟨fun n hn hne c hc ha => hn (.part hne hc ha), ?_, ?_⟩
  · rintro n rfl
    exact ⟨_, _, h.closed⟩
  · rintro n inner rfl hr
    obtain ⟨scope, serial, range, items, hk, -, hs, hl, -⟩ := hr.clause
    cases h.closed.symm.trans hk
    obtain ⟨items', hs'⟩ := h.serial
    cases hs'.symm.trans hs
    rw [h.labelled] at hl
    cases hl

theorem awaits_routine {params : Nat} {body : NodeId} (hb : H.Awaits p body)
    (hk : p.tree.kind n = .routineText q params body) : H.Awaits p n := by
  refine .part ?_ (by rw [hk]; exact List.mem_singleton_self _) hb
  rintro rfl
  cases h.closed.symm.trans hk

theorem encloses (hw : p.WellScoped starts) (hs : p.Stands starts s n) (ha : H.Awaits p n) :
    p.Encloses (H.scope p) s := by
  induction hs with
  | start hs => exact absurd ha (h.inside _ hs)
  | @inner s n c hs hc ih =>
    by_cases hn : n = H.closed
    · subst hn
      simp only [h.closed, Program.standings, List.mem_singleton] at hc
      rw [hc]
    · have part : c.2 ∈ p.tree.children (p.tree.kind n) := by
        rw [← Program.standings_nodes s]
        exact List.mem_map_of_mem hc
      exact (ih (.part hn part ha)).trans (Program.encloses_of_mem (hw.proper hs) hc)

/-- A node needs the range of the label where a jump to it stands in the node. -/
theorem needs (hw : p.WellScoped starts) (hs : p.Stands starts s n) {s' : ScopeId} {c : NodeId}
    (hc : (s', c) ∈ p.standings s (p.tree.kind n)) (ha : H.Awaits p n) (hb : H.Awaits p c) :
    p.Needs s s' c (H.scope p) := by
  obtain ⟨x, hx, hk⟩ := hb.exists_below s'
  have hstands := (Program.Stands.inner hs hc).part hx
  refine ⟨h.encloses hw hs ha, x, hx, h.encloses hw hstands (.jump hk), ?_⟩
  rw [hk]
  exact List.mem_singleton_self _

end Proper

namespace Moored

theorem of_leads (h : H.Moored p fs j) (hl : Leads fs i j) : H.Moored p fs i := by
  obtain ⟨hs, k, f, b, hk, h⟩ := h
  exact ⟨hs, k, f, b, hl.trans hk, h⟩

/-- What runs in frames further up does not matter. -/
theorem of_same (h : H.Moored p fs i) (hn : Nested p fs) (same : SameBelow (i + 1) fs gs)
    (kept : ∀ k f r, k ≤ i → fs[k]? = some f → f.scope = H.scope p → f.resumption = some r →
      r.owner = H.serial → ∃ g, gs[k]? = some g ∧ g.resumption = some r) : H.Moored p gs i := by
  obtain ⟨hs, k, f, b, hl, hf, hscope, hr⟩ := h
  have hk := hn.le_of_leads hl
  obtain ⟨g, hg, hgr⟩ := kept k f _ hk hf hscope hr rfl
  obtain ⟨g', hg', hkey⟩ := same.exists_key (Nat.lt_succ_of_le hk) hf
  cases hg.symm.trans hg'
  simp only [Frame.key, Prod.mk.injEq] at hkey
  exact ⟨hs, k, g, b, same.leads hn (Nat.lt_succ_self i) hl, hg, hkey.1.trans hscope, hgr⟩

theorem take (h : H.Moored p fs i) (hn : Nested p fs) {n : Nat} (hi : i < n) :
    H.Moored p (fs.take n) i := by
  refine h.of_same hn (fun k hk => SameBelow.take n fs k (by omega)) fun k f r hk hf _ hr _ => ?_
  exact ⟨f, by rw [List.getElem?_take_of_lt (by omega)]; exact hf, hr⟩

theorem push {f : Frame} (h : H.Moored p fs i) (hn : Nested p fs) (hl : f.staticLink = some i)
    (hi : i < fs.length) : H.Moored p (fs ++ [f]) fs.length := by
  refine of_leads (h.of_same hn (fun k hk => SameBelow.append fs [f] k (by omega)) ?_)
    (.single (link_push hl))
  intro k g r hk hg _ hr _
  exact ⟨g, by rw [List.getElem?_append_left (by omega)]; exact hg, hr⟩

/-- From a frame on the way to one of the label's range the same activation is found. -/
theorem of_reaches (h : H.Moored p fs i) (hn : Nested p fs) (hl : Leads fs i j)
    (hr : Reaches fs j (H.scope p)) : H.Moored p fs j := by
  obtain ⟨hs, k, f, b, hk, hf, hscope, hres⟩ := h
  obtain ⟨k', g, hk', hg, hgs⟩ := hr
  obtain rfl := hn.eq_of_scope hk (hl.trans hk') hf hg (hscope.trans hgs.symm)
  exact ⟨hs, k, f, b, hk', hf, hscope, hres⟩

theorem ne_zero {job : Job} {next : Nat} {o : Outline} (h : H.Moored p o.frames i)
    (hn : Nested p o.frames) (hs : o.Sound job next) : i ≠ 0 := by
  rintro rfl
  obtain ⟨-, k, f, b, hl, hf, -, hr⟩ := h
  obtain rfl : k = 0 := by
    have := hn.le_of_leads hl
    omega
  obtain ⟨g, hg, -, -, -, -, hnone⟩ := hs.base
  cases hf.symm.trans hg
  rw [hr] at hnone
  cases hnone

end Moored

end Harbour

end Algol68
