import Algol68.Proofs.Frames.Follow
import Algol68.Proofs.Scope.Values

/-! Locals and environs are found. Where static links lead to the frame of the range that a slot
belongs to, that frame is the one that the level of the slot is resolved to, and it has the local. -/

namespace Algol68

open Outline

variable {job : Job} {starts : NodeId → Prop} {known : NodeId → FrameHandle → Prop} {m : Machine}
  {s d : ScopeId} {slot : Slot}

namespace Nested

variable {p : Program} {fs : List Frame}

theorem take (h : Nested p fs) (n : Nat) : Nested p (fs.take n) := by
  have kept : ∀ {i : Nat} {f : Frame}, (fs.take n)[i]? = some f → i < n ∧ fs[i]? = some f := by
    intro i f hf
    rw [List.getElem?_take] at hf
    split at hf
    · next hi => exact ⟨hi, hf⟩
    · cases hf
  refine ⟨fun hf => h.levels (kept hf).2, fun {i l f} hf hl => ?_, fun hf => h.rooted (kept hf).2⟩
  obtain ⟨hi, hf⟩ := kept hf
  obtain ⟨hli, g, hg, hgf⟩ := h.linked hf hl
  refine ⟨hli, g, ?_, hgf⟩
  rw [List.getElem?_take_of_lt (by omega)]
  exact hg

theorem modify (h : Nested p fs) (k : Nat) {g : Frame → Frame}
    (hg : ∀ x, (g x).key = x.key ∧ (g x).level = x.level) : Nested p (fs.modify k g) := by
  have kept : ∀ {i : Nat} {f : Frame}, (fs.modify k g)[i]? = some f →
      ∃ x, fs[i]? = some x ∧ f.scope = x.scope ∧ f.staticLink = x.staticLink ∧ f.level = x.level := by
    intro i f hf
    rw [List.getElem?_modify] at hf
    obtain ⟨x, hx, rfl⟩ := Option.map_eq_some_iff.mp hf
    refine ⟨x, hx, ?_⟩
    split
    · have := (hg x).1
      simp only [Frame.key, Prod.mk.injEq] at this
      exact ⟨this.1, this.2.1, (hg x).2⟩
    · exact ⟨rfl, rfl, rfl⟩
  constructor
  · intro i f hf
    obtain ⟨x, hx, hscope, -, hlevel⟩ := kept hf
    rw [hscope, hlevel]
    exact h.levels hx
  · intro i l f hf hl
    obtain ⟨x, hx, hscope, hlink, -⟩ := kept hf
    obtain ⟨hli, y, hy, hxy⟩ := h.linked hx (hlink ▸ hl)
    have same := SameBelow.modify (l + 1) fs k fun x => (hg x).1
    obtain ⟨z, hz, hk⟩ := same.exists_key (Nat.lt_succ_self l) hy
    simp only [Frame.key, Prod.mk.injEq] at hk
    refine ⟨hli, z, hz, ?_⟩
    rw [hk.1, hscope]
    exact hxy
  · intro i f hf hl
    obtain ⟨x, hx, hscope, hlink, -⟩ := kept hf
    rw [hscope]
    exact h.rooted hx (hlink ▸ hl)

end Nested

/-- A slot that is seen is found where lexical nesting says. -/
theorem Outline.Sees.resolve (h : m.outline.Sees job.program s slot)
    (hn : Nested job.program m.frames.hollow) : ∃ d k f, job.program.Encloses d s ∧
      job.program.Declares d slot ∧ Leads m.frames.hollow (m.frames.depth - 1) k ∧
      m.frames.hollow[k]? = some f ∧ f.scope = d ∧ m.frames.resolve slot.level = .ok k := by
  obtain ⟨hi, d, hd, hds, k, f, hl, hf, rfl⟩ := h
  have htop : m.outline.top = m.frames.depth - 1 := by simp [Outline.top, Machine.outline]
  rw [htop] at hl
  have hpos : 0 < m.frames.depth := by
    obtain ⟨f, hf, -⟩ := hi
    have := (List.getElem?_eq_some_iff.mp hf).1
    have : m.outline.frames.length = m.frames.depth := by simp [Machine.outline]
    omega
  refine ⟨f.scope, k, f, hd, hds, hl, hf, rfl, ?_⟩
  rw [← hds.level]
  exact FrameStack.resolve_eq hn hpos hl hf

theorem Outline.Sees.holder (h : m.outline.Sees job.program s slot)
    (hn : Nested job.program m.frames.hollow) (hs : m.outline.Sound job m.frames.nextSerial)
    (v : Value) : ∃ k, m.frames.holder slot v = .ok k := by
  obtain ⟨d, k, f, -, hds, -, hf, rfl, hr⟩ := h.resolve hn
  have size := hs.sized k f hf
  rw [FrameStack.hollow_getElem?] at hf
  obtain ⟨x, hx, rfl⟩ := Option.map_eq_some_iff.mp hf
  have hlt : slot.offset < x.locals.size := by
    have := hds.offset
    simp only [Frame.hollow, Array.size_replicate] at size
    rw [size]
    exact this
  refine ⟨k, ?_⟩
  simp only [FrameStack.holder, hr, Bind.bind, Except.bind, hx, Option.bind_some,
    Array.getElem?_eq_getElem hlt]
  rfl

theorem Outline.Sees.load (h : m.outline.Sees job.program s slot)
    (hn : Nested job.program m.frames.hollow) (hs : m.outline.Sound job m.frames.nextSerial) :
    ∃ v, m.frames.load slot = .ok v := by
  obtain ⟨k, hk⟩ := h.holder hn hs .void
  refine ⟨m.frames.localAt k slot.offset, ?_⟩
  simp only [FrameStack.load, hk]
  rfl

namespace Exec

theorem wp_load_of_sees (h : m.outline.Sees job.program s slot)
    (hn : Nested job.program m.frames.hollow) (hs : m.outline.Sound job m.frames.nextSerial)
    {Q : Value → Machine → Prop} {E : Signal → Machine → Prop} (hq : ∀ v, Q v m) :
    wp (load slot) Q E m := by
  obtain ⟨v, hv⟩ := h.load hn hs
  rw [wp_load]
  exact ⟨fun w _ => hq w, fun f hf => by rw [hv] at hf; cases hf⟩

theorem wp_store_of_sees (h : m.outline.Sees job.program s slot)
    (hn : Nested job.program m.frames.hollow) (hs : m.outline.Sound job m.frames.nextSerial)
    (v : Value) {Q : Unit → Machine → Prop} {E : Signal → Machine → Prop}
    (hq : ∀ m', m.Still job m' → Q () m') : wp (store slot v) Q E m := by
  obtain ⟨k, hk⟩ := h.holder hn hs v
  rw [wp_store]
  refine ⟨fun i _ => hq _ ?_, fun f hf => by rw [hk] at hf; cases hf⟩
  rw [Machine.still_iff]
  exact ⟨FrameStack.hollow_setLocal .., rfl, rfl, id⟩

end Exec

/-- The environ of a routine text is found: a range around the text, whose frame leads to all that
the routine needs. -/
theorem Outline.Evaluable.environ {r body : NodeId} {q : ScopeId} {params : Nat}
    (hw : job.program.WellScoped starts) (hj : job.program.JumpsOutward starts)
    (h : m.outline.Evaluable job.program starts s r)
    (hr : job.program.tree.kind r = .routineText q params body)
    (hn : Nested job.program m.frames.hollow) :
    ∃ k f, m.frames.resolve (job.program.environLevel r) = .ok k ∧
      Leads m.frames.hollow (m.frames.depth - 1) k ∧ m.frames.hollow[k]? = some f ∧
      job.program.Encloses f.scope s ∧ Supports job.program m.frames.hollow k s q body := by
  have htop : m.outline.top = m.frames.depth - 1 := by simp [Outline.top, Machine.outline]
  obtain ⟨g, hg, hgs⟩ := h.inside
  have hpos : 0 < m.frames.depth := by
    have := (List.getElem?_eq_some_iff.mp hg).1
    have : m.outline.frames.length = m.frames.depth := by simp [Machine.outline]
    omega
  have hbody : (q, body) ∈ job.program.standings s (job.program.tree.kind r) := by
    simp [hr, Program.standings]
  have supports := h.supports.part hbody
  rw [htop] at hg supports
  -- whichever frame it is, it leads to the frames further out that are needed
  have enough (k : Nat) (f : Frame) (hl : Leads m.frames.hollow (m.frames.depth - 1) k)
      (hf : m.frames.hollow[k]? = some f) (hlevel : job.program.level f.scope =
        job.program.environLevel r) : ∃ k f, m.frames.resolve (job.program.environLevel r) = .ok k ∧
      Leads m.frames.hollow (m.frames.depth - 1) k ∧ m.frames.hollow[k]? = some f ∧
      job.program.Encloses f.scope s ∧ Supports job.program m.frames.hollow k s q body := by
    refine ⟨k, f, ?_, hl, hf, (hn.encloses hg hl hf).trans hgs.encloses, fun d hd => ?_⟩
    · rw [← hlevel]
      exact FrameStack.resolve_eq hn hpos hl hf
    · obtain ⟨i, x, hi, hx, rfl⟩ := supports d hd
      refine ⟨i, x, hn.leads_of_level_le hl hi hf hx ?_, hx, rfl⟩
      rw [hlevel]
      exact hw.level_le_environ h.stands hr hd
  rcases hw.environ_needed hj h.stands hr with hz | ⟨d, hd, hl⟩
  · obtain ⟨k, f, hk, hf, hs⟩ := hn.reaches_standard hg
    refine enough k f hk hf ?_
    rw [hs, hz]
    exact hw.standard
  · obtain ⟨k, f, hk, hf, rfl⟩ := supports d hd
    exact enough k f hk hf hl

end Algol68
