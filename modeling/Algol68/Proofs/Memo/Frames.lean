import Algol68.Proofs.Memo.Guide

/-! Frames and the frames where they are found, while frames are opened and closed in both machines
or in the second one alone. -/

namespace Algol68

open Value (Within)

namespace Guide

namespace Maps

variable {g : Guide} {F G : FrameStack} {p : Program} {i k l : Nat} {f x : Frame}

theorem place_lt (h : g.Maps F G) (hi : i < F.depth) : g.place i < G.depth := by
  obtain ⟨x, hx, -⟩ := h.frame i _ (Array.getElem?_eq_getElem hi)
  exact (Array.getElem?_eq_some_iff.mp hx).1

theorem place_inj (h : g.Maps F G) (hi : i < F.depth) (hk : k < F.depth)
    (he : g.place i = g.place k) : i = k := by
  rcases Nat.lt_trichotomy i k with hlt | heq | hlt
  · have := h.rising i k hlt hk
    omega
  · exact heq
  · have := h.rising k i hlt hi
    omega

theorem serial_inj (h : g.Maps F G) {s t : Nat} (hs : s < F.nextSerial) (ht : t < F.nextSerial)
    (he : g.serial s = g.serial t) : s = t := by
  rcases Nat.lt_trichotomy s t with hlt | heq | hlt
  · have := h.climbing s t hlt ht
    omega
  · exact heq
  · have := h.climbing t s hlt hs
    omega

theorem leads (h : g.Maps F G) (hl : Leads F.hollow i k) :
    Leads G.hollow (g.place i) (g.place k) := by
  induction hl with
  | refl => exact .refl
  | tail _ hs ih => exact ih.trans (h.link _ _ hs)

/-- From above the place of a frame, and below that of the next one, links lead there. -/
theorem leads_down (h : g.Maps F G) (hi : i < F.depth)
    (hlast : i + 1 < F.depth → k < g.place (i + 1)) (hk : k < G.depth) (hle : g.place i ≤ k) :
    Leads G.hollow k (g.place i) := by
  induction k with
  | zero =>
    rw [Nat.le_zero.mp hle]
  | succ k ih =>
    by_cases heq : g.place i = k + 1
    · rw [heq]
    · have free : ∀ j < F.depth, g.place j ≠ k + 1 := by
        intro j hj he
        rcases Nat.lt_trichotomy j i with hlt | rfl | hlt
        · have := h.rising j i hlt hi
          omega
        · exact heq he
        · have := hlast (by omega)
          by_cases hj' : j = i + 1
          · subst hj'
            omega
          · have := h.rising (i + 1) j (by omega) hj
            omega
      have hx : G.frames[k + 1]? = some G.frames[k + 1] := Array.getElem?_eq_getElem hk
      obtain ⟨-, hlink⟩ := h.gap _ _ hx free
      refine .head ⟨G.frames[k + 1].hollow, ?_, hlink⟩ (ih (fun hn => ?_) (by omega) (by omega))
      · simp [FrameStack.hollow_getElem?, hx]
      · have := hlast hn
        omega

/-- The innermost frame leads to where the innermost frame is found. -/
theorem top_leads (h : g.Maps F G) (hpos : 0 < F.depth) :
    Leads G.hollow (G.depth - 1) (g.place (F.depth - 1)) := by
  have := h.place_lt (i := F.depth - 1) (by omega)
  exact h.leads_down (by omega) (by omega) (by omega) (by omega)

/-- An activation is there in one machine just when it is in the other one. -/
theorem isLive (h : g.Maps F G) {e : FrameHandle} (he : e.serial < F.nextSerial) :
    G.isLive (g.handle e) = F.isLive e := by
  have iff : G.isLive (g.handle e) = true ↔ F.isLive e = true := by
    refine ⟨h.live e he, fun hl => ?_⟩
    obtain ⟨f, hf, hs⟩ := FrameStack.isLive_iff_frames.mp hl
    obtain ⟨x, hx, hh, -⟩ := h.frame _ f hf
    rw [hs] at hh
    have hh : g.handle e = ⟨g.place e.index, x.serial⟩ := hh
    rw [FrameStack.isLive_iff_frames, hh]
    exact ⟨x, hx, rfl⟩
  exact Bool.eq_iff_iff.mpr iff

/-- What a level is resolved to is found where the one it is resolved to is found. -/
theorem resolve (h : g.Maps F G) (hn : Nested p G.hollow) (hpos : 0 < F.depth)
    (hl : Leads F.hollow (F.depth - 1) k) (hf : F.frames[k]? = some f) :
    G.resolve (p.level f.scope) = .ok (g.place k) := by
  obtain ⟨x, hx, -, halike⟩ := h.frame k f hf
  have hG : 0 < G.depth := by
    have := h.place_lt (i := F.depth - 1) (by omega)
    omega
  have := G.resolve_eq hn hG ((h.top_leads hpos).trans (h.leads hl)) (g := x.hollow)
    (by simp [FrameStack.hollow_getElem?, hx])
  rw [← halike.scope]
  exact this

/-! Frames opened and closed. -/

/-- An activation of the first machine that is found in the second one after a frame was opened
there is there. -/
theorem live_of_push (h : g.Maps F G) {scope : ScopeId} {level : Nat} {link : Option Nat}
    {locals : Array Value} {e : FrameHandle} (he : e.serial < F.nextSerial)
    (hlive : (G.push scope level link locals).isLive (g.handle e) = true) :
    F.isLive e = true := by
  obtain ⟨x, hx, hs⟩ := FrameStack.isLive_iff_frames.mp hlive
  rcases FrameStack.of_getElem?_push hx with hx | ⟨-, rfl⟩
  · exact h.live e he (FrameStack.isLive_iff_frames.mpr ⟨x, hx, hs⟩)
  · have := h.given e.serial he
    have hs : G.nextSerial = g.serial e.serial := hs
    omega

/-- So it is where the frame is opened in both machines, also for its own activation. -/
theorem live_opened (h : g.Maps F G) (hG : G.Given) (hpos : 0 < G.depth) {scope : ScopeId}
    {link link' : Option Nat} {level level' : Nat} {locals locals' : Array Value} {e : FrameHandle}
    (he : e.serial < F.nextSerial + 1)
    (hlive : (G.push scope level' link' locals').isLive ((g.opened F G).handle e) = true) :
    (F.push scope level link locals).isLive e = true := by
  rw [FrameStack.isLive_iff_frames]
  by_cases hnew : e.serial = F.nextSerial
  · by_cases hi : e.index = F.depth
    · exact ⟨_, by rw [hi]; exact FrameStack.getElem?_push_self, hnew.symm⟩
    · -- such a handle is sent to one that no activation ever has
      have found : (g.opened F G).handle e = ⟨0, G.nextSerial⟩ :=
        congrArg₂ FrameHandle.mk ((if_pos hnew).trans (if_neg hi)) (if_pos hnew)
      rw [found] at hlive
      obtain ⟨x, hx, hs⟩ := FrameStack.isLive_iff_frames.mp hlive
      rcases FrameStack.of_getElem?_push hx with hx | ⟨hz, -⟩
      · exact absurd hs (Nat.ne_of_lt (hG 0 x hx))
      · exact absurd hz (Nat.ne_of_lt hpos)
  · have he : e.serial < F.nextSerial := by omega
    rw [(Agrees.opened g F G).handle he] at hlive
    obtain ⟨f, hf, hfs⟩ := FrameStack.isLive_iff_frames.mp (h.live_of_push he hlive)
    exact ⟨f, FrameStack.getElem?_push_of_some hf, hfs⟩

/-- A link of an opened frame, or of an earlier one, leads to where its end is found. -/
theorem link_opened (h : g.Maps F G) (hn : Nested p F.hollow) {scope : ScopeId}
    {link link' level level' : Nat} {locals locals' : Array Value} (hlt : link < F.depth)
    (hl : Leads G.hollow link' (g.place link))
    (hil : Link (F.push scope level (some link) locals).hollow i l) :
    Leads (G.push scope level' (some link') locals').hollow ((g.opened F G).place i)
      ((g.opened F G).place l) := by
  have agrees := Agrees.opened g F G
  rw [FrameStack.hollow_push] at hil ⊢
  rcases hil.of_concat with hil | ⟨rfl, hlink⟩
  · have hi : i < F.depth := by
      obtain ⟨f, hf, -⟩ := hil
      simpa using (List.getElem?_eq_some_iff.mp hf).1
    have := hn.linked_of_link hil
    rw [agrees.place i hi, agrees.place l (by omega)]
    exact (h.link i l hil).of_links fun _ _ h => h.append _
  · obtain rfl : link = l := Option.some.inj hlink
    have new : (g.opened F G).place F.depth = G.depth := if_pos rfl
    rw [FrameStack.hollow_length, new, agrees.place link hlt]
    refine .head ⟨_, by rw [← FrameStack.hollow_length, List.getElem?_concat_length], rfl⟩ ?_
    exact hl.of_links fun _ _ h => h.append _

theorem enter (h : g.Maps F G) (hn : Nested p F.hollow) (hF : F.Given) (hG : G.Given)
    (hv : F.Holds (Procedure.Issued F.nextSerial)) {link link' level level' : Nat} {scope : ScopeId}
    {locals locals' : Array Value} (hlt : link < F.depth) (hl : Leads G.hollow link' (g.place link))
    (hlocals : locals' = locals.map (Value.rename (g.opened F G).procedure)) :
    (g.opened F G).Maps (F.push scope level (some link) locals)
      (G.push scope level' (some link') locals') := by
  have agrees := Agrees.opened g F G
  have new : (g.opened F G).place F.depth = G.depth := if_pos rfl
  have newSerial : (g.opened F G).serial F.nextSerial = G.nextSerial := if_pos rfl
  constructor
  · intro i f hf
    rcases FrameStack.of_getElem?_push hf with hf | ⟨rfl, rfl⟩
    · obtain ⟨x, hx, hh, ha⟩ := h.frame i f hf
      rw [agrees.place i (FrameStack.lt_depth hf), agrees.handle (hF i f hf)]
      refine ⟨x, FrameStack.getElem?_push_of_some hx, hh, ha.scope, ?_, ha.resumption⟩
      rw [ha.locals]
      exact (agrees.values fun v hm => hv f (Array.mem_of_getElem? hf) v hm).symm
    · rw [new]
      refine ⟨_, FrameStack.getElem?_push_self, ?_, rfl, hlocals, rfl⟩
      rw [Guide.handle]
      exact congrArg₂ FrameHandle.mk ((if_pos rfl).trans (if_pos rfl)) newSerial
  · intro i j hij hj
    rw [FrameStack.depth_push] at hj
    rw [agrees.place i (by omega)]
    by_cases hj' : j = F.depth
    · rw [hj', new]
      exact h.place_lt (by omega)
    · rw [agrees.place j (by omega)]
      exact h.rising i j hij (by omega)
  · exact fun i l hil => h.link_opened hn hlt hl hil
  · intro j x hx hfree
    rcases FrameStack.of_getElem?_push hx with hx | ⟨rfl, rfl⟩
    · refine h.gap j x hx fun i hi => ?_
      rw [← agrees.place i hi]
      exact hfree i (by rw [FrameStack.depth_push]; omega)
    · exact absurd new (hfree F.depth (by rw [FrameStack.depth_push]; omega))
  · intro s t hst ht
    have ht : t < F.nextSerial + 1 := ht
    rw [agrees.serial s (by omega)]
    by_cases ht' : t = F.nextSerial
    · rw [ht', newSerial]
      exact h.given s (by omega)
    · rw [agrees.serial t (by omega)]
      exact h.climbing s t hst (by omega)
  · intro s hs
    have hs : s < F.nextSerial + 1 := hs
    change _ < G.nextSerial + 1
    by_cases hs' : s = F.nextSerial
    · rw [hs', newSerial]
      omega
    · rw [agrees.serial s (by omega)]
      have := h.given s (by omega)
      omega
  · exact fun e he hlive => h.live_opened hG (Nat.zero_lt_of_lt (h.place_lt hlt)) he hlive

/-- A frame is opened in the second machine alone, inside of its innermost one. -/
theorem openBetween (h : g.Maps F G) (hpos : 0 < G.depth) (scope : ScopeId) (level : Nat)
    (locals : Array Value) : g.Maps F (G.push scope level (some (G.depth - 1)) locals) := by
  constructor
  · intro i f hf
    obtain ⟨x, hx, hh, ha⟩ := h.frame i f hf
    exact ⟨x, FrameStack.getElem?_push_of_some hx, hh, ha⟩
  · exact h.rising
  · intro i l hil
    rw [FrameStack.hollow_push]
    exact (h.link i l hil).of_links fun _ _ h => h.append _
  · intro j x hx hfree
    rcases FrameStack.of_getElem?_push hx with hx | ⟨rfl, rfl⟩
    · exact h.gap j x hx hfree
    · exact ⟨hpos, rfl⟩
  · exact h.climbing
  · intro s hs
    exact Nat.lt_succ_of_lt (h.given s hs)
  · exact fun e he hlive => h.live_of_push he hlive

/-- Frames are closed in both machines: in the second one all that lie above where the last frame
that is kept is found, and perhaps not those directly above it. -/
theorem truncate (h : g.Maps F G) (hn : Nested p G.hollow) {n n' : Nat}
    (below : ∀ i < n, i < F.depth → g.place i < n')
    (above : ∀ i, n ≤ i → i < F.depth → n' ≤ g.place i) :
    g.Maps (F.truncate n) (G.truncate n') := by
  constructor
  · intro i f hf
    obtain ⟨hi, hf⟩ := FrameStack.of_getElem?_truncate hf
    obtain ⟨x, hx, hh, ha⟩ := h.frame i f hf
    exact ⟨x, by rwa [FrameStack.getElem?_truncate (below i hi (FrameStack.lt_depth hf))], hh, ha⟩
  · intro i j hij hj
    rw [FrameStack.depth_truncate] at hj
    exact h.rising i j hij (by omega)
  · intro i l hil
    rw [FrameStack.hollow_truncate] at hil ⊢
    obtain ⟨hi, hil⟩ := hil.of_take
    have hlt : g.place i < n' := below i hi (by
      obtain ⟨f, hf, -⟩ := hil
      simpa using (List.getElem?_eq_some_iff.mp hf).1)
    exact (SameBelow.take n' G.hollow).leads hn hlt (h.link i l hil)
  · intro j x hx hfree
    obtain ⟨hj, hx⟩ := FrameStack.of_getElem?_truncate hx
    refine h.gap j x hx fun i hi => ?_
    by_cases hin : i < n
    · exact hfree i (by rw [FrameStack.depth_truncate]; omega)
    · have := above i (by omega) hi
      omega
  · exact h.climbing
  · exact h.given
  · intro e he hlive
    obtain ⟨x, hx, hs⟩ := FrameStack.isLive_iff_frames.mp hlive
    obtain ⟨hlt, hx⟩ := FrameStack.of_getElem?_truncate hx
    obtain ⟨f, hf, hfs⟩ :=
      FrameStack.isLive_iff_frames.mp (h.live e he (FrameStack.isLive_iff_frames.mpr ⟨x, hx, hs⟩))
    obtain ⟨y, -, hh, -⟩ := h.frame _ f hf
    rw [hfs] at hh
    have hindex : (g.handle e).index = g.place e.index := congrArg FrameHandle.index hh
    have kept : e.index < n := by
      by_contra hge
      have := above e.index (by omega) (FrameStack.lt_depth hf)
      omega
    exact FrameStack.isLive_iff_frames.mpr ⟨f, by rwa [FrameStack.getElem?_truncate kept], hfs⟩

theorem modify (h : g.Maps F G) (hi : i < F.depth) {u v : Frame → Frame}
    (hu : ∀ f, (u f).staticLink = f.staticLink ∧ (u f).serial = f.serial)
    (hv : ∀ x, (v x).staticLink = x.staticLink ∧ (v x).serial = x.serial)
    (halike : ∀ f x, F.frames[i]? = some f → g.Alike f x → g.Alike (u f) (v x)) :
    g.Maps (F.modify i u) (G.modify (g.place i) v) := by
  have sizeF : (F.modify i u).depth = F.depth := by simp [FrameStack.modify, FrameStack.depth]
  constructor
  · intro j f hf
    obtain ⟨f, hf', rfl⟩ := FrameStack.of_getElem?_modify hf
    obtain ⟨x, hx, hh, ha⟩ := h.frame j f hf'
    refine ⟨_, FrameStack.getElem?_modify _ hx, ?_⟩
    by_cases hij : i = j
    · subst hij
      rw [if_pos rfl, if_pos rfl, (hu f).2, (hv x).2]
      exact ⟨hh, halike f x hf' ha⟩
    · rw [if_neg hij, if_neg fun he => hij (h.place_inj hi (FrameStack.lt_depth hf') he)]
      exact ⟨hh, ha⟩
  · intro j k hjk hk
    exact h.rising j k hjk (by omega)
  · intro j l hjl
    rw [FrameStack.link_modify fun f => (hu f).1] at hjl
    exact (h.link j l hjl).of_links fun _ _ => (FrameStack.link_modify fun x => (hv x).1).mpr
  · intro j x hx hfree
    obtain ⟨y, hy, rfl⟩ := FrameStack.of_getElem?_modify hx
    obtain ⟨hj, hl⟩ := h.gap j y hy fun k hk => hfree k (by omega)
    refine ⟨hj, ?_⟩
    split
    · rw [(hv y).1, hl]
    · exact hl
  · exact h.climbing
  · exact h.given
  · intro e he hlive
    obtain ⟨x, hx, hs⟩ := FrameStack.isLive_iff_frames.mp hlive
    obtain ⟨y, hy, rfl⟩ := FrameStack.of_getElem?_modify hx
    have hs : y.serial = (g.handle e).serial := by
      split at hs
      · rwa [(hv y).2] at hs
      · exact hs
    obtain ⟨f, hf, hfs⟩ :=
      FrameStack.isLive_iff_frames.mp (h.live e he (FrameStack.isLive_iff_frames.mpr ⟨y, hy, hs⟩))
    refine FrameStack.isLive_iff_frames.mpr ⟨_, FrameStack.getElem?_modify _ hf, ?_⟩
    split
    · rwa [(hu f).2]
    · exact hfs

end Maps

end Guide

end Algol68
