import Algol68.Proofs.Machine.Holds
import Algol68.Proofs.Scope.Routine

/-! Two machines side by side, one of which may have opened further frames in between. A guide tells
where the frames of the first one are found in the second one. What is on the stack, in the store
and in the locals is the same but for the activations that routine values speak of. -/

namespace Algol68

open Value (Within)

/-- Where the frames of one machine are found in another one. -/
structure Guide where
  /-- The place of the frame at a place. -/
  place : Nat → Nat
  /-- The serial number of the activation with a serial number. -/
  serial : Nat → Nat
  /-- The place that stands in a handle for the place that stands there. -/
  index : FrameHandle → Nat

/-- A procedure whose environ was opened before `next`. -/
def Procedure.Issued (next : Nat) : Procedure → Prop
  | .standard _ => True
  | .routine _ environ => environ.serial < next

theorem Callable.issued {p : Program} {starts : NodeId → Prop} {K : NodeId → FrameHandle → Prop}
    {fs : List Frame} {next : Nat} {r : Procedure} (h : Callable p starts K fs next r) :
    r.Issued next := by
  cases r with
  | standard => trivial
  | routine => exact h.1

namespace Guide

/-- The handle of the activation that is found where a handle leads to. -/
def handle (g : Guide) (h : FrameHandle) : FrameHandle := ⟨g.index h, g.serial h.serial⟩

/-- A procedure, its environ found. -/
def procedure (g : Guide) : Procedure → Procedure
  | .standard p => .standard p
  | .routine text environ => .routine text (g.handle environ)

/-- The guide to the frames of the same machine. -/
def same : Guide := ⟨id, id, FrameHandle.index⟩

/-- The guide after a frame was opened in both machines. -/
def opened (g : Guide) (F G : FrameStack) : Guide where
  place i := if i = F.depth then G.depth else g.place i
  serial s := if s = F.nextSerial then G.nextSerial else g.serial s
  index h := if h.serial = F.nextSerial then if h.index = F.depth then G.depth else 0 else g.index h

/-- The two guides tell the same of the places below `depth` and of the activations opened before
`next`. -/
structure Agrees (g : Guide) (depth next : Nat) (g' : Guide) : Prop where
  place : ∀ i < depth, g'.place i = g.place i
  serial : ∀ s < next, g'.serial s = g.serial s
  index : ∀ h : FrameHandle, h.serial < next → g'.index h = g.index h

namespace Agrees

variable {g g' : Guide} {depth next : Nat}

theorem refl (g : Guide) (depth next : Nat) : g.Agrees depth next g :=
  ⟨fun _ _ => rfl, fun _ _ => rfl, fun _ _ => rfl⟩

theorem handle (h : g.Agrees depth next g') {e : FrameHandle} (he : e.serial < next) :
    g'.handle e = g.handle e := by
  rw [Guide.handle, Guide.handle, h.index e he, h.serial _ he]

theorem procedure (h : g.Agrees depth next g') {r : Procedure} (hr : r.Issued next) :
    g'.procedure r = g.procedure r := by
  cases r with
  | standard => rfl
  | routine text environ => exact congrArg (Procedure.routine text) (h.handle hr)

theorem value (h : g.Agrees depth next g') {v : Value} (hv : v.Within (Procedure.Issued next)) :
    v.rename g'.procedure = v.rename g.procedure :=
  Value.rename_congr fun r hr => h.procedure (hv r hr)

theorem values (h : g.Agrees depth next g') {vs : Array Value}
    (hv : ∀ v ∈ vs, v.Within (Procedure.Issued next)) :
    vs.map (Value.rename g'.procedure) = vs.map (Value.rename g.procedure) :=
  Array.map_congr_left fun v hm => h.value (hv v hm)

theorem opened (g : Guide) (F G : FrameStack) :
    g.Agrees F.depth F.nextSerial (g.opened F G) :=
  ⟨fun i hi => if_neg (by omega), fun s hs => if_neg (by omega), fun h hs => if_neg (by omega)⟩

end Agrees

/-- A frame, and the one where it is found. -/
structure Alike (g : Guide) (f x : Frame) : Prop where
  scope : x.scope = f.scope
  locals : x.locals = f.locals.map (Value.rename g.procedure)
  resumption : x.resumption = f.resumption

/-- The frames of one stack are found among those of another one. Each of the frames in between is
linked to the one below it. -/
structure Maps (g : Guide) (F G : FrameStack) : Prop where
  frame : ∀ (i : Nat) (f : Frame), F.frames[i]? = some f → ∃ x, G.frames[g.place i]? = some x ∧
    g.handle ⟨i, f.serial⟩ = ⟨g.place i, x.serial⟩ ∧ g.Alike f x
  rising : ∀ i j, i < j → j < F.depth → g.place i < g.place j
  link : ∀ i l, Link F.hollow i l → Leads G.hollow (g.place i) (g.place l)
  gap : ∀ (j : Nat) (x : Frame), G.frames[j]? = some x → (∀ i < F.depth, g.place i ≠ j) →
    0 < j ∧ x.staticLink = some (j - 1)
  climbing : ∀ s t, s < t → t < F.nextSerial → g.serial s < g.serial t
  given : ∀ s < F.nextSerial, g.serial s < G.nextSerial
  live : ∀ h : FrameHandle, h.serial < F.nextSerial → G.isLive (g.handle h) → F.isLive h

end Guide

/-! Looking into a stack of frames. -/

namespace FrameStack

variable {s : FrameStack} {scope : ScopeId} {level n i : Nat} {link : Option Nat}
  {locals : Array Value} {f : Frame}

/-- The serial numbers of the frames were given out. -/
def Given (s : FrameStack) : Prop :=
  ∀ (i : Nat) (f : Frame), s.frames[i]? = some f → f.serial < s.nextSerial

theorem isLive_iff_frames {h : FrameHandle} :
    s.isLive h = true ↔ ∃ f, s.frames[h.index]? = some f ∧ f.serial = h.serial := by
  simp only [isLive]
  split
  · next f hf => simp [hf]
  · next hf => simp [hf]

theorem lt_depth (hf : s.frames[i]? = some f) : i < s.depth :=
  (Array.getElem?_eq_some_iff.mp hf).1

theorem getElem?_push_self : (s.push scope level link locals).frames[s.depth]? =
    some ⟨scope, level, link, s.nextSerial, locals, none⟩ := by
  simp [push, depth]

theorem getElem?_push_of_some (hf : s.frames[i]? = some f) :
    (s.push scope level link locals).frames[i]? = some f := by
  have := lt_depth hf
  simp only [push, Array.getElem?_push]
  rw [if_neg (show i ≠ s.frames.size from Nat.ne_of_lt this)]
  exact hf

theorem of_getElem?_push (hf : (s.push scope level link locals).frames[i]? = some f) :
    s.frames[i]? = some f ∨
      i = s.depth ∧ f = ⟨scope, level, link, s.nextSerial, locals, none⟩ := by
  simp only [push, Array.getElem?_push] at hf
  split at hf
  · next hi => exact .inr ⟨hi, (Option.some.inj hf).symm⟩
  · exact .inl hf

@[simp] theorem depth_push : (s.push scope level link locals).depth = s.depth + 1 := by
  simp [push, depth]

theorem getElem?_truncate (hi : i < n) : (s.truncate n).frames[i]? = s.frames[i]? := by
  rw [← Array.getElem?_toList, ← Array.getElem?_toList]
  simp [truncate, hi]

theorem of_getElem?_truncate (hf : (s.truncate n).frames[i]? = some f) :
    i < n ∧ s.frames[i]? = some f := by
  rw [← Array.getElem?_toList] at hf ⊢
  simp only [truncate, Array.toList_shrink, List.getElem?_take] at hf
  split at hf
  · next hi => exact ⟨hi, hf⟩
  · cases hf

theorem depth_truncate (s : FrameStack) (n : Nat) : (s.truncate n).depth = min n s.depth := by
  simp [depth, truncate]

theorem of_getElem?_modify {u : Frame → Frame} {k : Nat} (hf : (s.modify k u).frames[i]? = some f) :
    ∃ f', s.frames[i]? = some f' ∧ f = if k = i then u f' else f' := by
  simp only [modify, Array.getElem?_modify] at hf
  split at hf
  · next hk =>
    obtain ⟨f', hf', rfl⟩ := Option.map_eq_some_iff.mp hf
    exact ⟨f', hf', (if_pos hk).symm⟩
  · next hk => exact ⟨f, hf, (if_neg hk).symm⟩

theorem getElem?_modify {u : Frame → Frame} (k : Nat) (hf : s.frames[i]? = some f) :
    (s.modify k u).frames[i]? = some (if k = i then u f else f) := by
  simp only [modify, Array.getElem?_modify]
  split <;> simp [hf]

end FrameStack

/-! What is known of links in one list of frames holds in another one. -/

theorem Leads.of_links {fs gs : List Frame} {i k : Nat}
    (h : ∀ j l, Link fs j l → Link gs j l) (hl : Leads fs i k) : Leads gs i k :=
  Relation.ReflTransGen.mono h _ _ hl

theorem Link.append {fs : List Frame} {i l : Nat} (h : Link fs i l) (gs : List Frame) :
    Link (fs ++ gs) i l := by
  obtain ⟨f, hf, hl⟩ := h
  refine ⟨f, ?_, hl⟩
  rw [List.getElem?_append_left (List.getElem?_eq_some_iff.mp hf).1]
  exact hf

theorem Link.of_concat {fs : List Frame} {f : Frame} {i l : Nat} (h : Link (fs ++ [f]) i l) :
    Link fs i l ∨ i = fs.length ∧ f.staticLink = some l := by
  obtain ⟨x, hx, hl⟩ := h
  rw [List.getElem?_append] at hx
  split at hx
  · exact .inl ⟨x, hx, hl⟩
  · obtain ⟨hi, rfl⟩ := List.getElem?_eq_some_iff.mp hx
    simp only [List.length_singleton] at hi
    exact .inr ⟨by omega, by simpa using hl⟩

theorem Link.of_take {fs : List Frame} {n i l : Nat} (h : Link (fs.take n) i l) :
    i < n ∧ Link fs i l := by
  obtain ⟨f, hf, hl⟩ := h
  rw [List.getElem?_take] at hf
  split at hf
  · next hi => exact ⟨hi, f, hf, hl⟩
  · cases hf

theorem FrameStack.link_iff {s : FrameStack} {i l : Nat} :
    Link s.hollow i l ↔ ∃ f, s.frames[i]? = some f ∧ f.staticLink = some l := by
  simp only [Link, FrameStack.hollow_getElem?, Option.map_eq_some_iff]
  constructor
  · rintro ⟨_, ⟨f, hf, rfl⟩, hl⟩
    exact ⟨f, hf, hl⟩
  · rintro ⟨f, hf, hl⟩
    exact ⟨_, ⟨f, hf, rfl⟩, hl⟩

theorem FrameStack.link_modify {s : FrameStack} {k i l : Nat} {u : Frame → Frame}
    (hu : ∀ f, (u f).staticLink = f.staticLink) :
    Link (s.modify k u).hollow i l ↔ Link s.hollow i l := by
  rw [link_iff, link_iff]
  constructor
  · rintro ⟨f, hf, hl⟩
    obtain ⟨f, hf', rfl⟩ := of_getElem?_modify hf
    refine ⟨f, hf', ?_⟩
    split at hl
    · rwa [hu] at hl
    · exact hl
  · rintro ⟨f, hf, hl⟩
    refine ⟨_, getElem?_modify k hf, ?_⟩
    split
    · rwa [hu]
    · exact hl

end Algol68
