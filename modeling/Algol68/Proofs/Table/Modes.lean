import Algol68.Program.Mode
import Algol68.Proofs.Table.Entry

/-! Modes are kept once. A mode is entered in its canonical form, in which the variants of a union ascend
and none is repeated, so an identifier stands for one canonical mode and a canonical mode has one
identifier, from when it is first interned on. -/

namespace Algol68

namespace Mode

variable {m n : Mode} {v : ModeId} {vs ws : List ModeId}

/-- Modes in the order of their identifiers, each of them once. -/
abbrev Ascending (vs : List ModeId) : Prop := vs.Pairwise fun v w => v.index < w.index

theorem mem_insertVariant (w : ModeId) (vs : List ModeId) :
    v ∈ insertVariant w vs ↔ v = w ∨ v ∈ vs := by
  induction vs with
  | nil => simp [insertVariant]
  | cons u vs ih =>
    rw [insertVariant]
    split
    · exact List.mem_cons
    · split
      · next h =>
        subst h
        simp
      · rw [List.mem_cons, ih, List.mem_cons]
        exact or_left_comm

theorem ascending_insertVariant (w : ModeId) (h : Ascending vs) : Ascending (insertVariant w vs) := by
  induction vs with
  | nil => simp [insertVariant]
  | cons u vs ih =>
    obtain ⟨hu, hvs⟩ := List.pairwise_cons.mp h
    rw [insertVariant]
    split
    · next hlt =>
      refine List.pairwise_cons.mpr ⟨fun v hv => ?_, h⟩
      rcases List.mem_cons.mp hv with rfl | hv
      · exact hlt
      · exact Nat.lt_trans hlt (hu v hv)
    · next hle =>
      split
      · exact h
      · next hne =>
        refine List.pairwise_cons.mpr ⟨fun v hv => ?_, ih hvs⟩
        rcases (mem_insertVariant w vs).mp hv with rfl | hv
        · have : v.index ≠ u.index := fun he => hne (congrArg Index.mk he)
          omega
        · exact hu v hv

/-- The canonical form of a union has the same variants in order. -/
theorem canonical_union (vs : List ModeId) :
    ∃ ws, (Mode.union vs).canonical = .union ws ∧ Ascending ws ∧ ∀ v, v ∈ ws ↔ v ∈ vs := by
  refine ⟨_, rfl, ?_, fun v => ?_⟩
  · induction vs with
    | nil => exact .nil
    | cons v vs ih => exact ascending_insertVariant v ih
  · induction vs with
    | nil => rfl
    | cons w vs ih => rw [List.foldr_cons, mem_insertVariant, ih, List.mem_cons]

theorem canonical_of_not_union (h : ∀ vs, m ≠ .union vs) : m.canonical = m := by
  cases m with
  | union vs => exact absurd rfl (h vs)
  | _ => rfl

/-- There is one way to put modes in order. -/
theorem Ascending.eq (hv : Ascending vs) (hw : Ascending ws) (h : ∀ v, v ∈ vs ↔ v ∈ ws) :
    vs = ws := by
  have nodup {us : List ModeId} (hu : Ascending us) : us.Nodup := by
    refine List.Pairwise.imp (fun {v w} hlt he => ?_) hu
    rw [he] at hlt
    exact Nat.lt_irrefl _ hlt
  refine List.Perm.eq_of_pairwise (fun a b _ _ hab hba => ?_) hv hw
    ((List.perm_ext_iff_of_nodup (nodup hv) (nodup hw)).mpr h)
  omega

/-- Only the order and the repetition of the variants of a union do not matter. -/
theorem canonical_eq_iff :
    m.canonical = n.canonical ↔
      m = n ∨ ∃ vs ws, m = .union vs ∧ n = .union ws ∧ ∀ v, v ∈ vs ↔ v ∈ ws := by
  have unions (vs ws : List ModeId) :
      (Mode.union vs).canonical = (Mode.union ws).canonical ↔ ∀ v, v ∈ vs ↔ v ∈ ws := by
    obtain ⟨vs', hv, hasc, hmem⟩ := canonical_union vs
    obtain ⟨ws', hw, hasc', hmem'⟩ := canonical_union ws
    rw [hv, hw, Mode.union.injEq]
    constructor
    · rintro rfl v
      rw [← hmem, hmem']
    · exact fun h => hasc.eq hasc' fun v => by rw [hmem, hmem', h]
  constructor
  · intro h
    cases m with
    | union vs =>
      cases n with
      | union ws => exact .inr ⟨vs, ws, rfl, rfl, (unions vs ws).mp h⟩
      | _ => cases h
    | _ =>
      cases n with
      | union ws => cases h
      | _ => exact .inl h
  · rintro (rfl | ⟨vs, ws, rfl, rfl, h⟩)
    · rfl
    · exact (unions vs ws).mpr h

end Mode

namespace ModeTable

/-- The table after some modes were interned, one after the other. -/
def interned (ms : List Mode) : ModeTable := ms.foldl (fun t m => (t.intern m).2) .new

variable {t : ModeTable} {m n : Mode} {ms : List Mode}

theorem intern_eq (t : ModeTable) (m : Mode) :
    t.intern m = (⟨(enter t.modes m.canonical).1⟩, ⟨(enter t.modes m.canonical).2⟩) := by
  rw [intern, enter]
  cases t.modes.idxOf? m.canonical <;> rfl

theorem interned_append (ms : List Mode) (m : Mode) (ns : List Mode) :
    interned (ms ++ m :: ns) = ns.foldl (fun t m => (t.intern m).2) ((interned ms).intern m).2 := by
  rw [interned, List.foldl_append]
  rfl

theorem modes_foldl_intern (t : ModeTable) (ms : List Mode) :
    (ms.foldl (fun t m => (t.intern m).2) t).modes = enterAll t.modes (ms.map Mode.canonical) := by
  induction ms generalizing t with
  | nil => rfl
  | cons m ms ih => rw [List.foldl_cons, ih, intern_eq, List.map_cons, enterAll_cons]

theorem modes_interned (ms : List Mode) :
    (interned ms).modes = enterAll Mode.primitives (ms.map Mode.canonical) :=
  modes_foldl_intern .new ms

theorem nodup_interned (ms : List Mode) : (interned ms).modes.toList.Nodup := by
  rw [modes_interned]
  exact nodup_enterAll (by decide) _

theorem get_of_getElem? {k : ModeId} (h : t.modes[k.index]? = some m) :
    k.index < t.size ∧ t.get k = m := by
  refine ⟨(Array.getElem?_eq_some_iff.mp h).1, ?_⟩
  rw [get, Array.getD_eq_getD_getElem?, h]
  rfl

/-- A conformity clause takes a variant where it is asked for, or where it is one of several asked for. -/
theorem accepts_iff (t : ModeTable) (p v : ModeId) :
    t.oracle.accepts p v ↔ p = v ∨ ∃ vs, t.get p = .union vs ∧ v ∈ vs := by
  simp only [oracle, Bool.or_eq_true, decide_eq_true_eq, List.any_eq_true, exists_eq_right]
  refine or_congr_right ?_
  cases h : t.get p with
  | union vs => simp [unionVariants?, h]
  | _ => simp [unionVariants?, h]

/-- The identifier of a mode stands for its canonical form, whatever is interned later. -/
theorem get_interned (before : List Mode) (m : Mode) (later : List Mode) :
    ((interned before).intern m).1.index < (interned (before ++ m :: later)).size ∧
      (interned (before ++ m :: later)).get ((interned before).intern m).1 = m.canonical := by
  refine get_of_getElem? ?_
  rw [interned_append, modes_foldl_intern, intern_eq]
  exact getElem?_enterAll _ (getElem?_enter _ _)

theorem intern_eq_intern_iff (before : List Mode) (m : Mode) (between : List Mode) (n : Mode) :
    ((interned before).intern m).1 = ((interned (before ++ m :: between)).intern n).1 ↔
      m.canonical = n.canonical := by
  rw [interned_append, intern_eq, intern_eq _ n, modes_foldl_intern, Index.mk.injEq]
  exact enter_eq_enter_iff (nodup_interned before) _ _ _

theorem mem_interned (ms : List Mode) (m : Mode) :
    m ∈ (interned ms).modes ↔ m ∈ Mode.primitives ∨ ∃ n ∈ ms, n.canonical = m := by
  rw [modes_interned, mem_enterAll, List.mem_map]

/-- The table grows by one entry if the canonical form is new, and stays as it is otherwise. -/
theorem size_interned_append (ms : List Mode) (m : Mode) :
    (interned (ms ++ [m])).size = (interned ms).size +
      if m.canonical ∈ Mode.primitives ∨ ∃ n ∈ ms, n.canonical = m.canonical then 0 else 1 := by
  have step : interned (ms ++ [m]) = ((interned ms).intern m).2 := interned_append ms m []
  rw [step, intern_eq]
  simp only [← mem_interned, size]
  split
  · next h =>
    obtain ⟨k, hk, -⟩ := enter_of_mem h
    rw [hk]
    rfl
  · next h =>
    rw [enter_of_notMem h]
    exact Array.size_push _

theorem intern_primitive (ms : List Mode) {k : Nat} {m : Mode} (h : Mode.primitives[k]? = some m) :
    (interned ms).get ⟨k⟩ = m ∧ (interned ms).intern m = (⟨k⟩, interned ms) := by
  have there : (interned ms).modes[k]? = some m := by
    rw [modes_interned]
    exact getElem?_enterAll _ h
  have same : m.canonical = m := by
    have hm := Array.mem_of_getElem? h
    refine Mode.canonical_of_not_union fun vs he => ?_
    subst he
    simp [Mode.primitives] at hm
  refine ⟨(get_of_getElem? there).2, ?_⟩
  rw [intern_eq, same, enter_of_getElem? (nodup_interned ms) there]

end ModeTable

/-- A table of modes with an index beside it, which has the identifier of each mode. -/
structure IndexedModes [Hashable Mode] where
  modes : Array Mode
  index : Std.HashMap Mode ModeId

namespace IndexedModes

variable [Hashable Mode]

/-- The identifier of a mode, looked up in the index. -/
def intern (t : IndexedModes) (m : Mode) : ModeId × IndexedModes :=
  match t.index[m.canonical]? with
  | some id => (id, t)
  | none => (⟨t.modes.size⟩,
      ⟨t.modes.push m.canonical, t.index.insert m.canonical ⟨t.modes.size⟩⟩)

def interned (ms : List Mode) : IndexedModes :=
  (Mode.primitives.toList ++ ms).foldl (fun t m => (t.intern m).2) ⟨#[], ∅⟩

/-- An indexed table has the modes of another table, and the index is inverse to it. -/
structure Matches (t : IndexedModes) (u : ModeTable) : Prop where
  modes : t.modes = u.modes
  inverse : ∀ (m : Mode) (id : ModeId), t.index[m]? = some id ↔ t.modes[id.index]? = some m

variable {t : IndexedModes} {u : ModeTable} {m : Mode}

theorem Matches.push (h : t.Matches u) (hm : m ∉ u.modes) :
    Matches ⟨t.modes.push m, t.index.insert m ⟨t.modes.size⟩⟩ ⟨u.modes.push m⟩ := by
  rw [← h.modes] at hm
  exact ⟨congrArg (·.push m) h.modes,
    Indexes.push h.inverse (fun _ _ => congrArg Index.mk) hm rfl⟩

/-- To look a mode up in the index is as good as to search the table for it. -/
theorem Matches.intern (h : t.Matches u) (m : Mode) :
    (t.intern m).1 = (u.intern m).1 ∧ (t.intern m).2.Matches (u.intern m).2 := by
  cases hk : u.modes.idxOf? m.canonical with
  | some k =>
    have found : t.index[m.canonical]? = some ⟨k⟩ := by
      rw [h.inverse, h.modes]
      exact getElem?_of_idxOf? hk
    simp only [IndexedModes.intern, ModeTable.intern, found, hk]
    exact ⟨trivial, h⟩
  | none =>
    have hm := Array.idxOf?_eq_none_iff.mp hk
    have absent : t.index[m.canonical]? = none :=
      Indexes.getElem?_of_notMem h.inverse (h.modes ▸ hm)
    simp only [IndexedModes.intern, ModeTable.intern, absent, hk]
    exact ⟨by rw [h.modes], h.push hm⟩

theorem Matches.foldl_intern (h : t.Matches u) (ms : List Mode) :
    Matches (ms.foldl (fun t m => (t.intern m).2) t) (ms.foldl (fun u m => (u.intern m).2) u) := by
  induction ms generalizing t u with
  | nil => exact h
  | cons m ms ih => exact ih (h.intern m).2

theorem interned_matches (ms : List Mode) : (interned ms).Matches (ModeTable.interned ms) := by
  have empty : Matches ⟨#[], ∅⟩ ⟨#[]⟩ := ⟨rfl, Indexes.empty Index.index⟩
  have modes : (Mode.primitives.toList.foldl (fun u m => (u.intern m).2) (⟨#[]⟩ : ModeTable)).modes =
      Mode.primitives := by
    rw [ModeTable.modes_foldl_intern, ← Array.toList_inj, toList_enterAll]
    · rfl
    · decide
    · exact fun _ _ => Array.not_mem_empty _
  have start : Mode.primitives.toList.foldl (fun u m => (u.intern m).2) ⟨#[]⟩ = ModeTable.new :=
    congrArg ModeTable.mk modes
  rw [interned, List.foldl_append, ModeTable.interned, ← start]
  exact (empty.foldl_intern _).foldl_intern ms

end IndexedModes

namespace ModeTable

/-- Modes are kept once. The identifier of a mode stands for its canonical form from then on; it is that of
another mode exactly if the canonical forms are equal, and these differ in all but the order and the
repetition of the variants of a union. No mode is in the table twice, it grows only by a new mode, and the
primitive modes keep their identifiers. So a mode accepts itself and, if it is a union, its variants.
An index from modes to identifiers, kept beside the table, gives the same identifiers. -/
theorem modes_kept_once :
    (∀ before m later,
      ((interned before).intern m).1.index < (interned (before ++ m :: later)).size ∧
        (interned (before ++ m :: later)).get ((interned before).intern m).1 = m.canonical) ∧
    (∀ m : Mode, (∀ vs, m ≠ .union vs) → m.canonical = m) ∧
    (∀ vs, ∃ ws, (Mode.union vs).canonical = .union ws ∧ Mode.Ascending ws ∧
      ∀ v, v ∈ ws ↔ v ∈ vs) ∧
    (∀ before m between n,
      ((interned before).intern m).1 = ((interned (before ++ m :: between)).intern n).1 ↔
        m.canonical = n.canonical) ∧
    (∀ m n : Mode, m.canonical = n.canonical ↔
      m = n ∨ ∃ vs ws, m = .union vs ∧ n = .union ws ∧ ∀ v, v ∈ vs ↔ v ∈ ws) ∧
    (∀ ms, (interned ms).modes.toList.Nodup) ∧
    (∀ ms m, (interned (ms ++ [m])).size = (interned ms).size +
      if m.canonical ∈ Mode.primitives ∨ ∃ n ∈ ms, n.canonical = m.canonical then 0 else 1) ∧
    (∀ ms k m, Mode.primitives[k]? = some m →
      (interned ms).get ⟨k⟩ = m ∧ (interned ms).intern m = (⟨k⟩, interned ms)) ∧
    (∀ ms p v, (interned ms).oracle.accepts p v ↔
      p = v ∨ ∃ vs, (interned ms).get p = .union vs ∧ v ∈ vs) ∧
    ∀ [Hashable Mode] ms, (IndexedModes.interned ms).Matches (interned ms) ∧
      ∀ m, ((IndexedModes.interned ms).intern m).1 = ((interned ms).intern m).1 := by
  refine ⟨get_interned, fun m => Mode.canonical_of_not_union, Mode.canonical_union,
    intern_eq_intern_iff, fun m n => Mode.canonical_eq_iff, nodup_interned, size_interned_append,
    fun ms k m => intern_primitive ms, fun ms => accepts_iff _, fun ms => ?_⟩
  have h := IndexedModes.interned_matches ms
  exact ⟨h, fun m => (h.intern m).1⟩

/-- `UNION (REAL, INT)` and `UNION (INT, REAL, INT)` are one mode; `REF INT` is as it was given; and `INT`
keeps its identifier. -/
theorem unions_kept_once :
    ((interned []).intern (.union [.real, .int])).1 =
      ((interned [.union [.real, .int], .ref .int]).intern (.union [.int, .real, .int])).1 ∧
    (∀ vs, Mode.ref .int ≠ .union vs) ∧
    (interned [.union [.real, .int], .ref .int]).get
      ((interned [.union [.real, .int]]).intern (.ref .int)).1 = .ref .int ∧
    Mode.primitives[1]? = some .int ∧
    (interned [.ref .int]).intern .int = (⟨1⟩, interned [.ref .int]) := by
  obtain ⟨stands, other, -, same, alike, -, -, primitive, -⟩ := modes_kept_once
  have plain : ∀ vs, Mode.ref .int ≠ .union vs := nofun
  have given := (stands [.union [.real, .int]] (.ref .int) []).2
  rw [other _ plain] at given
  refine ⟨(same [] _ [.ref .int] _).mpr ((alike _ _).mpr (.inr ⟨_, _, rfl, rfl, fun v => ?_⟩)),
    plain, given, rfl, (primitive [.ref .int] 1 .int rfl).2⟩
  simp only [List.mem_cons, List.not_mem_nil, or_false]
  tauto

end ModeTable

end Algol68
