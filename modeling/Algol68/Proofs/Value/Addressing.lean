import Algol68.Proofs.Value.Interference

/-! Undefined values have the structure of their modes. Where modes are made of earlier ones, an undefined
value has a part for every way through the fields of its mode; each part can be read and assigned to, and
an assignment to one that has no fields is not seen in the others. -/

namespace Algol68

/-- The modes that a mode is made of. -/
def Mode.refers : Mode → List ModeId
  | .ref m | .row _ m => [m]
  | .struct fields => fields.map Field.mode
  | .union variants => variants
  | .proc params result => params ++ [result]
  | _ => []

namespace ModeTable

/-- Every mode of the table is made of earlier ones. -/
def Ordered (t : ModeTable) : Prop := ∀ k < t.size, ∀ r ∈ (t.get ⟨k⟩).refers, r.index < k

/-- A mode is that of a field of another one. -/
def FieldOf (t : ModeTable) (f m : ModeId) : Prop :=
  ∃ fields, t.get m = .struct fields ∧ f ∈ fields.map Field.mode

/-- A mode without fields. -/
def Leaf (t : ModeTable) (m : ModeId) : Prop := ∀ fields, t.get m ≠ .struct fields

/-- The mode that some fields lead to, each of them a field of the mode before. -/
def reached? (t : ModeTable) : ModeId → List Nat → Option ModeId
  | m, [] => some m
  | m, i :: path =>
    match t.get m with
    | .struct fields => fields[i]?.bind fun f => t.reached? f.mode path
    | _ => none

variable {t : ModeTable} {m f k l : ModeId} {fields : List Field} {i : Nat} {path other : List Nat}

theorem index_lt_of_get (h : t.get m ≠ .void) : m.index < t.size := by
  by_contra hn
  apply h
  rw [get, Array.getD_eq_getD_getElem?, Array.getElem?_eq_none (Nat.le_of_not_lt hn)]
  rfl

theorem Ordered.field_lt (ht : t.Ordered) (h : t.FieldOf f m) : f.index < m.index := by
  obtain ⟨fields, hm, hf⟩ := h
  refine ht m.index (index_lt_of_get (by simp [hm])) f ?_
  rw [hm]
  exact hf

/-- Going from a mode to the modes of its fields comes to an end. -/
theorem Ordered.acc (ht : t.Ordered) (m : ModeId) : Acc t.FieldOf m :=
  Subrelation.accessible ht.field_lt (InvImage.accessible Index.index (Nat.lt_wfRel.wf.apply _))

theorem reached?_cons_eq_some_iff :
    t.reached? m (i :: path) = some k ↔
      ∃ fields f, t.get m = .struct fields ∧ fields[i]? = some f ∧ t.reached? f.mode path = some k := by
  cases hm : t.get m with
  | struct fields => simp [reached?, hm, Option.bind_eq_some_iff]
  | _ => simp [reached?, hm]

/-- Different ways to modes without fields part somewhere. -/
theorem beside_of_leaves (hp : t.reached? m path = some k) (hk : t.Leaf k)
    (ho : t.reached? m other = some l) (hl : t.Leaf l) (hne : path ≠ other) :
    Beside (path.map Step.field) (other.map Step.field) := by
  induction path generalizing m other with
  | nil =>
    cases other with
    | nil => exact absurd rfl hne
    | cons j other =>
      cases hp
      obtain ⟨fields, -, hm, -⟩ := reached?_cons_eq_some_iff.mp ho
      exact absurd hm (hk fields)
  | cons i path ih =>
    obtain ⟨fields, f, hm, hf, hp⟩ := reached?_cons_eq_some_iff.mp hp
    cases other with
    | nil =>
      cases ho
      exact absurd hm (hl fields)
    | cons j other =>
      obtain ⟨fields', g, hm', hg, ho⟩ := reached?_cons_eq_some_iff.mp ho
      cases hm.symm.trans hm'
      simp only [List.map_cons]
      rw [beside_cons_cons, ne_eq, Step.field.injEq]
      by_cases hij : i = j
      · subst hij
        cases hf.symm.trans hg
        exact .inr (ih hp ho fun h => hne (h ▸ rfl))
      · exact .inl hij

end ModeTable

namespace Value

open ModeTable

variable {t : ModeTable} {m k : ModeId} {fields : List Field} {path : List Nat}

/-- The undefined value does not depend on the depth that is allowed for. -/
theorem undefinedTo_eq (ht : t.Ordered) {d e : Nat} (hd : m.index < d) (he : m.index < e) :
    undefinedTo t d m = undefinedTo t e m := by
  induction d generalizing m e with
  | zero => omega
  | succ d ih =>
    cases e with
    | zero => omega
    | succ e =>
      simp only [undefinedTo]
      split
      · next fields hm =>
        refine congrArg (fun parts => Value.struct parts.toArray) (List.map_congr_left fun f hf => ?_)
        have hlt := ht.field_lt ⟨fields, hm, List.mem_map_of_mem hf⟩
        exact ih (by omega) (by omega)
      · rfl
      · rfl
      · rfl

theorem undefinedOf_struct (ht : t.Ordered) (h : t.get m = .struct fields) :
    undefinedOf t m = .struct (fields.map fun f => undefinedOf t f.mode).toArray := by
  simp only [undefinedOf, undefinedTo, h]
  refine congrArg (fun parts => Value.struct parts.toArray) (List.map_congr_left fun f hf => ?_)
  exact undefinedTo_eq ht (ht.field_lt ⟨fields, h, List.mem_map_of_mem hf⟩) (Nat.lt_succ_self _)

/-- The form of the undefined value of a mode. -/
structure Blank (t : ModeTable) (m : ModeId) (v : Value) : Prop where
  struct : ∀ fields, t.get m = .struct fields →
    v = .struct (fields.map fun f => undefinedOf t f.mode).toArray
  row : ∀ dims element, t.get m = .row dims element →
    v = .row ⟨List.replicate (max dims 1) ⟨1, 0⟩, #[]⟩
  void : t.get m = .void → v = .void
  other : t.Leaf m → (∀ dims element, t.get m ≠ .row dims element) → t.get m ≠ .void →
    v = .undefined m

theorem undefinedOf_blank (ht : t.Ordered) (m : ModeId) : Blank t m (undefinedOf t m) := by
  refine ⟨fun fields => undefinedOf_struct ht, fun dims element h => ?_, fun h => ?_,
    fun hs hr hv => ?_⟩
  · simp only [undefinedOf, undefinedTo, h]
    rfl
  · simp only [undefinedOf, undefinedTo, h]
  · rw [undefinedOf, undefinedTo]
    split
    · next fields h => exact absurd h (hs fields)
    · next dims element h => exact absurd h (hr dims element)
    · next h => exact absurd h hv
    · rfl

/-- Fields lead from the undefined value of a mode to that of the mode reached. -/
theorem read_undefinedOf (ht : t.Ordered) (h : t.reached? m path = some k) :
    (undefinedOf t m).read (path.map .field) = .ok (undefinedOf t k) := by
  induction path generalizing m with
  | nil =>
    cases h
    rfl
  | cons i path ih =>
    obtain ⟨fields, f, hm, hf, h⟩ := reached?_cons_eq_some_iff.mp h
    have into : (undefinedOf t m).stepInto (.field i) = .ok (undefinedOf t f.mode) := by
      simp [undefinedOf_struct ht hm, stepInto, hf]
    rw [List.map_cons, read, into]
    exact ih h

end Value

namespace Name

theorem foldl_field (n : Name) (path : List Nat) :
    path.foldl Name.field n = ⟨n.cell, n.path ++ path.map .field⟩ := by
  induction path generalizing n with
  | nil => simp
  | cons i path ih => rw [List.foldl_cons, ih, List.map_cons]; simp [field, extend]

theorem beside_foldl_field (n : Name) {p q : List Nat}
    (h : Algol68.Beside (p.map Step.field) (q.map Step.field)) :
    (p.foldl Name.field n).Beside (q.foldl Name.field n) := by
  rw [foldl_field, foldl_field]
  exact .inr ⟨fun hp => h.1 ((List.prefix_append_right_inj _).mp hp),
    fun hq => h.2 ((List.prefix_append_right_inj _).mp hq)⟩

end Name

namespace Store

variable {s : Store} {n : Name} {v w : Value} {path : List Step}

theorem get_fields (s : Store) (n : Name) (path : List Nat) :
    s.get (path.foldl Name.field n) = (do (← s.get n).read (path.map .field)) := by
  rw [Name.foldl_field, get, Value.read_append]
  rfl

/-- A name of a location that can be read can be assigned to, and then has the value assigned. -/
theorem exists_set (hn : n.cell < s.cells.size) (h : s.get n = .ok v) (w : Value) :
    ∃ s', s.set n w = .ok s' ∧ s'.get n = .ok w := by
  obtain ⟨c, hc, hr⟩ := Value.write_of_read w h
  refine ⟨s.put n.cell c, ?_, ?_⟩
  · simp only [set, assigned, hc]
    rfl
  · rw [get, cell_put hn]
    exact hr

/-- An assignment that goes through is not seen through a name beside it. -/
theorem get_of_set_beside {s' : Store} {o : Name} (h : s.set n w = .ok s') (ho : n.Beside o) :
    s'.get o = s.get o := by
  have := get_attempt_of_beside (s := s) ho w
  rwa [attempt, h] at this

end Store

open Value in
/-- Undefined values can be addressed throughout. Where modes are made of earlier ones, the undefined value
of a mode is made by a recursion over fields that comes to an end. A name of it that is extended by fields of
the mode, one after the other, can be read and assigned to. What is read is the undefined value of the mode
reached; and where that has no fields, the other parts without fields stay undefined after an assignment. -/
theorem undefined_addressed {t : ModeTable} (ht : t.Ordered) (m : ModeId) :
    Acc t.FieldOf m ∧ (∀ depth, m.index < depth → undefinedTo t depth m = undefinedOf t m) ∧
    ∀ (s : Store) (n : Name), n.cell < s.cells.size → s.get n = .ok (undefinedOf t m) →
      ∀ path k, t.reached? m path = some k →
        (s.get (path.foldl Name.field n) = .ok (undefinedOf t k) ∧ Blank t k (undefinedOf t k)) ∧
        ∀ v, ∃ s', s.set (path.foldl Name.field n) v = .ok s' ∧
          s'.get (path.foldl Name.field n) = .ok v ∧
          (t.Leaf k → ∀ other l, t.reached? m other = some l → t.Leaf l → other ≠ path →
            s'.get (other.foldl Name.field n) = .ok (undefinedOf t l)) := by
  refine ⟨ht.acc m, fun depth hd => undefinedTo_eq ht hd (Nat.lt_succ_self _),
    fun s n hn hg path k hk => ?_⟩
  have reads {path : List Nat} {k : ModeId} (hk : t.reached? m path = some k) :
      s.get (path.foldl Name.field n) = .ok (undefinedOf t k) := by
    rw [Store.get_fields, hg]
    exact read_undefinedOf ht hk
  refine ⟨⟨reads hk, undefinedOf_blank ht k⟩, fun v => ?_⟩
  obtain ⟨s', hs, hv⟩ := Store.exists_set (by rwa [Name.foldl_field]) (reads hk) v
  refine ⟨s', hs, hv, fun leaf other l hl leaf' hne => ?_⟩
  have beside := ModeTable.beside_of_leaves hk leaf hl leaf' (Ne.symm hne)
  rw [Store.get_of_set_beside hs (Name.beside_foldl_field n beside)]
  exact reads hl

/-- The modes of an account: a balance that is a structure itself, rows and rows of entries, and a part
without a value. -/
def account : ModeTable :=
  ⟨Mode.primitives ++ #[.struct [⟨⟨1⟩, .int⟩, ⟨⟨2⟩, .real⟩], .row 2 .int,
    .struct [⟨⟨3⟩, ⟨7⟩⟩, ⟨⟨4⟩, ⟨8⟩⟩, ⟨⟨5⟩, .void⟩]]⟩

open Value ModeTable in
/-- An assignment to the `REAL` part of the balance of an account leaves the `INT` part and the entries
undefined. -/
theorem account_addressed :
    account.Ordered ∧ ∃ (s : Store) (n : Name), s.get n = .ok (undefinedOf account ⟨9⟩) ∧
      account.reached? ⟨9⟩ [0, 1] = some .real ∧
      s.get ((n.field 0).field 1) = .ok (.undefined .real) ∧
      s.get (n.field 1) = .ok (.row ⟨[⟨1, 0⟩, ⟨1, 0⟩], #[]⟩) ∧
      ∃ s' : Store, s.set ((n.field 0).field 1) (.real 2) = .ok s' ∧
        s'.get ((n.field 0).field 0) = .ok (.undefined .int) ∧
        s'.get (n.field 1) = .ok (.row ⟨[⟨1, 0⟩, ⟨1, 0⟩], #[]⟩) := by
  have ordered : account.Ordered := by
    unfold Ordered
    decide
  have holds : Store.get ⟨#[.int 5, undefinedOf account ⟨9⟩]⟩ ⟨1, []⟩ =
      .ok (undefinedOf account ⟨9⟩) := rfl
  have parts := (undefined_addressed ordered ⟨9⟩).2.2 _ _ (by decide) holds
  obtain ⟨⟨reads, -⟩, assign⟩ := parts [0, 1] .real rfl
  obtain ⟨s', set, -, kept⟩ := assign (.real 2)
  have kept := kept nofun
  exact ⟨ordered, _, _, holds, rfl, reads, (parts [1] ⟨8⟩ rfl).1.1, s', set,
    kept [0, 0] .int rfl nofun (by decide), kept [1] ⟨8⟩ rfl nofun (by decide)⟩

end Algol68
