import Algol68.Proofs.Loop.Entry
import Algol68.Proofs.Row.Limit

/-! Generators of rows. The elements are counted one dimension after the other, and the count is given
up as soon as it passes 64 bits. A dimension without elements makes the count zero from there on, so
only the dimensions in front of the first such one can make a generator of an empty row fail. -/

namespace Algol68

open Exec (wp)

variable {job : Job} {m m₁ m' : Machine} {n : NodeId} {limit : Nat} {b : Bounds} {dims dims' : List Bounds}
  {modes : ModeTable} {mode element : ModeId} {v : Value}

/-! Counting the elements. -/

/-- The number of elements under the bounds in front of the first dimension without elements. -/
def leadingVolume (dims : List Bounds) : Nat := volume (dims.takeWhile fun b => 0 < b.count)

@[simp] theorem leadingVolume_nil : leadingVolume [] = 1 := rfl

theorem leadingVolume_cons_empty (h : b.count = 0) : leadingVolume (b :: dims) = 1 := by
  simp [leadingVolume, h]

theorem leadingVolume_cons (h : 0 < b.count) :
    leadingVolume (b :: dims) = b.count * leadingVolume dims := by
  simp [leadingVolume, h]

theorem leadingVolume_pos (dims : List Bounds) : 0 < leadingVolume dims := by
  induction dims with
  | nil => exact Nat.one_pos
  | cons b dims ih =>
    rcases Nat.eq_zero_or_pos b.count with h | h
    · rw [leadingVolume_cons_empty h]
      exact Nat.one_pos
    · rw [leadingVolume_cons h]
      exact Nat.mul_pos h ih

theorem leadingVolume_eq (h : volume dims ≠ 0) : leadingVolume dims = volume dims := by
  induction dims with
  | nil => rfl
  | cons b dims ih =>
    rw [volume_cons] at h
    rw [leadingVolume_cons (Nat.pos_of_ne_zero (Nat.ne_zero_of_mul_ne_zero_left h)), volume_cons,
      ih (Nat.ne_zero_of_mul_ne_zero_right h)]

theorem volume_perm (h : dims.Perm dims') : volume dims = volume dims' := by
  induction h with
  | nil => rfl
  | cons b _ ih => rw [volume_cons, volume_cons, ih]
  | swap b c dims => simp only [volume_cons, Nat.mul_left_comm]
  | trans _ _ ih ih' => exact ih.trans ih'

theorem volume_eq_zero_iff : volume dims = 0 ↔ exactVolume dims = 0 := by
  constructor
  · intro h
    rw [exactVolume_eq (h ▸ by decide), h]
  · intro h
    exact Nat.le_zero.mp (h ▸ volume_le_exactVolume dims)

/-- Where no dimension is counted short, the count is exact. -/
theorem volume_eq_exactVolume (h : ∀ b ∈ dims, b.extent ≤ maxCount) :
    volume dims = exactVolume dims := by
  induction dims with
  | nil => rfl
  | cons b dims ih =>
    rw [volume_cons, exactVolume_cons, ih fun c hc => h c (List.mem_cons_of_mem _ hc), Bounds.count,
      Nat.min_eq_left (h b (List.mem_cons_self ..))]

namespace Value

theorem foldlM_volume_zero (dims : List Bounds) :
    dims.foldlM (fun n b => if n * b.count ≤ maxCount then some (n * b.count) else none) 0 = some 0 := by
  induction dims with
  | nil => rfl
  | cons b dims ih => simpa [List.foldlM_cons] using ih

/-- A count that has begun with `k` goes on to its end as long as the dimensions in front of the first
one without elements do not make it too large. -/
theorem foldlM_volume_isSome {k : Nat} (hk : 0 < k) (hle : k ≤ maxCount) :
    (dims.foldlM (fun n b => if n * b.count ≤ maxCount then some (n * b.count) else none) k).isSome ↔
      k * leadingVolume dims ≤ maxCount := by
  induction dims generalizing k with
  | nil => simpa using hle
  | cons b dims ih =>
    rw [List.foldlM_cons]
    rcases Nat.eq_zero_or_pos b.count with hb | hb
    · rw [leadingVolume_cons_empty hb, hb, Nat.mul_zero, if_pos (Nat.zero_le _), Nat.mul_one]
      simpa [foldlM_volume_zero dims] using hle
    · rw [leadingVolume_cons hb, ← Nat.mul_assoc]
      split
      · next h => exact ih (Nat.mul_pos hk hb) h
      · next h =>
        have passed : k * b.count ≤ k * b.count * leadingVolume dims :=
          Nat.le_mul_of_pos_right _ (leadingVolume_pos dims)
        simp only [Option.bind_eq_bind, Option.bind_none, Option.isSome_none, Bool.false_eq_true,
          false_iff]
        omega

theorem volume?_isSome : (volume? dims).isSome ↔ leadingVolume dims ≤ maxCount := by
  rw [volume?, foldlM_volume_isSome Nat.one_pos (by decide), Nat.one_mul]

theorem volume?_eq_some (h : leadingVolume dims ≤ maxCount) : volume? dims = some (volume dims) := by
  obtain ⟨count, hc⟩ := Option.isSome_iff_exists.mp (volume?_isSome.mpr h)
  rw [hc, volume?_eq hc]

/-- The row that a generator makes if it counts its elements to the end. -/
def fresh (modes : ModeTable) (element : ModeId) (dims : List Bounds) : Row Value :=
  ⟨dims, Array.replicate (volume dims) (undefinedOf modes element)⟩

theorem initial_eq_fresh (hm : modes.get mode = .row dims.length element)
    (hlead : leadingVolume dims ≤ maxCount) (hle : volume dims ≤ limit) :
    initial modes limit mode dims = .ok (.row (fresh modes element dims)) := by
  simp only [initial, hm, if_true, volume?_eq_some hlead, Option.filter_some, hle, decide_true, fresh]

theorem initial_eq_fault (hm : modes.get mode = .row dims.length element)
    (h : leadingVolume dims ≤ maxCount → limit < volume dims) :
    initial modes limit mode dims = fault (.objectTooLarge limit) := by
  have none : (volume? dims).filter (· ≤ limit) = none := by
    rw [Option.filter_eq_none_iff]
    intro count hc hle
    have hlt := h (volume?_isSome.mp (hc ▸ rfl))
    rw [← volume?_eq hc] at hlt
    have hle : count ≤ limit := by simpa using hle
    omega
  simp only [initial, hm, none, if_true]

end Value

/-! Gathering the bounds. -/

/-- A task that gathers integers comes to where it uses them when the parts that were wanted are
evaluated. -/
theorem Parts.gathers {wanted : List (Option NodeId)} {ns found : List (Option Int64)}
    {p : Purpose} {t : Task} {m₀ : Machine} (h : Parts job wanted m ns m')
    (ht : t.exec job m₀ = Exec.gather job p found wanted m) :
    ∃ t' m₂, Runs job ([t], m₀) ([t'], m₂) ∧
      t'.exec job m₂ = Exec.conclude job (found ++ ns) p m' := by
  induction h generalizing found t m₀ with
  | nil m =>
    rw [List.append_nil]
    exact ⟨t, m₀, .refl, ht⟩
  | @cons part wanted k ns m m₁ m₂ first others ih =>
    have split : found ++ k :: ns = (found ++ [k]) ++ ns := (List.append_cons ..)
    rw [split]
    cases first with
    | absent => exact ih ht
    | @present unit _ m₀' _ k evaluated taken =>
      have asks : Does job ([t], m₀) ([.unit unit, .take ⟨p, found, wanted⟩], m) :=
        does_single_iff.mpr ht
      have takes : (Task.take ⟨p, found, wanted⟩).exec job m₀' =
          Exec.gather job p (found ++ [some k]) wanted m₁ := by
        simp only [Task.exec, Exec.take, bind, EStateM.bind, taken]
      obtain ⟨t', m₃, hr, ht'⟩ := ih takes
      exact ⟨t', m₃, .head asks ((evaluated.append [.take ⟨p, found, wanted⟩]).trans hr), ht'⟩

/-- The mode of what the name that a generator makes refers to. -/
def Program.generatedMode (p : Program) (n : NodeId) : ModeId :=
  match p.modes.get (p.tree.mode n) with
  | .ref target => target
  | _ => p.tree.mode n

/-- A generator of a row evaluates its bounds, one pair for each dimension of the row, and is then in
another machine. -/
structure Bounded (job : Job) (n : NodeId) (element : ModeId) (m : Machine) (dims : List Bounds)
    (m₁ : Machine) : Prop where
  bounds : ∃ heap range found, job.program.tree.kind n = .generator heap range ∧
    Parts job (Exec.boundUnits job.program.tree (job.program.tree.list range)) m found m₁ ∧
    Bounds.ofParts found = dims
  mode : job.program.modes.get (job.program.generatedMode n) = .row dims.length element

/-- The machine with a new location, its name on the stack. -/
def Machine.withNew (m : Machine) (v : Value) : Machine := { m with
  store := (m.store.allocate v).2
  stack := m.stack.push (.name (m.store.allocate v).1) }

/-- A generator makes a row. Its value is the name of a new location, which holds the row; no other
location is changed. -/
structure Makes (job : Job) (n : NodeId) (m m₁ : Machine) (r : Row Value) : Prop where
  runs : Runs job ([.elaborate n], m) ([], m₁.withNew (.row r))
  holds : (m₁.withNew (.row r)).store.get ⟨m₁.store.cells.size, []⟩ = .ok (.row r)
  others : ∀ name : Name, name.cell < m₁.store.cells.size →
    (m₁.withNew (.row r)).store.get name = m₁.store.get name

/-- A generator raises a fault because its row would be too large. -/
def TooLarge (job : Job) (n : NodeId) (m m₁ : Machine) : Prop :=
  Escapes job ([.elaborate n], m) (.fault (.of (.objectTooLarge job.config.objectLimit))) m₁

theorem Store.get_allocate (s : Store) (v : Value) : (s.allocate v).2.get ⟨s.cells.size, []⟩ = .ok v := by
  simp [Store.get, Store.cell, Store.allocate, Value.read]

theorem Store.get_allocate_of_lt {s : Store} {name : Name} (h : name.cell < s.cells.size) :
    (s.allocate v).2.get name = s.get name := by
  simp [Store.get, Store.cell, Store.allocate, Array.getElem?_push_lt, h, Array.getD_eq_getD_getElem?]

namespace Bounded

/-- With its bounds evaluated, a generator looks what a new location is to hold. -/
theorem concludes (h : Bounded job n element m dims m₁) :
    ∃ t m₂, Runs job ([.elaborate n], m) ([t], m₂) ∧ t.exec job m₂ = (do
      let contents ← Exec.lift (Value.initial job.program.modes job.config.objectLimit
        (job.program.generatedMode n) dims)
      Exec.push job (.name (← Exec.allocate contents))
      return [] : Exec Agenda) m₁ := by
  obtain ⟨heap, range, found, hk, parts, rfl⟩ := h.bounds
  have begins : (Task.elaborate n).exec job m =
      Exec.gather job (.generate (job.program.generatedMode n)) []
        (Exec.boundUnits job.program.tree (job.program.tree.list range)) m := by
    simp only [Task.exec, Exec.elaborate, hk]
    rfl
  exact parts.gathers begins

theorem makes {r : Row Value} (h : Bounded job n element m dims m₁)
    (room : m₁.stack.size < job.config.stackLimit)
    (hi : Value.initial job.program.modes job.config.objectLimit (job.program.generatedMode n) dims =
      .ok (.row r)) : Makes job n m m₁ r := by
  obtain ⟨t, m₂, hr, ht⟩ := h.concludes
  have pushes : t.exec job m₂ = .ok [] (m₁.withNew (.row r)) := by
    rw [ht, hi]
    refine Exec.eq_ok_of_wp ?_
    simp only [Exec.wp_bind, Exec.wp_lift, Exec.wp_allocate, Exec.wp_push, Exec.wp_pure]
    refine ⟨fun v hv => ?_, fun f hf => by cases hf⟩
    cases hv
    exact ⟨fun full => absurd room (Nat.not_lt.mpr full), fun _ => ⟨trivial, rfl⟩⟩
  exact ⟨hr.tail (does_single_iff.mpr pushes), Store.get_allocate _ _, fun _ =>
    Store.get_allocate_of_lt⟩

theorem overflows {v : Value} (h : Bounded job n element m dims m₁)
    (full : job.config.stackLimit ≤ m₁.stack.size)
    (hi : Value.initial job.program.modes job.config.objectLimit (job.program.generatedMode n) dims =
      .ok v) : ∃ m', Escapes job ([.elaborate n], m)
        (.fault (.of (.expressionStackOverflow job.config.stackLimit))) m' := by
  obtain ⟨t, m₂, hr, ht⟩ := h.concludes
  have refuses : t.exec job m₂ = .error (.fault (.of (.expressionStackOverflow job.config.stackLimit)))
      { m₁ with store := (m₁.store.allocate v).2 } := by
    rw [ht, hi]
    refine Exec.eq_error_of_wp ?_
    simp only [Exec.wp_bind, Exec.wp_lift, Exec.wp_allocate, Exec.wp_push]
    refine ⟨fun w hw => ?_, fun f hf => by cases hf⟩
    cases hw
    exact ⟨fun _ => ⟨trivial, rfl⟩, fun room => absurd full room⟩
  exact ⟨_, t, [], m₂, _, _, hr, refuses, rfl⟩

theorem tooLarge (h : Bounded job n element m dims m₁)
    (hi : Value.initial job.program.modes job.config.objectLimit (job.program.generatedMode n) dims =
      fault (.objectTooLarge job.config.objectLimit)) : TooLarge job n m m₁ := by
  obtain ⟨t, m₂, hr, ht⟩ := h.concludes
  rw [hi] at ht
  exact ⟨t, [], m₂, m₁, _, hr, ht, rfl⟩

/-- When a generator fails because of the size of its row: the dimensions in front of the first one
without elements are too large to be counted, or all of them are above the limit. -/
theorem tooLarge_iff (h : Bounded job n element m dims m₁) : TooLarge job n m m₁ ↔
    (leadingVolume dims ≤ maxCount → job.config.objectLimit < volume dims) := by
  refine ⟨fun fails hlead => ?_, fun hlt => h.tooLarge (Value.initial_eq_fault h.mode hlt)⟩
  by_contra hle
  have hi := Value.initial_eq_fresh h.mode hlead (Nat.not_lt.mp hle)
  rcases Nat.lt_or_ge m₁.stack.size job.config.stackLimit with room | full
  · exact fails.not_runs (h.makes room hi).runs
  · obtain ⟨m', overflow⟩ := h.overflows full hi
    cases (fails.unique overflow).1

end Bounded

/-- Generators allocate exactly what their bounds describe, if the dimensions in front of the first one
without elements can be counted in 64 bits, and if no extent is 2^64 where the limit itself is the
greatest count: such a generator fails if and only if the exact number of elements is above the limit,
and makes a row of its bounds and of so many undefined elements otherwise. A generator whose leading
dimensions cannot be counted fails even if it has a dimension without elements. A generator of 2^64
elements under the greatest limit makes a row of one element less. The order of the dimensions plays no
part unless it decides which of them come before one without elements. -/
theorem generators_allocate (hl : job.config.objectLimit ≤ maxCount)
    (h : Bounded job n element m dims m₁) :
    ((exactVolume dims = 0 → leadingVolume dims ≤ maxCount) →
      (job.config.objectLimit < maxCount ∨ ∀ b ∈ dims, b.extent ≤ maxCount) →
      (TooLarge job n m m₁ ↔ job.config.objectLimit < exactVolume dims) ∧
      (exactVolume dims ≤ job.config.objectLimit → m₁.stack.size < job.config.stackLimit →
        Makes job n m m₁ ⟨dims, Array.replicate (exactVolume dims)
          (Value.undefinedOf job.program.modes element)⟩) ∧
      (exactVolume dims ≤ job.config.objectLimit → job.config.stackLimit ≤ m₁.stack.size →
        ∃ m', Escapes job ([.elaborate n], m)
          (.fault (.of (.expressionStackOverflow job.config.stackLimit))) m')) ∧
    (maxCount < leadingVolume dims → TooLarge job n m m₁) ∧
    (job.config.objectLimit = maxCount → volume dims = maxCount →
      m₁.stack.size < job.config.stackLimit → Makes job n m m₁ ⟨dims, Array.replicate maxCount
        (Value.undefinedOf job.program.modes element)⟩) ∧
    (∀ n' element' m' dims' m₁', Bounded job n' element' m' dims' m₁' → dims.Perm dims' →
      (exactVolume dims = 0 → leadingVolume dims ≤ maxCount ∧ leadingVolume dims' ≤ maxCount) →
      (TooLarge job n m m₁ ↔ TooLarge job n' m' m₁')) := by
  refine ⟨fun hlead hclip => ?_, fun hlt => ?_, fun hmax hv room => ?_, ?_⟩
  · have counted : exactVolume dims ≤ job.config.objectLimit →
        leadingVolume dims ≤ maxCount ∧ volume dims = exactVolume dims := by
      intro hle
      have hv := volume_le_exactVolume dims
      refine ⟨?_, ?_⟩
      · by_cases h₀ : exactVolume dims = 0
        · exact hlead h₀
        · rw [leadingVolume_eq (mt volume_eq_zero_iff.mp h₀)]
          omega
      · rcases Nat.lt_or_ge (volume dims) maxCount with hlt | hge
        · exact (exactVolume_eq hlt).symm
        · omega
    have initial (hle : exactVolume dims ≤ job.config.objectLimit) :
        Value.initial job.program.modes job.config.objectLimit (job.program.generatedMode n) dims =
          .ok (.row ⟨dims, Array.replicate (exactVolume dims)
            (Value.undefinedOf job.program.modes element)⟩) := by
      obtain ⟨hcount, hv⟩ := counted hle
      rw [Value.initial_eq_fresh h.mode hcount (hv ▸ hle), Value.fresh, hv]
    refine ⟨⟨fun fails => ?_, fun hlt => h.tooLarge_iff.mpr fun _ => ?_⟩, fun hle room =>
      h.makes room (initial hle), fun hle full => h.overflows full (initial hle)⟩
    · by_contra hle
      obtain ⟨hcount, hv⟩ := counted (Nat.not_lt.mp hle)
      exact hle (hv ▸ h.tooLarge_iff.mp fails hcount)
    · rcases hclip with hsmall | hextent
      · by_contra hle
        rw [exactVolume_eq (by omega)] at hlt
        exact hle hlt
      · rwa [volume_eq_exactVolume hextent]
  · exact h.tooLarge_iff.mpr fun hle => absurd hlt (Nat.not_lt.mpr hle)
  · have hcount : leadingVolume dims ≤ maxCount := by
      rw [leadingVolume_eq (hv ▸ by decide), hv]
    have made := h.makes room (Value.initial_eq_fresh h.mode hcount (by omega))
    rwa [Value.fresh, hv] at made
  · intro n' element' m' dims' m₁' h' perm hlead
    have hv := volume_perm perm
    rw [h.tooLarge_iff, h'.tooLarge_iff, ← hv]
    by_cases h₀ : volume dims = 0
    · obtain ⟨hcount, hcount'⟩ := hlead (volume_eq_zero_iff.mp h₀)
      simp only [hcount, hcount', true_imp_iff]
    · rw [leadingVolume_eq h₀, leadingVolume_eq (hv ▸ h₀), hv]

/-- The generators `LOC [2 : 3, -1 : 1] INT` and `LOC [-1 : 1, -1 : 1] INT`, under a limit of six
elements. -/
def plot : Job where
  program := {
    tree := {
      nodes := #[⟨.literal (.int 2), .int, .dummy⟩, ⟨.literal (.int 3), .int, .dummy⟩,
        ⟨.literal (.int (-1)), .int, .dummy⟩, ⟨.literal (.int 1), .int, .dummy⟩,
        ⟨.bound (some ⟨0⟩) (some ⟨1⟩), .void, .dummy⟩, ⟨.bound (some ⟨2⟩) (some ⟨3⟩), .void, .dummy⟩,
        ⟨.generator false ⟨0, 2⟩, ⟨8⟩, .dummy⟩, ⟨.generator false ⟨1, 2⟩, ⟨8⟩, .dummy⟩]
      lists := #[⟨4⟩, ⟨5⟩, ⟨5⟩]
      modeLists := #[]
      loops := #[]
      alternatives := #[] }
    modes := ⟨(Mode.primitives.push (.row 2 .int)).push (.ref ⟨7⟩)⟩
    scopes := ⟨#[.standard]⟩
    labels := ⟨#[]⟩
    interner := .new
    root := ⟨6⟩
    environs := #[] }
  oracle := ModeTable.oracle .new
  config := { Config.default with objectLimit := 6 }

/-- Six elements are made, nine are too many. -/
theorem plot_allocates :
    (∃ m₁, Makes plot ⟨6⟩ (.new plot false) m₁
      ⟨[⟨2, 3⟩, ⟨-1, 1⟩], Array.replicate 6 (.undefined .int)⟩) ∧
    ∃ m₁, TooLarge plot ⟨7⟩ (.new plot false) m₁ := by
  have limit : plot.config.objectLimit ≤ maxCount := by decide
  obtain ⟨m₁, six, room⟩ : ∃ m₁, Bounded plot ⟨6⟩ .int (.new plot false) [⟨2, 3⟩, ⟨-1, 1⟩] m₁ ∧
      m₁.stack.size < plot.config.stackLimit :=
    ⟨_, ⟨⟨_, _, [some 2, some 3, some (-1), some 1], rfl,
      .cons (.present (@runs_of_completed plot 9 _ _ _ rfl) rfl)
      (.cons (.present (@runs_of_completed plot 9 _ _ _ rfl) rfl)
      (.cons (.present (@runs_of_completed plot 9 _ _ _ rfl) rfl)
      (.cons (.present (@runs_of_completed plot 9 _ _ _ rfl) rfl) (.nil _)))), rfl⟩, rfl⟩, by decide⟩
  obtain ⟨m₂, nine⟩ : ∃ m₂, Bounded plot ⟨7⟩ .int (.new plot false) [⟨-1, 1⟩, ⟨-1, 1⟩] m₂ :=
    ⟨_, ⟨_, _, [some (-1), some 1, some (-1), some 1], rfl,
      .cons (.present (@runs_of_completed plot 9 _ _ _ rfl) rfl)
      (.cons (.present (@runs_of_completed plot 9 _ _ _ rfl) rfl)
      (.cons (.present (@runs_of_completed plot 9 _ _ _ rfl) rfl)
      (.cons (.present (@runs_of_completed plot 9 _ _ _ rfl) rfl) (.nil _)))), rfl⟩, rfl⟩
  have made := ((generators_allocate limit six).1 (fun _ => by decide) (.inl (by decide))).2.1
    (by decide) room
  exact ⟨⟨m₁, made⟩, m₂,
    ((generators_allocate limit nine).1 (fun _ => by decide) (.inl (by decide))).1.mpr (by decide)⟩

/-- The generator `LOC [1 : 4294967296, 1 : 4294967296, 1 : 0] INT`. -/
def vacancy : Job where
  program := {
    tree := {
      nodes := #[⟨.literal (.int 1), .int, .dummy⟩, ⟨.literal (.int 4294967296), .int, .dummy⟩,
        ⟨.literal (.int 0), .int, .dummy⟩, ⟨.bound (some ⟨0⟩) (some ⟨1⟩), .void, .dummy⟩,
        ⟨.bound (some ⟨0⟩) (some ⟨2⟩), .void, .dummy⟩, ⟨.generator false ⟨0, 3⟩, ⟨8⟩, .dummy⟩]
      lists := #[⟨3⟩, ⟨3⟩, ⟨4⟩]
      modeLists := #[]
      loops := #[]
      alternatives := #[] }
    modes := ⟨(Mode.primitives.push (.row 3 .int)).push (.ref ⟨7⟩)⟩
    scopes := ⟨#[.standard]⟩
    labels := ⟨#[]⟩
    interner := .new
    root := ⟨5⟩
    environs := #[] }
  oracle := ModeTable.oracle .new
  config := .default

/-- The run of `vacancy` fails, although its row has no elements. With the dimension without elements in
front the row is made. -/
theorem vacancy_refused :
    exactVolume [⟨1, 4294967296⟩, ⟨1, 4294967296⟩, ⟨1, 0⟩] = 0 ∧
    (∃ f m, drive vacancy 100 [.unit vacancy.program.root] (.new vacancy false) =
      .escaped (.fault f) m ∧ f.cause = .objectTooLarge vacancy.config.objectLimit) ∧
    Value.initial vacancy.program.modes vacancy.config.objectLimit ⟨7⟩
      [⟨1, 0⟩, ⟨1, 4294967296⟩, ⟨1, 4294967296⟩] =
      .ok (.row ⟨[⟨1, 0⟩, ⟨1, 4294967296⟩, ⟨1, 4294967296⟩], #[]⟩) :=
  ⟨rfl, ⟨_, _, rfl, rfl⟩, rfl⟩

end Algol68
