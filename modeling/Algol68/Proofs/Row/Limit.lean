import Algol68.Proofs.Row.WellFormed

/-! The size of rows and strings. Generators and the operators on strings observe the limit of the
configuration, and no other operation makes an object larger than those it is made of, except for displays:
they are made whatever their size. -/

namespace Algol68

open Checked (Gives)

variable {job : Job} {units : NodeId → Prop} {A : Agenda} {m : Machine} {v w : Value} {n limit : Nat}
  {modes : ModeTable}

theorem Value.Fits.atMost (h : v.Fits n) : ∀ p ∈ v.parts, p.AtMost n := fun p hp => (h p hp).atMost

/-- A computation that makes a string of a given size, and fails if that is more than the limit. -/
structure Limited (limit size : Nat) (c : Checked Value) : Prop where
  made : size ≤ limit → ∃ text : String, c = .ok (.string text) ∧ text.length = size
  refused : limit < size → c = fault (.objectTooLarge limit)

namespace StandardOperator

theorem sized_limited (text : List Char) : Limited limit text.length (sized limit text) := by
  refine ⟨fun h => ⟨String.ofList text, if_pos h, String.length_ofList⟩, fun h => ?_⟩
  exact if_neg (Nat.not_le.mpr h)

theorem replicate_limited (text : List Char) (k : Int64) :
    Limited limit (text.length * k.toInt.toNat) (replicate limit text k) := by
  refine ⟨fun h => ⟨_, if_pos h, ?_⟩, fun h => if_neg (Nat.not_le.mpr h)⟩
  rw [String.length_ofList]
  split
  · next hempty =>
    rw [List.isEmpty_iff.mp hempty]
    simp
  · simp [Nat.mul_comm]

theorem join_limited {op : StandardOperator} (hop : op = .add ∨ op = .concat) {s t : List Char}
    (hv : v.text? = some s) (hw : w.text? = some t) :
    Limited limit (s.length + t.length) (op.dyadic limit v w) := by
  have texts : op.onTexts limit v s t = sized limit (s ++ t) := by
    rcases hop with rfl | rfl <;> rfl
  have joined : op.dyadic limit v w = op.onTexts limit v s t := by
    cases v with
    | string | char =>
      cases w with
      | string | char =>
        cases hv
        cases hw
        rfl
      | _ => cases hw
    | _ => cases hv
  rw [joined, texts, ← List.length_append]
  exact sized_limited _

theorem repeat_limited {s : List Char} (hv : v.text? = some s) (k : Int64) :
    Limited limit (s.length * k.toInt.toNat) (StandardOperator.mul.dyadic limit v (.int k)) ∧
      Limited limit (s.length * k.toInt.toNat) (StandardOperator.mul.dyadic limit (.int k) v) := by
  cases v with
  | string | char =>
    cases hv
    exact ⟨replicate_limited _ k, replicate_limited _ k⟩
  | _ => cases hv

end StandardOperator

/-- A generator of a row that would have more elements than the limit fails. -/
theorem Value.initial_refused {mode element : ModeId} {dims : List Bounds}
    (hm : modes.get mode = .row dims.length element) (hc : limit < maxCount)
    (hn : limit < (dims.map Bounds.extent).prod) :
    Value.initial modes limit mode dims = fault (.objectTooLarge limit) := by
  have none : (volume? dims).filter (· ≤ limit) = none := by
    rw [Option.filter_eq_none_iff]
    intro count hcount hle
    obtain rfl := volume?_eq hcount
    have hle : volume dims ≤ limit := by simpa using hle
    have hexact : (dims.map Bounds.extent).prod = volume dims := exactVolume_eq (by omega)
    omega
  simp only [initial, hm, none, if_true]

/-- What the next task makes is not too large if the denotations and the displays of the program are not. -/
theorem StateFits.supplies_of_atMost {D : ModeId → Prop} (h : StateFits n D A m)
    (hlit : ∀ node tag, job.program.tree.kind node = .literal (.string tag) →
      (job.program.interner.lookup tag).length ≤ n)
    (hdisplay : ∀ mode baseline rest v, A = .aggregate mode baseline :: rest → D mode → mode ≠ .void →
      Value.display job.program.modes mode (m.stack.toList.drop baseline) = .ok v → v.AtMost n) :
    Supplies n job A m := by
  refine ⟨fun node rest l _ hk => ?_, ?_⟩
  · cases l with
    | string tag => exact Value.fits_string.mpr (Nat.cast_le.mpr (hlit node tag hk))
    | _ => exact Value.fits_of_parts rfl trivial
  · rintro mode baseline rest rfl hmode v hv
    have display := (h.tasks _ (List.mem_cons_self ..)).display mode baseline rfl
    refine Value.display_gives mode (fun w hw => ?_) v hv (hdisplay mode baseline rest v rfl display hmode hv)
    exact h.machine.stack w (Array.mem_def.mpr (List.mem_of_mem_drop hw))

/-- Generators make no object that is larger than the limit, and joining and repeating strings make none
either: they fail instead. In a session no object is larger than the limit, than a single element, than
the string denotations of the program, and than the displays that are made in the session. -/
theorem objects_limited (job : Job) (units : NodeId → Prop) :
    (∀ n : Nat, 1 ≤ n → job.config.objectLimit ≤ n →
      (∀ node tag, job.program.tree.kind node = .literal (.string tag) →
        (job.program.interner.lookup tag).length ≤ n) →
      (∀ node list baseline rest m v, job.program.tree.kind node = .collateral list →
        job.program.tree.mode node ≠ .void →
        Underway job units (.aggregate (job.program.tree.mode node) baseline :: rest) m →
        Value.display job.program.modes (job.program.tree.mode node) (m.stack.toList.drop baseline) =
          .ok v → v.AtMost n) →
      ∀ A m, Underway job units A m → ∀ v, Present A m v → ∀ p ∈ v.parts, p.AtMost n) ∧
    (∀ limit mode dims v, Value.initial job.program.modes limit mode dims = .ok v →
      ∀ p ∈ v.parts, p.AtMost limit) ∧
    (∀ limit mode element dims, job.program.modes.get mode = .row (List.length dims) element →
      limit < maxCount → limit < (dims.map Bounds.extent).prod →
      Value.initial job.program.modes limit mode dims = fault (.objectTooLarge limit)) ∧
    (∀ op limit v w s t, op = .add ∨ op = .concat → Value.text? v = some s → Value.text? w = some t →
      Limited limit (s.length + t.length) (StandardOperator.dyadic op limit v w)) ∧
    (∀ limit v s k, Value.text? v = some s →
      Limited limit (s.length * k.toInt.toNat) (StandardOperator.mul.dyadic limit v (.int k)) ∧
      Limited limit (s.length * k.toInt.toNat) (StandardOperator.mul.dyadic limit (.int k) v)) := by
  refine ⟨fun n h₁ hl hlit hdisplay A m h v hv => ?_, ?_, ?_, ?_, ?_⟩
  · let D (mode : ModeId) : Prop :=
      ∃ node list, job.program.tree.kind node = .collateral list ∧ job.program.tree.mode node = mode
    have fits : StateFits n D A m := by
      refine h.fits (by exact_mod_cast h₁) (Nat.cast_le.mpr hl) (fun node list hk => ⟨node, list, hk, rfl⟩) ?_
      intro A m hu hfits
      refine hfits.supplies_of_atMost hlit ?_
      rintro mode baseline rest v rfl ⟨node, list, hk, rfl⟩ hmode hv
      exact hdisplay node list baseline rest m v hk hmode hu hv
    exact (hv.fits fits).atMost
  · exact fun limit mode dims v hv => (Value.initial_gives le_rfl mode dims v hv).atMost
  · exact fun limit mode element dims hm hc hn => Value.initial_refused hm hc hn
  · exact fun op limit v w s t hop hv hw => StandardOperator.join_limited hop hv hw
  · exact fun limit v s k hv => StandardOperator.repeat_limited hv k

/-- The display `("ab" * 3, "ab")` of mode `STRUCT (STRING, STRING)`, under a limit of six characters. -/
def couple : Job where
  program := {
    tree := {
      nodes := #[⟨.literal (.string ⟨1⟩), .string, .dummy⟩, ⟨.literal (.int 3), .int, .dummy⟩,
        ⟨.formula (.standard .mul) ⟨0⟩ ⟨1⟩, .string, .dummy⟩, ⟨.collateral ⟨0, 2⟩, ⟨7⟩, .dummy⟩]
      lists := #[⟨2⟩, ⟨0⟩]
      modeLists := #[]
      loops := #[]
      alternatives := #[] }
    modes := ⟨(Mode.primitives.push (.struct [⟨⟨0⟩, .string⟩, ⟨⟨0⟩, .string⟩])).push (.row 1 .int)⟩
    scopes := ⟨#[.standard]⟩
    labels := ⟨#[]⟩
    interner := ⟨#["", "ab"]⟩
    root := ⟨3⟩
    environs := #[] }
  oracle := ModeTable.oracle .new
  config := { Config.default with objectLimit := 6 }

/-- No string in the structure that `couple` leaves on the stack has more than six characters; a string of
seven characters and a row of seven elements are refused. -/
theorem couple_limited :
    (∃ m, Underway couple (fun _ => False) [] m ∧
      m.stack = #[.struct #[.string "ababab", .string "ab"]] ∧
      ∀ p ∈ (Value.struct #[.string "ababab", .string "ab"]).parts, p.AtMost (6 : Nat)) ∧
    Value.initial couple.program.modes 6 ⟨8⟩ [⟨1, 7⟩] = fault (.objectTooLarge 6) ∧
    StandardOperator.dyadic .add 6 (.string "ababab") (.char 'a') = fault (.objectTooLarge 6) ∧
    StandardOperator.dyadic .mul 6 (.string "ab") (.int 4) = fault (.objectTooLarge 6) := by
  obtain ⟨bounded, -, refused, joined, repeated⟩ := objects_limited couple fun _ => False
  have literal (node : NodeId) (tag : Tag)
      (hk : couple.program.tree.kind node = .literal (.string tag)) : tag = ⟨1⟩ := by
    obtain ⟨k⟩ := node
    match k, hk with
    | 0, hk => exact (Literal.string.inj (NodeKind.literal.inj hk)).symm
    | 1, hk | 2, hk | 3, hk | k + 4, hk => cases hk
  have collateral (node : NodeId) (list : NodeRange)
      (hk : couple.program.tree.kind node = .collateral list) : node = ⟨3⟩ := by
    obtain ⟨k⟩ := node
    match k, hk with
    | 3, _ => rfl
    | 0, hk | 1, hk | 2, hk | k + 4, hk => cases hk
  refine ⟨?_, ?_, ?_, ?_⟩
  · obtain ⟨m, hd, hs⟩ : ∃ m, drive couple 100 [.unit couple.program.root]
        (Session.new couple none false).machine = .completed m ∧
          m.stack = #[.struct #[.string "ababab", .string "ab"]] := ⟨_, rfl, rfl⟩
    have hu : Underway couple (fun _ => False) [] m :=
      .runs (.run (.new none false)) (runs_of_completed hd)
    refine ⟨m, hu, hs, bounded 6 (by decide) (by decide) ?_ ?_ [] m hu _ (.stack (by simp [hs]))⟩
    · rintro node tag hk
      obtain rfl := literal node tag hk
      decide
    · -- the display is a structure, whatever its fields are
      rintro node list baseline rest m v hk - - hv
      obtain rfl := collateral node list hk
      obtain rfl := Except.ok.inj hv
      trivial
  · exact refused 6 ⟨8⟩ .int [⟨1, 7⟩] rfl (by decide) (by decide)
  · exact (joined .add 6 (.string "ababab") (.char 'a') _ _ (.inl rfl) rfl rfl).refused (by decide)
  · exact (repeated 6 (.string "ab") _ 4 rfl).1.refused (by decide)

/-- The display `(1, 2, 3)` of mode `[] INT`, under a limit of two elements. -/
def triple : Job where
  program := {
    tree := {
      nodes := #[⟨.literal (.int 1), .int, .dummy⟩, ⟨.literal (.int 2), .int, .dummy⟩,
        ⟨.literal (.int 3), .int, .dummy⟩, ⟨.collateral ⟨0, 3⟩, ⟨7⟩, .dummy⟩]
      lists := #[⟨0⟩, ⟨1⟩, ⟨2⟩]
      modeLists := #[]
      loops := #[]
      alternatives := #[] }
    modes := ⟨Mode.primitives.push (.row 1 .int)⟩
    scopes := ⟨#[.standard]⟩
    labels := ⟨#[]⟩
    interner := .new
    root := ⟨3⟩
    environs := #[] }
  oracle := ModeTable.oracle .new
  config := { Config.default with objectLimit := 2 }

/-- The run of `triple` completes with a row of more elements than the limit. -/
theorem triple_exceeds_limit : ∃ m r, drive triple 100 [.unit triple.program.root]
    (Session.new triple none false).machine = .completed m ∧ m.stack = #[.row r] ∧
      triple.config.objectLimit < r.size :=
  ⟨_, ⟨[⟨1, 3⟩], #[.int 1, .int 2, .int 3]⟩, rfl, rfl, by decide⟩

end Algol68
