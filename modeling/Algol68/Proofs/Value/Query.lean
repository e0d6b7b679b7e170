import Algol68.Proofs.Machine.Outcome
import Algol68.Proofs.Run.Step
import Algol68.Proofs.Value.Text

/-! Queries for bounds. The monadic `UPB` and `LWB` answer for the first dimension of a row or string
what the dyadic ones answer, and they find it through names. The dyadic ones look through no name: on
one they fail, whatever it refers to. -/

namespace Algol68

namespace Value

/-- The bounds of a row, or of a string, which counts from one. -/
def bounds? : Value → Option (List Bounds)
  | .row r => some r.dims
  | .string text => some [.upTo text.length]
  | _ => none

/-- What is reached from a value through names: it itself, or what the value of the name leads to. -/
inductive LeadsTo (s : Store) : Value → Value → Prop where
  | refl (v : Value) : LeadsTo s v v
  | name {n : Name} {w v : Value} (h : s.get n = .ok w) (rest : LeadsTo s w v) :
      LeadsTo s (.name n) v

theorem exists_asRow {v : Value} {dims : List Bounds} (h : v.bounds? = some dims) :
    ∃ r, v.asRow = .ok r ∧ r.dims = dims := by
  cases v with
  | row r => exact ⟨r, rfl, Option.some.inj h⟩
  | string text => exact ⟨characters text, rfl, (dims_characters text).trans (Option.some.inj h)⟩
  | _ => cases h

end Value

open StandardOperator (dyadic monadic)

variable {job : Job} {m : Machine} {op : StandardOperator} {S : Array Value} {v w x : Value}
  {dims : List Bounds} {limit : Nat} {f : Fault}

namespace StandardOperator

theorem dyadic_query (hop : op = .upb ∨ op = .lwb) (hw : w.bounds? = some dims) (d : Int64) :
    dyadic op limit (.int d) w = op.onRow d w := by
  rcases hop with rfl | rfl <;>
  · cases w with
    | row | string => rfl
    | _ => cases hw

theorem monadic_query (hop : op = .upb ∨ op = .lwb) (w : Value) : monadic op w = op.onRow 1 w := by
  rcases hop with rfl | rfl <;> cases w <;> rfl

theorem dyadic_query_name (hop : op = .upb ∨ op = .lwb) (d : Int64) (n : Name) :
    dyadic op limit (.int d) (.name n) = fault (.valueMismatch "row" .name) := by
  rcases hop with rfl | rfl <;> rfl

end StandardOperator

namespace Exec

/-- A monadic query of a name goes on with what the name refers to. -/
theorem monadic_name (hop : op = .upb ∨ op = .lwb) {n : Name} (hm : m.stack = S.push (.name n))
    (room : S.size < job.config.stackLimit) (hn : m.store.get n = .ok w) :
    Exec.monadic job op m = .ok [.monadic op] { m with stack := S.push w } := by
  apply eq_ok_of_wp
  rcases hop with rfl | rfl <;>
  · simp only [Exec.monadic, wp_bind, wp_pop, hm]
    refine ⟨fun T u hT => ?_, fun empty => absurd empty (by simp)⟩
    obtain ⟨rfl, rfl⟩ := Array.push_eq_push.mp hT
    simp [hn, Nat.not_le.mpr room]

theorem monadic_answers (hw : w.bounds? = some dims) (hm : m.stack = S.push w)
    (room : S.size < job.config.stackLimit) (hx : op.monadic w = .ok x) :
    Exec.monadic job op m = .ok [] { m with stack := S.push x } := by
  apply eq_ok_of_wp
  simp only [Exec.monadic, wp_bind, wp_pop, hm]
  refine ⟨fun T u hT => ?_, fun empty => absurd empty (by simp)⟩
  obtain ⟨rfl, rfl⟩ := Array.push_eq_push.mp hT
  cases w with
  | row | string => simp [hx, Nat.not_le.mpr room]
  | _ => cases hw

theorem monadic_fails (hw : w.bounds? = some dims) (hm : m.stack = S.push w)
    (hf : op.monadic w = .error f) :
    Exec.monadic job op m = .error (.fault f) { m with stack := S } := by
  apply eq_error_of_wp
  simp only [Exec.monadic, wp_bind, wp_pop, hm]
  refine ⟨fun T u hT => ?_, fun empty => absurd empty (by simp)⟩
  obtain ⟨rfl, rfl⟩ := Array.push_eq_push.mp hT
  cases w with
  | row | string => simp [hf]
  | _ => cases hw

end Exec

/-- On its way through names a monadic query leaves everything but the operand as it is. -/
theorem query_leads (hop : op = .upb ∨ op = .lwb) (hv : v.LeadsTo m.store w)
    (room : S.size < job.config.stackLimit) :
    Runs job ([.monadic op], { m with stack := S.push v })
      ([.monadic op], { m with stack := S.push w }) := by
  induction hv with
  | refl => exact .refl
  | name hn _ ih => exact .head (.done (Exec.monadic_name hop rfl room hn)) ih

/-- Queries for bounds. The dyadic ones answer for each dimension that a row has, or the only one of a
string, and fault for any other number. The monadic ones do for a row or string what the dyadic ones do
for its first dimension, also if it is reached through names. No dyadic query has an answer for a
name. -/
theorem bounds_queried {limit : Nat} {w : Value} {dims : List Bounds} (hw : w.bounds? = some dims) :
    (∀ (d : Int64) b, 1 ≤ d.toInt → dims[(d.toInt - 1).toNat]? = some b →
      dyadic .upb limit (.int d) w = .ok (.int b.upper) ∧
      dyadic .lwb limit (.int d) w = .ok (.int b.lower)) ∧
    ∀ op, op = .upb ∨ op = .lwb →
      (∀ d : Int64, ¬ (1 ≤ d.toInt ∧ d.toInt ≤ dims.length) →
        dyadic op limit (.int d) w = fault (.indexOutOfBounds d 1 (saturate dims.length))) ∧
      monadic op w = dyadic op limit (.int 1) w ∧
      (∀ (job : Job) (m : Machine) (S : Array Value) (v : Value), v.LeadsTo m.store w →
        m.stack = S.push v → S.size < job.config.stackLimit →
        (∀ x, dyadic op limit (.int 1) w = .ok x →
          Runs job ([.monadic op], m) ([], { m with stack := S.push x })) ∧
        (∀ f, dyadic op limit (.int 1) w = .error f →
          Escapes job ([.monadic op], m) (.fault f) { m with stack := S })) ∧
      ∀ d n, dyadic op limit (.int d) (.name n) = fault (.valueMismatch "row" .name) := by
  obtain ⟨r, hr, rfl⟩ := Value.exists_asRow hw
  constructor
  · intro d b hd hb
    rw [StandardOperator.dyadic_query (.inl rfl) hw, StandardOperator.dyadic_query (.inr rfl) hw]
    exact ⟨StandardOperator.onRow_bounds hr (by decide) hd hb,
      StandardOperator.onRow_bounds hr (by decide) hd hb⟩
  · intro op hop
    have query : op ≠ .elem := by
      rintro rfl
      simp at hop
    have same : monadic op w = dyadic op limit (.int 1) w := by
      rw [StandardOperator.monadic_query hop, StandardOperator.dyadic_query hop hw]
    refine ⟨fun d hd => ?_, same, fun job m S v hv hm room => ?_,
      fun d n => StandardOperator.dyadic_query_name hop d n⟩
    · rw [StandardOperator.dyadic_query hop hw]
      exact StandardOperator.onRow_outside hr query hd
    · have way : Runs job ([.monadic op], m) ([.monadic op], { m with stack := S.push w }) := by
        have way := query_leads hop hv room
        rwa [← hm] at way
      rw [← same]
      refine ⟨fun x hx => ?_, fun f hf => ?_⟩
      · have answered : (Task.monadic op).exec job { m with stack := S.push w } =
            .ok [] { m with stack := S.push x } := Exec.monadic_answers hw rfl room hx
        exact way.tail (.done answered)
      · exact ⟨_, [], _, _, _, way, Exec.monadic_fails hw rfl hf, rfl⟩

/-- The formulas `1 UPB HEAP [1 : 2] INT` and `UPB HEAP [1 : 2] INT`. -/
def yard : Job where
  program := {
    tree := {
      nodes := #[⟨.literal (.int 1), .int, .dummy⟩, ⟨.literal (.int 2), .int, .dummy⟩,
        ⟨.bound (some ⟨0⟩) (some ⟨1⟩), .void, .dummy⟩, ⟨.generator true ⟨0, 1⟩, ⟨8⟩, .dummy⟩,
        ⟨.formula (.standard .upb) ⟨0⟩ ⟨3⟩, .int, .dummy⟩,
        ⟨.monadic (.standard .upb) ⟨3⟩, .int, .dummy⟩]
      lists := #[⟨2⟩]
      modeLists := #[]
      loops := #[]
      alternatives := #[] }
    modes := ⟨(Mode.primitives.push (.row 1 .int)).push (.ref ⟨7⟩)⟩
    scopes := ⟨#[.standard]⟩
    labels := ⟨#[]⟩
    interner := .new
    root := ⟨4⟩
    environs := #[] }
  oracle := ModeTable.oracle .new
  config := .default

/-- A machine with a pair of numbers in its store, and the name of that on its stack. -/
def yard.named : Machine :=
  { (Machine.new yard false) with
    store := ⟨#[.row ⟨[⟨1, 2⟩], #[.int 7, .int 8]⟩]⟩
    stack := #[.name ⟨0, []⟩] }

theorem bounds_queried_of_pair :
    (Value.row ⟨[⟨1, 2⟩], #[.int 7, .int 8]⟩).bounds? = some [⟨1, 2⟩] ∧
    dyadic .upb 9 (.int 1) (.row ⟨[⟨1, 2⟩], #[.int 7, .int 8]⟩) = .ok (.int 2) ∧
    dyadic .lwb 9 (.int 2) (.row ⟨[⟨1, 2⟩], #[.int 7, .int 8]⟩) = fault (.indexOutOfBounds 2 1 1) ∧
    Runs yard ([.monadic .upb], yard.named) ([], { yard.named with stack := #[.int 2] }) := by
  have pair : (Value.row ⟨[⟨1, 2⟩], #[.int 7, .int 8]⟩).bounds? = some [⟨1, 2⟩] := rfl
  obtain ⟨inside, queries⟩ := @bounds_queried 9 _ _ pair
  have upb := (inside 1 ⟨1, 2⟩ (by decide) rfl).1
  refine ⟨pair, upb, (queries .lwb (.inr rfl)).1 2 (by decide), ?_⟩
  exact ((queries .upb (.inl rfl)).2.2.1 yard yard.named #[] (.name ⟨0, []⟩) (.name rfl (.refl _)) rfl
    (by decide)).1 _ upb

/-- Of the name of a row the monadic query gives the upper bound, which the dyadic one fails to. -/
theorem upb_through_name :
    (∃ m, drive yard 100 [.unit ⟨5⟩] (.new yard false) = .completed m ∧ m.stack = #[.int 2]) ∧
    ∃ f m, drive yard 100 [.unit yard.program.root] (.new yard false) = .escaped (.fault f) m ∧
      f.cause = .valueMismatch "row" .name :=
  ⟨⟨_, rfl, rfl⟩, _, _, rfl, rfl⟩

end Algol68
