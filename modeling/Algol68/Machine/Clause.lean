import Algol68.Machine.Task
/-!
Serial clauses, and the clauses that choose one of several units: conditional, case and conformity
clauses.
-/

namespace Algol68

namespace Exec

/-- The chain of a serial clause without labels, made on the first visit. -/
def linearChain (job : Job) (serial : NodeId) (items : List NodeId) : Exec (List ChainStep) := do
  match (← get).annotations.chain serial with
  | some chain =>
    count fun c => { c with replays := c.replays + 1 }
    return chain
  | none =>
    annotate fun a => (a.beginLinearizing serial).2
    count fun c => { c with linearizations := c.linearizations + 1 }
    let chain := job.program.tree.flatten items
    annotate fun a => (a.finishLinearizing serial chain { Flags.none with labelFree := true }).2
    return chain

/-- The alternatives of a case clause in order, found on the first visit. -/
def alternatives (job : Job) (node : NodeId) (items : List NodeId) : Exec (List NodeId) := do
  match (← get).annotations.chain node with
  | some chain => return ChainStep.units chain
  | none =>
    annotate fun a => (a.beginLinearizing node).2
    let units := ChainStep.units (job.program.tree.flatten items)
    annotate fun a => (a.finishLinearizing node (units.map .unit) .none).2
    return units

/-- Leave word on the innermost frame that a labelled clause runs in it. -/
def announce (serial : NodeId) (items : List NodeId) (baseline : Nat) : Exec LabelledClause := do
  let frames := (← get).frames
  let index ← lift frames.top
  let handle ← lift (frames.handle index)
  modify fun m => { m with
    frames := m.frames.modify index fun frame =>
      { frame with resumption := some ⟨serial, baseline⟩ } }
  return ⟨serial, items, index, handle.serial, baseline⟩

/-- Take that word back. -/
def retract (c : LabelledClause) : Exec Unit :=
  modify fun m => { m with
    frames := m.frames.modify c.frame fun frame => { frame with resumption := none } }

/-- Start a serial clause, or an enquiry clause.  A serial clause of mode `VOID` drops what its
last unit left. -/
def clause (job : Job) (node : NodeId) (enquiry : Bool) : Exec Agenda := do
  let tree := job.program.tree
  match tree.kind node with
  | .serialClause scope range =>
    let baseline ← depth
    let items := tree.list range
    let ending : Agenda := if !enquiry && tree.mode node = .void then [.cut baseline] else []
    if (job.program.scopes.get scope).hasLabels then
      let c ← announce node items baseline
      return (tree.walk none items).steps.map (·.task baseline) ++ .labelled c :: ending
    else
      return (← linearChain job node items).map (·.task baseline) ++ ending
  | _ => return [.unit node]

/-- The chosen unit, or the undefined value of the clause's mode. -/
def orUndefined (job : Job) (mode : ModeId) : Option NodeId → Exec Agenda
  | some unit => return [.unit unit]
  | none => do
    pushUndefined job mode
    return []

/-- The alternative of the given number, counted from one. -/
def nth (alternatives : List NodeId) (number : Int64) : Option NodeId :=
  if 1 ≤ number.toInt then alternatives[(number.toInt - 1).toNat]? else none

/-- The first alternative with a specifier that accepts the variant, and that specifier. -/
def accepting (job : Job) (variant : ModeId) :
    List NodeId → Checked (Option (Alternative × ModeId))
  | [] => .ok none
  | node :: rest =>
    match job.program.tree.kind node with
    | .conformityAlternative id =>
      let a := job.program.tree.alternative id
      match (job.program.tree.modeList a.specifiers).find? (job.oracle.accepts · variant) with
      | some specifier => .ok (some (a, specifier))
      | none => accepting job variant rest
    | kind => fault (.unknownNodeKind kind.name)

/-- Choose an alternative by the variant of a united value.  Under a specifier that is itself a
union the value stays united. -/
def conform (job : Job) (alternatives : List NodeId) (outPart : Option NodeId) (mode : ModeId) :
    Exec Agenda := do
  match ← pop with
  | .union variant payload =>
    match ← lift (accepting job variant alternatives) with
    | some (a, specifier) =>
      let bound :=
        if (job.oracle.variants specifier).isSome then .union variant payload else payload
      let before ← enter job a.scope
      return (a.binding.toList.map (Task.store · bound)) ++ [.unit a.unit, .leave before]
    | none =>
      if outPart.isNone && job.config.conformity = .strict && mode ≠ .void then
        fail .unmatchedConformity
      orUndefined job mode outPart
  | .undefined m => fail (.undefinedValue (job.program.modes.describe m))
  | v => lift (Value.mismatch "UNION" v)

end Exec

end Algol68
