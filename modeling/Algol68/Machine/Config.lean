/-!
How a program is run: what becomes of faults, the limits of the machine, and what is counted.
-/

namespace Algol68

inductive EvalMode where
  /-- A fault ends the run. -/
  | run
  /-- A fault hands control to the monitor, from which the run can go on. -/
  | monitor
  deriving DecidableEq, Inhabited

def EvalMode.name : EvalMode → String
  | .run => "Run"
  | .monitor => "Monitor"

/-- What a conformity clause without an `OUT` part yields when no alternative accepts. -/
inductive ConformityPolicy where
  /-- The undefined value of its mode. -/
  | lenient
  /-- A fault. -/
  | strict
  deriving DecidableEq, Inhabited

structure Config where
  mode : EvalMode
  /-- The most values the expression stack holds. -/
  stackLimit : Nat
  /-- The most frames that are active at once, if there is a limit. -/
  frameLimit : Option Nat
  /-- The most elements of a row, or characters of a string, made during a run. -/
  objectLimit : Nat
  conformity : ConformityPolicy
  /-- Whether evaluation is counted. -/
  profile : Bool
  deriving DecidableEq, Inhabited

def Config.default : Config where
  mode := .run
  stackLimit := 0x100000
  frameLimit := some 100000
  objectLimit := 0x4000000
  conformity := .lenient
  profile := false

/-- How often things happened during evaluation. -/
structure Counters where
  units : Nat
  linearizations : Nat
  replays : Nat
  jumps : Nat
  calls : Nat
  deriving DecidableEq, Inhabited

namespace Counters

def zero : Counters := ⟨0, 0, 0, 0, 0⟩

def report (c : Counters) : String :=
  "\n  ".intercalate ["Genie profile:",
    s!"Units evaluated: {c.units}",
    s!"Linearizations:  {c.linearizations}",
    s!"Chain replays:   {c.replays}",
    s!"Jumps:           {c.jumps}",
    s!"Routine calls:   {c.calls}"]

end Counters

end Algol68
