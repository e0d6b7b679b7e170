import Algol68.Machine.Session
import Algol68.Program.Builder
import Algol68.Proofs.Annotation.WriteOnce
import Algol68.Proofs.Clause.Conformity
import Algol68.Proofs.Clause.Replay
import Algol68.Proofs.Collateral.Parallel
import Algol68.Proofs.Frames.Lifo
import Algol68.Proofs.Label.Claiming
import Algol68.Proofs.Label.Resumption
import Algol68.Proofs.Loop.Count
import Algol68.Proofs.Memo.Invisible
import Algol68.Proofs.Print.Session
import Algol68.Proofs.Row.Generator
import Algol68.Proofs.Row.RowMajor
import Algol68.Proofs.Row.Stacking
import Algol68.Proofs.Row.Transpose
import Algol68.Proofs.Row.Trim
import Algol68.Proofs.Run.Action
import Algol68.Proofs.Run.Location
import Algol68.Proofs.Scope.Exact
import Algol68.Proofs.Source.Position
import Algol68.Proofs.Stack.Balance
import Algol68.Proofs.Table.Modes
import Algol68.Proofs.Table.Texts
import Algol68.Proofs.Value.Addressing
import Algol68.Proofs.Value.Arithmetic
import Algol68.Proofs.Value.Interference
import Algol68.Proofs.Value.Query
import Algol68.Proofs.Value.Selection
import Algol68.Proofs.Value.Slice
import Algol68.Proofs.Value.Undefined
