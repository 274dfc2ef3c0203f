import SsaCompiler.Ascending
import SsaCompiler.Numbering

/-!
# Lines and liveness

The items of a schedule become **lines**, a program over virtual registers.
A line says what is done, which registers are read and which are set, and
where control may go next. The copies along one edge are a single line that
assigns to all merges at the same time.

A register is **live into** a line when some path from the line reaches a
use of the register without passing a definition of it first. Such facts are
found against the flow of control. A use is a fact of its line, and a fact
spreads from a line to the lines that lead there, unless they define the
register. A fact is queued once, so **the search ends when every fact has been
spread**.
-/

namespace SsaCompiler

/-- **What a line does.** -/
inductive LineOp where
  | load (value : Word)
  | binary (op : BinOp)
  | compare (op : CmpOp)
  | jump
  | condJump
  | ret
  | phiAssign
deriving DecidableEq

/-- The name of an operation, without what it carries. -/
def LineOp.name : LineOp → String
  | load _ => "Load"
  | binary _ => "Binary"
  | compare _ => "Compare"
  | jump => "Jump"
  | condJump => "CondJump"
  | ret => "Return"
  | phiAssign => "PhiAssign"

/-- **A line of a program over virtual registers.** -/
structure Line where
  item : Item
  op : LineOp
  defs : List VReg := []
  uses : List VReg := []
  /-- The lines control may go to, the target of a true condition first. -/
  succs : List Nat := []
deriving DecidableEq

instance : Inhabited Line := ⟨{ item := .node 0, op := .jump }⟩

/-! ## The lines of a schedule -/

namespace Line

/-- Where every block begins, as a line number. -/
def starts : Nat → List ScheduledBlock → List (NodeId × Nat)
  | _, [] => []
  | line, b :: rest => (b.block, line) :: starts (line + b.items.length) rest

/-- What it takes to write lines: a graph, its schedule and its registers. -/
structure Context where
  graph : Graph
  schedule : Schedule
  numbering : Numbering

namespace Context

/-- The register of a node. -/
def register (c : Context) (n : NodeId) : Except Failure VReg :=
  (c.numbering.register c.graph n).mapError .error

/-- The register of an operand of a node. -/
def operand (c : Context) (n : NodeId) (index : Nat) : Except Failure VReg := do
  let m ← Failure.require .missingOperand (c.graph.operand? n index)
  c.register m

/-- The line to which a jump to a block goes. -/
def target (c : Context) (block : NodeId) : Except Failure Nat :=
  match (starts 0 c.schedule.blocks).lookup block with
  | some line => .ok line
  | none => .error (.error (.missingTerminator c.graph.name (c.graph.label block)))

/-- The line of a node; `next` is the line after it. -/
def nodeLine (c : Context) (n : NodeId) (next : Nat) : Except Failure Line :=
  let load (value : Word) : Except Failure Line := do
    let d ← c.register n
    pure { item := .node n, op := .load value, defs := [d], succs := [next] }
  let compute (op : LineOp) : Except Failure Line := do
    let d ← c.register n
    let lhs ← c.operand n 0
    let rhs ← c.operand n 1
    pure { item := .node n, op, defs := [d], uses := [lhs, rhs], succs := [next] }
  match c.graph.kind n with
  | .constInt value => load value
  | .constBool value => load (if value then 1 else 0)
  | .undefined => load 0
  | .binary op => compute (.binary op)
  | .compare op => compute (.compare op)
  | .jump block => do
    let line ← c.target block
    pure { item := .node n, op := .jump, succs := [line] }
  | .condJump ifTrue ifFalse => do
    let condition ← c.operand n 0
    let ifTrue ← c.target ifTrue
    let ifFalse ← c.target ifFalse
    pure { item := .node n, op := .condJump, uses := [condition], succs := [ifTrue, ifFalse] }
  | .ret => do
    let result ← c.operand n 1
    pure { item := .node n, op := .ret, uses := [result] }
  | kind => .error (.error (.unexpectedNode c.graph.name n kind.text "liveness"))

/-- The line of an item; `next` is the line after it. -/
def line (c : Context) (item : Item) (next : Nat) : Except Failure Line :=
  match item with
  | .node n => c.nodeLine n next
  | .phiMoves target edge => do
    let copies ← (c.schedule.valuePhis target).mapM fun phi => do
      let d ← c.register phi
      let u ← c.operand phi edge
      pure (d, u)
    pure { item, op := .phiAssign, defs := copies.map (·.1), uses := copies.map (·.2),
           succs := [next] }

end Context

/-- **The lines of a scheduled graph.** -/
def ofSchedule (g : Graph) (s : Schedule) (r : Numbering) : Except Failure (Array Line) := do
  let c : Context := ⟨g, s, r⟩
  let lines ← s.items.zipIdx.mapM fun (item, index) => c.line item (index + 1)
  pure lines.toArray

end Line

/-! ## Registers live into a line -/

/-- **Lines with the registers live into each of them**, ascending. -/
structure Liveness where
  lines : Array Line
  liveIn : Array (List VReg)
  /-- The number of facts that were found. -/
  facts : Nat
deriving DecidableEq

namespace Liveness

/-- The line at an index. -/
def lineAt (lines : Array Line) (index : Nat) : Line :=
  lines.getD index default

/-- The lines from which control may go to a line, each as often as it says so. -/
def predecessors (lines : Array Line) (index : Nat) : List Nat :=
  (List.range lines.size).flatMap fun p => List.replicate ((lineAt lines p).succs.count index) p

/-- The predecessors of all lines. -/
def table (lines : Array Line) : Array (List Nat) :=
  ((List.range lines.size).map (predecessors lines)).toArray

/-- **A fact**: a line and a register that is live into it. -/
abbrev Fact := Nat × VReg

/-- What a fact leads to: the register is live into the predecessors of the
line that do not define it. -/
def leadsTo (lines : Array Line) (preds : Array (List Nat)) (fact : Fact) : List Fact :=
  ((preds.getD fact.1 []).filter fun p => !(lineAt lines p).defs.contains fact.2).map (·, fact.2)

/-- The uses of all lines, which are the first facts. -/
def uses (lines : Array Line) : List Fact :=
  (List.range lines.size).flatMap fun index => (lineAt lines index).uses.map (index, ·)

/-- **A search for facts.** -/
structure Search where
  /-- The facts that were ever queued. -/
  queued : List Fact := []
  /-- Those that have not been spread yet, the latest first. -/
  pending : List Fact := []
  /-- The registers of the others, line by line. -/
  liveIn : Array (List VReg)

namespace Search

/-- Queue a fact, unless it was queued before. -/
def queue (s : Search) (fact : Fact) : Search :=
  if s.queued.contains fact then s
  else { s with queued := fact :: s.queued, pending := fact :: s.pending }

/-- The search that knows the uses. -/
def init (lines : Array Line) : Search :=
  (uses lines).foldl queue { liveIn := Array.replicate lines.size [] }

/-- **Spread a fact**: queue what it leads to. -/
def spread (lines : Array Line) (preds : Array (List Nat)) (s : Search) (fact : Fact) : Search :=
  (leadsTo lines preds fact).foldl queue
    { s with liveIn := s.liveIn.modify fact.1 (Ascending.insert fact.2) }

/-- Spread pending facts, at most `steps` of them. -/
def run (lines : Array Line) (preds : Array (List Nat)) : Nat → Search → Search
  | 0, s => s
  | steps + 1, s =>
    match s.pending with
    | [] => s
    | fact :: rest => run lines preds steps (spread lines preds { s with pending := rest } fact)

/-- **The search to its end.** There are no more facts than pairs of a line and
a use. -/
def settled (lines : Array Line) : Search :=
  run lines (table lines) (lines.size * (uses lines).length) (init lines)

end Search

/-- **Find the registers live into every line.** -/
def solve (lines : Array Line) : Liveness :=
  let s := Search.settled lines
  { lines, liveIn := s.liveIn, facts := s.queued.length }

/-- The registers live into a line; none into a line that does not exist. -/
def liveInAt (v : Liveness) (index : Nat) : List VReg :=
  v.liveIn.getD index []

/-- **The registers live after a line**: those live into a line control may
go to. -/
def liveOutAt (v : Liveness) (index : Nat) : List VReg :=
  Ascending.ofList ((lineAt v.lines index).succs.flatMap v.liveInAt)

end Liveness

end SsaCompiler
