import SsaCompiler.Allocation
import SsaCompiler.Machine.Instruction
import SsaCompiler.ParallelMove

/-!
# Instructions for a scheduled graph

Every function `f` has two symbols: `_f` is its body, and `f` is an entry
point for a process that calls `_f` and exits with its result. The body
reserves the stack slots and then follows the schedule, item by item.

An instruction cannot have two operands in memory, and some can have none.
An operand on the stack is therefore **loaded into a scratch register before
it is used**, and a result bound for the stack is **computed in another one
and stored afterwards**. The two scratch registers differ, so an instruction
may need both.

What has been written before an item fails is kept with the failure
(`Interrupted`): an observer that counts instructions as they are written
has counted those.
-/

namespace SsaCompiler

/-- **A failure, with the code written before it.** -/
structure Interrupted where
  code : List Asm
  cause : Failure
deriving DecidableEq

/-- A piece of code, or what was written of it before it failed. -/
abbrev Piece := Except Interrupted (List Asm)

namespace Piece

/-- A piece that fails before anything is written, if it fails at all. -/
def ofExcept (r : Except Failure (List Instr)) : Piece :=
  match r with
  | .ok code => .ok (code.map .instr)
  | .error cause => .error ⟨[], cause⟩

/-- Write some code first. -/
def after (code : List Asm) : Piece → Piece
  | .ok more => .ok (code ++ more)
  | .error e => .error { e with code := code ++ e.code }

/-- **Write pieces one after the other**, up to the first that fails. -/
def join : List Piece → Piece
  | [] => .ok []
  | .ok code :: rest => after code (join rest)
  | .error e :: _ => .error e

end Piece

/-- **A graph whose values have places.** -/
structure Placed where
  graph : Graph
  numbering : Numbering
  allocation : Allocation

/-! ## Copies, and the use of the scratch registers -/

namespace Instr

/-- The scratch place for a source. -/
def sourceScratch : Location :=
  .reg .sourceScratch

/-- The scratch place for a destination. -/
def destScratch : Location :=
  .reg .destScratch

/-- **Copy a word between two places**, through the scratch register when both
are in memory. -/
def copy (src dst : Location) : List Instr :=
  if src = dst then []
  else if src.isStack && dst.isStack then
    [.movl (.loc src) sourceScratch, .movl (.loc sourceScratch) dst]
  else [.movl (.loc src) dst]

/-- **Bring a source into a register**: the code for it, and the register. -/
def load (src : Location) : List Instr × Location :=
  if src.isStack then (copy src sourceScratch, sourceScratch) else ([], src)

/-- The register in which a result for `target` is computed. -/
def work (target : Location) : Location :=
  if target.isStack then destScratch else target

/-- `target := lhs op rhs`. -/
def arithmetic (op : AluOp) (lhs rhs target : Location) : List Instr :=
  let (loading, rhs) := load rhs
  loading ++ copy lhs (work target) ++ [.alu op rhs (work target)] ++ copy (work target) target

/-- `target := lhs op rhs` for a shift: the count goes to its register. -/
def shifting (op : ShiftOp) (lhs rhs target : Location) : List Instr :=
  copy rhs (.reg .shiftCount) ++ copy lhs (work target) ++ [.shift op (work target)]
    ++ copy (work target) target

/-- `target := lhs / rhs`, or the remainder, as `result` says. -/
def division (result : Register) (lhs rhs target : Location) : List Instr :=
  let (loading, rhs) := load rhs
  loading ++ [.alu .xor (.reg .remainder) (.reg .remainder)] ++ copy lhs (.reg .dividend)
    ++ [.cltd, .idivl rhs] ++ copy (.reg result) target

/-- **The instructions of a binary operation.** -/
def binary : BinOp → Location → Location → Location → List Instr
  | .arith .add => arithmetic .add
  | .arith .sub => arithmetic .sub
  | .arith .mul => arithmetic .imul
  | .arith .div => division .dividend
  | .arith .mod => division .remainder
  | .arith .bitAnd => arithmetic .and
  | .arith .bitOr => arithmetic .or
  | .arith .bitXor => arithmetic .xor
  | .arith .shl => shifting .left
  | .arith .shr => shifting .right
  | .logic .and => arithmetic .and
  | .logic .or => arithmetic .or

/-- The condition that a comparison tests. -/
def condition : CmpOp → Condition
  | .less => .less
  | .lessEq => .lessEq
  | .greater => .greater
  | .greaterEq => .greaterEq
  | .equal => .equal
  | .notEqual => .notEqual

/-- Load a number. -/
def const (value : Int) (target : Location) : List Instr :=
  [.movl (.imm value) target]

/-- Undo the frame and return. -/
def epilogue : List Instr :=
  [.movq .rbp .rsp, .pop .rbp, .ret]

end Instr

namespace Placed

/-- **The place of the value of a node.** -/
def location (p : Placed) (n : NodeId) : Except Failure Location := do
  let register ← (p.numbering.register p.graph n).mapError .error
  match p.allocation.location? register with
  | some place => .ok place
  | none => .error (.error (.missingLocation p.graph.name register))

/-- An operand of a node. -/
def operand (p : Placed) (n : NodeId) (index : Nat) : Except Failure NodeId :=
  Failure.require .missingOperand (p.graph.operand? n index)

/-- The place of an operand of a node. -/
def operandLocation (p : Placed) (n : NodeId) (index : Nat) : Except Failure Location := do
  p.location (← p.operand n index)

/-! ## Items -/

/-- The labels of a comparison: where it is true, and where it ends. -/
def compareLabels (p : Placed) (n : NodeId) : String × String :=
  (s!"{p.graph.name}_cmp{n}_true", s!"{p.graph.name}_cmp{n}_end")

/-- The code of a comparison whose operands are at hand. -/
def comparison (p : Placed) (n : NodeId) (op : CmpOp) (lhs rhs target : Location) : List Asm :=
  let (yes, done) := p.compareLabels n
  [.instr (.cmpl (.loc rhs) lhs), .instr (.jcc (Instr.condition op) yes)]
    ++ (Instr.const 0 target).map .instr
    ++ [.instr (.jmp done), .label yes]
    ++ (Instr.const 1 target).map .instr
    ++ [.label done]

/-- **A comparison.** The right operand is loaded before the place of the
result is looked up. -/
def compare (p : Placed) (n : NodeId) (op : CmpOp) : Piece :=
  let places : Except Failure (Location × Location) := do
    let lhs ← p.operandLocation n 0
    let rhs ← p.operandLocation n 1
    pure (lhs, rhs)
  match places with
  | .error cause => .error ⟨[], cause⟩
  | .ok (lhs, rhs) =>
    let (loading, rhs) := Instr.load rhs
    Piece.after (loading.map .instr) <|
      match p.location n with
      | .error cause => .error ⟨[], cause⟩
      | .ok target => .ok (p.comparison n op lhs rhs target)

/-- **A binary operation.** -/
def binary (p : Placed) (n : NodeId) (op : BinOp) : Except Failure (List Instr) := do
  let lhs ← p.operandLocation n 0
  let right ← p.operand n 1
  let target ← p.location n
  let rhs ← p.location right
  pure (Instr.binary op lhs rhs target)

/-- **The code of a node.** -/
def node (p : Placed) (n : NodeId) : Piece :=
  let const (value : Int) : Piece := .ofExcept do
    let target ← p.location n
    pure (Instr.const value target)
  match p.graph.kind n with
  | .constInt value => const value.toInt
  | .constBool value => const (if value then 1 else 0)
  | .undefined => const 0
  | .binary op => .ofExcept (p.binary n op)
  | .compare op => p.compare n op
  | .jump target => .ok [.instr (.jmp (p.graph.label target))]
  | .condJump ifTrue ifFalse => .ofExcept do
    let condition ← p.operandLocation n 0
    pure [.cmpl (.imm 0) condition, .jcc .notEqual (p.graph.label ifTrue),
      .jmp (p.graph.label ifFalse)]
  | .ret => .ofExcept do
    let result ← p.operandLocation n 1
    pure (Instr.copy result (.reg .rax) ++ Instr.epilogue)
  | kind => .error ⟨[], .error (.unexpectedNode p.graph.name n kind.text "code generation")⟩

/-- **The simultaneous copies into some merges** along one edge. -/
def phiMoves (p : Placed) (phis : List NodeId) (edge : Nat) : Except Failure (List Instr) := do
  let moves ← phis.mapM fun phi => do
    let source ← p.operandLocation phi edge
    let destination ← p.location phi
    pure (source, destination)
  let ordered ← Failure.require .endlessMoves
    (ParallelMove.sequentialize Instr.destScratch moves)
  pure (ordered.flatMap fun m => Instr.copy m.1 m.2)

/-- The code of an item of a schedule. -/
def item (p : Placed) (s : Schedule) : Item → Piece
  | .node n => p.node n
  | .phiMoves target edge => .ofExcept (p.phiMoves (s.valuePhis target) edge)

/-! ## Functions -/

/-- The symbols of a function and its entry point for a process, up to the
symbol of the body. -/
def header (name : String) : List Asm :=
  [.globl name, .globl s!"_{name}", .blank, .symbol name,
    .instr (.call s!"_{name}"), .instr (.movq .rax .rdi), .instr (.movqImm 60 .rax),
    .instr .syscall, .blank, .symbol s!"_{name}"]

/-- The frame of a body. -/
def prologue (p : Placed) : List Asm :=
  let frame := p.allocation.frameSize
  let enter : List Instr := [.push .rbp, .movq .rsp .rbp]
  let reserve : List Instr := if frame = 0 then [] else [.subq frame .rsp]
  (enter ++ reserve).map .instr

/-- The code of a block. Nothing jumps to the start block by its label, so it
has none. -/
def block (p : Placed) (s : Schedule) (b : ScheduledBlock) : Piece :=
  let label := if b.block = Graph.startBlock then [] else [Asm.label (p.graph.label b.block)]
  Piece.after label (Piece.join (b.items.map (p.item s)))

/-- **The code of a function.** -/
def function (p : Placed) (s : Schedule) : Piece :=
  Piece.after (header p.graph.name ++ p.prologue) (Piece.join (s.blocks.map (p.block s)))

end Placed

end SsaCompiler
