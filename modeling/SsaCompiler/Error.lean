import SsaCompiler.Graph.Node

/-!
# What can go wrong

A compilation ends in a **compile error** when a stage finds its input in a
shape it cannot consume; every such error names the function and the node,
register or block at fault. It ends in a **fault** when a stage asks for
something that does not exist, such as the second operand of a node that
has only one: a fault carries no message. `Failure` is either of the two.
-/

namespace SsaCompiler

/-- A virtual register is known by its number. -/
abbrev VReg := Nat

/-- The text by which a virtual register is named. -/
def VReg.text (r : VReg) : String :=
  s!"%{r}"

/-- **Why a function cannot be compiled.** -/
inductive CompileError where
  /-- A node that the stage has no rule for. -/
  | unexpectedNode (function : String) (node : NodeId) (kind : String) (stage : String)
  /-- A merge whose operands do not match the edges into its block. -/
  | phiArity (function : String) (node : NodeId) (operands predecessors : Nat)
  /-- A value that was given no virtual register. -/
  | missingRegister (function : String) (node : NodeId)
  /-- A virtual register that was given no place. -/
  | missingLocation (function : String) (register : VReg)
  /-- A block that control cannot leave. -/
  | missingTerminator (function : String) (block : String)
  /-- A drawing that could not be written. -/
  | dumpFailed (function : String)
  /-- Assembly text that could not be written. -/
  | format
deriving DecidableEq

/-- **The message of an error.** -/
def CompileError.message : CompileError → String
  | unexpectedNode function node kind stage =>
    s!"{function}: node {NodeId.text node} of kind {kind} must not reach {stage}"
  | phiArity function node operands predecessors =>
    s!"{function}: phi {NodeId.text node} has {operands} operands but its block has "
      ++ s!"{predecessors} predecessors"
  | missingRegister function node =>
    s!"{function}: no virtual register assigned to node {NodeId.text node}"
  | missingLocation function register =>
    s!"{function}: no location allocated for register {VReg.text register}"
  | missingTerminator function block => s!"{function}: block {block} has no terminator"
  | dumpFailed function => s!"failed to write graph dump for {function}"
  | format => "failed to format assembly"

/-- **What was asked for and does not exist.** -/
inductive Fault where
  /-- A node the graph does not have. -/
  | missingNode
  /-- An operand the node does not have. -/
  | missingOperand
  /-- The end of a look-up that goes round in a circle of blocks. -/
  | endlessLookup
  /-- The end of copies that wait for the scratch place to be saved. -/
  | endlessMoves
deriving DecidableEq

/-- **How a compilation ends without a result.** -/
inductive Failure where
  | error (cause : CompileError)
  | fault (cause : Fault)
deriving DecidableEq

namespace Failure

/-- The message of a failure; a fault has none. -/
def message : Failure → String
  | error cause => cause.message
  | fault _ => ""

/-- An optional result that must be there. -/
def require {α : Type} (cause : Fault) : Option α → Except Failure α
  | some a => .ok a
  | none => .error (.fault cause)

end Failure

end SsaCompiler
