import SsaCompiler.Error

/-!
# The log of a compilation

Every stage reports what it did as an **event**. An event is a value, so
that the log of a run is part of its result; its level and its text are
functions of the event.
-/

namespace SsaCompiler

/-- How much a reader of the log wants to see. -/
inductive Level where
  | error
  | warn
  | info
  | debug
  | trace
deriving DecidableEq

namespace Level

/-- The levels are ordered from the gravest to the most detailed. -/
def rank : Level → Nat
  | error => 0
  | warn => 1
  | info => 2
  | debug => 3
  | trace => 4

/-- The name that opens a record. -/
def name : Level → String
  | error => "ERROR"
  | warn => "WARN"
  | info => "INFO"
  | debug => "DEBUG"
  | trace => "TRACE"

end Level

/-- **What happened during a compilation.** -/
inductive Event where
  | functionEntered (function : String)
  | valueReused (node existing : NodeId)
  | phiRetired (function : String) (phi value : NodeId)
  | conditionalLowered (function : String) (node value : NodeId)
  | leftUnsealed (function : String)
  | graphBuilt (function : String) (nodes phisRemoved valuesReused conditionalsLowered : Nat)
  | graphWritten (function path : String)
  | scheduled (function : String) (blocks nodes : Nat)
  | registersNumbered (function : String) (registers : Nat)
  | livenessSettled (function : String) (lines facts : Nat)
  | colored (registers colors spillSlots : Nat)
  | allocated (function : String) (registers spillSlots : Nat)
  | instructionEmitted (function mnemonic : String)
  | functionEmitted (function : String) (instructions frame : Nat)
  | functionFailed (function : String) (failure : Failure)
  | programCompiled (functions bytes : Nat)
deriving DecidableEq

namespace Event

/-- The level at which an event is reported. -/
def level : Event → Level
  | functionFailed .. => .error
  | leftUnsealed .. => .warn
  | graphWritten .. => .info
  | valueReused .. | phiRetired .. | conditionalLowered .. | registersNumbered ..
  | instructionEmitted .. => .trace
  | functionEntered .. | graphBuilt .. | scheduled .. | livenessSettled .. | colored ..
  | allocated .. | functionEmitted .. | programCompiled .. => .debug

/-- The text of an event. -/
def message : Event → String
  | functionEntered function => s!"compiling function {function}"
  | valueReused node existing =>
    s!"value numbering: {NodeId.text node} reuses {NodeId.text existing}"
  | phiRetired function phi value =>
    s!"{function}: trivial phi {NodeId.text phi} replaced by {NodeId.text value}"
  | conditionalLowered function node value =>
    s!"{function}: conditional value {NodeId.text node} lowered to {NodeId.text value}"
  | leftUnsealed function => s!"{function}: graph finished with unsealed blocks"
  | graphBuilt function nodes phisRemoved valuesReused conditionalsLowered =>
    s!"{function}: {nodes} nodes, {phisRemoved} trivial phis removed, "
      ++ s!"{valuesReused} values reused, {conditionalsLowered} conditional values lowered"
  | graphWritten function path => s!"{function}: graph written to {path}"
  | scheduled function blocks nodes => s!"{function}: scheduled {blocks} blocks, {nodes} nodes"
  | registersNumbered function registers => s!"{function}: {registers} virtual registers"
  | livenessSettled function lines facts =>
    s!"{function}: liveness over {lines} lines settled after {facts} facts"
  | colored registers colors spillSlots =>
    s!"colored {registers} registers with {colors} colors, {spillSlots} spill slots"
  | allocated function registers spillSlots =>
    s!"{function}: {registers} virtual registers, {spillSlots} spill slots"
  | instructionEmitted function mnemonic => s!"{function}: {mnemonic}"
  | functionEmitted function instructions frame =>
    s!"{function}: emitted {instructions} instructions, frame {frame} bytes"
  | functionFailed function failure => s!"{function}: compilation failed: {failure.message}"
  | programCompiled functions bytes =>
    s!"compiled {functions} functions into {bytes} bytes of assembly"

/-- The record of an event: its level, then its text. -/
def record (e : Event) : String :=
  s!"{e.level.name} {e.message}"

end Event

/-- **The events of a run**, in order. -/
abbrev Log := Array Event

/-- The records of a log that a reader at `level` sees. -/
def Log.records (log : Log) (level : Level) : List String :=
  (log.toList.filter fun e => e.level.rank ≤ level.rank).map Event.record

end SsaCompiler
