import SsaCompiler.Schedule

/-!
# Virtual registers

A scheduled constant, operation, comparison or merge of values holds a value
of its own, and owns one **virtual register** for it. Registers are
numbered along the postorder of the schedule, so an operand is numbered
before what uses it, unless a loop lies between them.

A division is referred to through one of its outputs; the register of an
output is that of the node that computes it.
-/

namespace SsaCompiler

/-- **The owners of the virtual registers**: register `i` belongs to the
`i`-th of them. -/
structure Numbering where
  owners : List NodeId
deriving DecidableEq

namespace Numbering

/-- The number of registers. -/
def size (r : Numbering) : Nat :=
  r.owners.length

/-- **Number the values of a schedule.** The schedule may come from another
graph, so its nodes have to exist in this one. -/
def ofSchedule (g : Graph) (s : Schedule) : Except Fault Numbering :=
  if s.postorder.all (· < g.size) then
    .ok ⟨s.postorder.filter fun n => (g.kind n).holdsValue⟩
  else .error .missingNode

/-- **The register that holds the value of a node.** -/
def register (r : Numbering) (g : Graph) (n : NodeId) : Except CompileError VReg :=
  let producer := g.producer n
  match r.owners.idxOf? producer with
  | some register => .ok register
  | none => .error (.missingRegister g.name producer)

end Numbering

end SsaCompiler
