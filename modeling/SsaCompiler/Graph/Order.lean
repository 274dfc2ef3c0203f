import SsaCompiler.Graph.Basic
import SsaCompiler.Walk

/-!
# Orders of a graph

A node leads to its operands, in order, and then to its block. The walk
along these edges goes from a block to the jumps that lead to it, and on to
what those depend on, and lists **each node after its operands**; a merge in a loop
meets a node already entered, and the walk goes on without it.
-/

namespace SsaCompiler.Graph

/-- What a node leads to: its operands, then its block. -/
def next (g : Graph) (n : NodeId) : List NodeId :=
  if g.blockOf n = n then g.operands n else g.operands n ++ [g.blockOf n]

/-- **What `roots` depend on**, and the roots themselves, operands first. -/
def postorder (g : Graph) (roots : List NodeId) : List NodeId :=
  Walk.postorder g.next g.size roots

/-- **What the returns of a function depend on**, operands first. -/
def reachable (g : Graph) : List NodeId :=
  g.postorder [endBlock]

end SsaCompiler.Graph
