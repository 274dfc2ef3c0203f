import SsaCompiler.Draft

/-!
# Conditional values without branches

A conditional value is built as one node with a condition and two arms. No
instruction computes it, so before a graph is laid out every conditional
value in use is replaced by arithmetic: a choice between truth values by a
connective, and any other choice between `t` and `f` on a condition `c` by
`f ^ ((t ^ f) & (0 - c))`, whose mask is all ones when `c` is `1` and zero
when it is `0`. Both arms are computed in any case.

Conditional values are replaced in the order they were made. Operands are
made before their users, so an inner choice is gone before an outer one is
looked at.
-/

namespace SsaCompiler

namespace Draft

/-- The truth value that a node is known to have. -/
def boolConst? (d : Draft) (n : NodeId) : Option Bool :=
  match d.graph.kind n with
  | .constBool value => some value
  | _ => none

/-- **What a choice becomes**: one of its parts where it is decided, a
connective where an arm is a truth value, and masked arithmetic
otherwise. -/
def choose (d : Draft) (block cond ifTrue ifFalse : NodeId) : NodeId × Draft :=
  let binary (d : Draft) (op : BinOp) (lhs rhs : NodeId) := d.add (.binary op) block [lhs, rhs]
  match d.boolConst? cond with
  | some true => (ifTrue, d)
  | some false => (ifFalse, d)
  | none =>
    if ifTrue = ifFalse then (ifTrue, d)
    else
      match d.boolConst? ifTrue, d.boolConst? ifFalse with
      | some true, some false => (cond, d)
      | some false, some true =>
        let (one, d) := d.constant (.constBool true)
        binary d (.arith .bitXor) cond one
      | _, some false => binary d (.logic .and) cond ifTrue
      | some true, _ => binary d (.logic .or) cond ifFalse
      | _, _ =>
        let (nought, d) := d.constant (.constInt 0)
        let (difference, d) := binary d (.arith .bitXor) ifTrue ifFalse
        let (mask, d) := binary d (.arith .sub) nought cond
        let (picked, d) := binary d (.arith .bitAnd) difference mask
        binary d (.arith .bitXor) ifFalse picked

/-- **Replace one conditional value**, and count it. One that nothing uses is
taken out of use without being counted, and one without its three operands
is left alone. -/
def lowerConditional (state : Nat × Draft) (n : NodeId) : Nat × Draft :=
  let (lowered, d) := state
  match d.graph.operands n with
  | [cond, ifTrue, ifFalse] =>
    if d.graph.users n = [] then (lowered, { d with graph := d.graph.detach n })
    else
      let (value, d) := d.choose (d.graph.blockOf n) cond ifTrue ifFalse
      let d := d.report (.conditionalLowered d.graph.name n value)
      (lowered + 1, { d with graph := (d.graph.replaceUses n value).detach n })
  | _ => (lowered, d)

/-- **Replace every conditional value in use**, and say how many there
were. -/
def lowerConditionals (d : Draft) : Nat × Draft :=
  (d.graph.ids.filter (d.graph.kind · = .condValue)).foldl lowerConditional (0, d)

end Draft

end SsaCompiler
