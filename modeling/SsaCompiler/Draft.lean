import SsaCompiler.Graph.Basic
import SsaCompiler.Log

/-!
# Drafts: a graph under construction

A **draft** is a graph together with the table of the values it already
computes. A node is offered to the table; if one of equal kind, block and
operands was offered before, that one is the answer, and the new node loses
its operands again. Nodes of different blocks are never equal, so sharing
moves no computation to a place where it was not made. Constants all belong
to the start block and so serve every block of a function.

The key of a node is taken when it is offered and is never changed
afterwards, even when an operand of the node is later replaced.

A draft without a table keeps every node as it is made.
-/

namespace SsaCompiler

/-- **What makes two nodes compute the same value.** -/
structure ValueKey where
  kind : Kind
  block : NodeId
  operands : List NodeId
deriving DecidableEq

/-- **The values computed so far**, the latest first, and how many nodes
were answered with an earlier one. -/
structure ValueTable where
  known : List (ValueKey × NodeId) := []
  hits : Nat := 0

/-- Put an operand before the first one that is not smaller. -/
def insertOperand (a : NodeId) : List NodeId → List NodeId
  | [] => [a]
  | b :: rest => if a ≤ b then a :: b :: rest else b :: insertOperand a rest

/-- The operands in ascending order. -/
def sortOperands (operands : List NodeId) : List NodeId :=
  operands.foldr insertOperand []

/-- **Whether equal nodes of this kind may be shared**: they compute a value
from their operands alone and cannot trap. -/
def Kind.isShareable : Kind → Bool
  | constInt _ | constBool _ | undefined | compare _ | condValue => true
  | binary op => !op.hasEffect
  | _ => false

/-- The key of a node. Exchangeable operands are put in ascending order. -/
def Graph.valueKey (g : Graph) (n : NodeId) : ValueKey :=
  let kind := g.kind n
  let operands := g.operands n
  { kind, block := g.blockOf n
    operands := if kind.isCommutative then sortOperands operands else operands }

/-- **A graph under construction**, with its value table unless sharing is
switched off, and the log of what was done. -/
structure Draft where
  graph : Graph
  values : Option ValueTable
  log : Log := #[]

namespace Draft

/-- An empty draft, with or without sharing. -/
def init (name : String) (sharing : Bool) : Draft :=
  { graph := .init name, values := if sharing then some {} else none }

/-- Report an event. -/
def report (d : Draft) (e : Event) : Draft :=
  { d with log := d.log.push e }

/-- The number of nodes answered with an earlier one. -/
def hits (d : Draft) : Nat :=
  (d.values.map (·.hits)).getD 0

/-- **Offer a node to the value table.** The answer is the node itself or an
earlier node that computes the same value. -/
def offer (d : Draft) (n : NodeId) : NodeId × Draft :=
  match d.values with
  | none => (n, d)
  | some table =>
    if (d.graph.kind n).isShareable then
      let key := d.graph.valueKey n
      match table.known.lookup key with
      | some existing =>
        let d := { d with
          graph := d.graph.detach n
          values := some { table with hits := table.hits + 1 } }
        (existing, d.report (.valueReused n existing))
      | none =>
        (n, { d with values := some { table with known := (key, n) :: table.known } })
    else (n, d)

/-- **Make a node and offer it to the value table.** -/
def add (d : Draft) (kind : Kind) (block : NodeId) (operands : List NodeId) :
    NodeId × Draft :=
  let (n, graph) := d.graph.addNode kind block operands
  { d with graph }.offer n

/-- Make a constant, which belongs to the start block. -/
def constant (d : Draft) (kind : Kind) : NodeId × Draft :=
  d.add kind Graph.startBlock []

end Draft

end SsaCompiler
