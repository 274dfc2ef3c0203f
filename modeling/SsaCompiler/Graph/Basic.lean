import SsaCompiler.Graph.Node

/-!
# The value graph of a function

A graph is an array of nodes that only grows: a node that is no longer
needed loses its edges and stays where it is, so a `NodeId` means the same
node for the life of the graph. Every edge is stored twice, as an operand
of the node that depends and as a user of the node depended on, and every
operation below changes both directions together. **The users of a node are
counted with multiplicity**: as many entries for `u` as `u` has operand
slots that hold the node.

The order of the user list is part of the contract of a graph. A new edge
adds an entry at the end, and a removed edge takes out the first entry of
its user and moves the last entry of the list into the gap
(`swapErase`).

Three nodes are always there: the start block, the origin of effects and
the end block, which collects the returns.
-/

namespace SsaCompiler

/-- **Remove the first occurrence, filling the gap with the last entry.** -/
def swapErase (l : List NodeId) (a : NodeId) : List NodeId :=
  match l.idxOf? a, l.getLast? with
  | some i, some z => (l.set i z).dropLast
  | _, _ => l

/-- **The value graph of one function.** -/
structure Graph where
  /-- The name of the function. -/
  name : String
  nodes : Array Node := #[]
  /-- The roles of the blocks made so far, which number the labels. -/
  roles : List String := []
deriving DecidableEq

namespace Graph

/-- The block where control enters. -/
def startBlock : NodeId := 0

/-- The origin of the effect chain. -/
def start : NodeId := 1

/-- The block that collects the returns. -/
def endBlock : NodeId := 2

/-! ## Reading a graph -/

/-- The number of nodes. -/
def size (g : Graph) : Nat :=
  g.nodes.size

/-- All nodes, in the order they were made. -/
def ids (g : Graph) : List NodeId :=
  List.range g.size

/-- The node of an identifier; a graph answers an isolated node for one it
does not have. -/
def node (g : Graph) (n : NodeId) : Node :=
  g.nodes.getD n default

/-- What a node is. -/
def kind (g : Graph) (n : NodeId) : Kind :=
  (g.node n).kind

/-- The block a node belongs to. -/
def blockOf (g : Graph) (n : NodeId) : NodeId :=
  (g.node n).block

/-- What a node depends on. -/
def operands (g : Graph) (n : NodeId) : List NodeId :=
  (g.node n).operands

/-- One operand of a node, if it has so many. -/
def operand? (g : Graph) (n : NodeId) (index : Nat) : Option NodeId :=
  (g.operands n)[index]?

/-- One entry for every operand slot that holds the node. -/
def userEdges (g : Graph) (n : NodeId) : List NodeId :=
  (g.node n).users

/-- **The distinct users of a node**, in the order of their first edge. -/
def users (g : Graph) (n : NodeId) : List NodeId :=
  (g.userEdges n).eraseDups

/-- The label of the block a node belongs to. -/
def label (g : Graph) (n : NodeId) : String :=
  match g.kind (g.blockOf n) with
  | .block label => label
  | _ => ""

/-- The blocks a terminator may go to. -/
def targets (g : Graph) (n : NodeId) : List NodeId :=
  (g.kind n).targets

/-- The block from which control comes along one of the edges into a
block. -/
def predecessor? (g : Graph) (block : NodeId) (index : Nat) : Option NodeId :=
  (g.operand? block index).map g.blockOf

/-- **Where an operand is consumed**: that of a merge at the end of the
predecessor it belongs to, any other in the block of its user. -/
def consumedIn (g : Graph) (user : NodeId) (index : Nat) : NodeId :=
  if (g.kind user).isPhi then
    (g.predecessor? (g.blockOf user) index).getD (g.blockOf user)
  else g.blockOf user

/-- Follow outputs to the node that computes them, at most `steps` times. -/
def producerWithin (g : Graph) : Nat → NodeId → NodeId
  | 0, n => n
  | steps + 1, n =>
    if (g.kind n).isProj then
      match g.operands n with
      | inner :: _ => g.producerWithin steps inner
      | [] => n
    else n

/-- **The node that computes what `n` stands for**: `n` itself unless it is
an output of another node. -/
def producer (g : Graph) (n : NodeId) : NodeId :=
  g.producerWithin g.size n

/-! ## Changing a graph -/

/-- Change one node. -/
def modify (g : Graph) (n : NodeId) (f : Node → Node) : Graph :=
  { g with nodes := g.nodes.modify n f }

/-- Change the operand list of a node, leaving the users of its operands
as they are. -/
def mapOperands (g : Graph) (n : NodeId) (f : List NodeId → List NodeId) : Graph :=
  g.modify n fun node => { node with operands := f node.operands }

/-- Change the user list of a node. -/
def mapUsers (g : Graph) (n : NodeId) (f : List NodeId → List NodeId) : Graph :=
  g.modify n fun node => { node with users := f node.users }

/-- Record one more edge from `user` to `operand`. -/
def addUser (g : Graph) (user operand : NodeId) : Graph :=
  g.mapUsers operand (· ++ [user])

/-- Forget one edge from `user` to `operand`. -/
def removeUser (g : Graph) (user operand : NodeId) : Graph :=
  g.mapUsers operand (swapErase · user)

/-- **Make a node**, with the edges to its operands. -/
def addNode (g : Graph) (kind : Kind) (block : NodeId) (operands : List NodeId) :
    NodeId × Graph :=
  let linked := operands.foldl (addUser · g.size) g
  (g.size, { linked with nodes := linked.nodes.push { kind, block, operands } })

/-- **Make a block.** Its label is the function's name and the block's role;
from the second block of a role on, the number of earlier ones follows. -/
def newBlock (g : Graph) (role : String) : NodeId × Graph :=
  let earlier := g.roles.count role
  let label :=
    if earlier = 0 then s!"{g.name}_{role}" else s!"{g.name}_{role}_{earlier}"
  (g.size,
    { g with
      nodes := g.nodes.push { kind := .block label, block := g.size }
      roles := role :: g.roles })

/-- Give a node one more operand. -/
def pushOperand (g : Graph) (n operand : NodeId) : Graph :=
  (g.mapOperands n (· ++ [operand])).addUser n operand

/-- **Change one operand**, if the node has so many. -/
def setOperand? (g : Graph) (n : NodeId) (index : Nat) (operand : NodeId) :
    Option Graph :=
  (g.operand? n index).map fun old =>
    ((g.mapOperands n (·.set index operand)).removeUser n old).addUser n operand

/-- Let every slot of `user` that holds `old` hold `new`, one edge after the
other. -/
def rewire (g : Graph) (old new user : NodeId) : Graph :=
  let edges := (g.operands user).count old
  let moved := g.mapOperands user (·.map fun m => if m = old then new else m)
  (List.replicate edges user).foldl (fun h u => (h.removeUser u old).addUser u new) moved

/-- **Let every slot that holds `old` hold `new`.** -/
def replaceUses (g : Graph) (old new : NodeId) : Graph :=
  if old = new then g else (g.users old).foldl (·.rewire old new ·) g

/-- **Take a node out of use**: drop all its operands. -/
def detach (g : Graph) (n : NodeId) : Graph :=
  (g.operands n).foldl (·.removeUser n ·) (g.mapOperands n fun _ => [])

/-- Make an output of a node, in the node's own block. -/
def project (g : Graph) (n : NodeId) (channel : Channel) : NodeId × Graph :=
  g.addNode (.proj channel) (g.blockOf n) [n]

/-- **The graph of a function before anything is built**: start block,
origin of effects, end block. -/
def init (name : String) : Graph :=
  let g : Graph := { name }
  let g := (g.newBlock "start").2
  let g := (g.addNode .start startBlock []).2
  (g.newBlock "end").2

end Graph

end SsaCompiler
