import SsaCompiler.Error
import SsaCompiler.Graph.Order

/-!
# Schedules

A schedule fixes the order in which a graph is turned into instructions.
**The layout of the blocks is the reverse of a postorder** along the jumps,
so that a jump goes backwards only where control goes round in a loop. What
is computed is what the ends of these blocks need, and nothing else. Inside
a block every node follows the nodes of the block it depends on, and the end
of the block comes last.

A merge has no instruction of its own. A block with merges puts one item
into each of its predecessors, just before the predecessor's end, which
fills all the merges at once: that is where their operands are consumed.
-/

namespace SsaCompiler

/-- **One step of a schedule.** -/
inductive Item where
  /-- The instruction of a node. -/
  | node (n : NodeId)
  /-- The simultaneous copies into the merges of `target` along one of the
  edges into it. -/
  | phiMoves (target : NodeId) (edge : Nat)
deriving DecidableEq

/-- **A block in the layout**: its merges of values and its items. -/
structure ScheduledBlock where
  block : NodeId
  phis : List NodeId
  items : List Item
deriving DecidableEq

/-- **The order of the instructions of a function.** -/
structure Schedule where
  blocks : List ScheduledBlock
  /-- What is scheduled, operands first. -/
  postorder : List NodeId
deriving DecidableEq

namespace Graph

/-- The node that ends a block: the first one made for it. -/
def terminator? (g : Graph) (block : NodeId) : Option NodeId :=
  g.ids.find? fun n => (g.kind n).isTerminator && g.blockOf n == block

/-- The blocks control goes to from a block, the target of a false condition
first. -/
def blockNext (g : Graph) (block : NodeId) : List NodeId :=
  match g.terminator? block with
  | some t => (g.targets t).reverse
  | none => []

/-- **The blocks control can reach, in the order they are laid out.** -/
def layout (g : Graph) : List NodeId :=
  (Walk.postorder g.blockNext g.size [startBlock]).reverse

/-- The members that a node depends on, through outputs. -/
def dependencies (g : Graph) (members : List NodeId) (n : NodeId) : List NodeId :=
  ((g.operands n).map g.producer).filter members.contains

/-- **The members of a block, each after the members it depends on.** -/
def orderMembers (g : Graph) (members : List NodeId) : List NodeId :=
  Walk.postorder (g.dependencies members) members.length members

end Graph

namespace Schedule

/-- Whether a node is scheduled. -/
def isScheduled (s : Schedule) (n : NodeId) : Bool :=
  s.postorder.contains n

/-- The merges of values of a block, in the order they were made. -/
def valuePhis (s : Schedule) (block : NodeId) : List NodeId :=
  ((s.blocks.find? (·.block == block)).map (·.phis)).getD []

/-- All items, in order. -/
def items (s : Schedule) : List Item :=
  s.blocks.flatMap (·.items)

/-- The end of every laid-out block, or the first block that has none. -/
def terminators (g : Graph) (layout : List NodeId) : Except CompileError (List NodeId) :=
  layout.mapM fun block =>
    match g.terminator? block with
    | some t => .ok t
    | none => .error (.missingTerminator g.name (g.label block))

/-- A merge must have one operand for every edge into its block. -/
def checkArity (g : Graph) (phi : NodeId) : Except CompileError Unit :=
  let operands := (g.operands phi).length
  let predecessors := (g.operands (g.blockOf phi)).length
  if operands = predecessors then .ok ()
  else .error (.phiArity g.name phi operands predecessors)

/-- The merges of a block among the scheduled nodes. -/
def phisOf (g : Graph) (scheduled : List NodeId) (block : NodeId) : List NodeId :=
  scheduled.filter fun n => (g.kind n).isValuePhi && g.blockOf n == block

/-- The ordinary nodes of a block among the scheduled nodes. -/
def membersOf (g : Graph) (scheduled : List NodeId) (block : NodeId) : List NodeId :=
  scheduled.filter fun n => (g.kind n).isOrdinary && g.blockOf n == block

/-- The copies into the merges of one block, one item for every edge, each
with the block it is made in. All merges of a block consume an operand in
the same predecessor, so the first one decides. -/
def movesInto (g : Graph) (scheduled : List NodeId) (target : NodeId) :
    List (NodeId × Item) :=
  match phisOf g scheduled target with
  | [] => []
  | phi :: _ =>
    (List.range (g.operands phi).length).map fun edge =>
      (g.consumedIn phi edge, .phiMoves target edge)

/-- **Schedule a graph.** -/
def build (g : Graph) : Except CompileError Schedule := do
  let layout := g.layout
  let ends ← terminators g layout
  let postorder := (g.postorder ends).filter fun n => layout.contains (g.blockOf n)
  let scheduled := g.ids.filter postorder.contains
  (scheduled.filter fun n => (g.kind n).isValuePhi).forM (checkArity g)
  let moves := layout.flatMap (movesInto g scheduled)
  let blocks := (layout.zip ends).map fun (block, terminator) =>
    let ordinary := (g.orderMembers (membersOf g scheduled block)).map Item.node
    let copies := (moves.filter fun m => m.1 == block).map (·.2)
    { block, phis := phisOf g scheduled block, items := ordinary ++ copies ++ [.node terminator] }
  pure { blocks, postorder }

end Schedule

end SsaCompiler
