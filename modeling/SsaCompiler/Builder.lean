import SsaCompiler.Draft

/-!
# Building a graph in single-assignment form

A **builder** grows the graph of a function block by block. Variables do not
occur in the graph: the builder remembers, for every variable and block, the
node that the variable stands for at the end of what has been built of the
block, and a read answers that node.

Where a block does not define a variable, a read of it looks at the block's
predecessors. As long as more of them may come, it places a merge without
operands, a **placeholder**, and the block must be **sealed** later to
complete it. In a sealed block with one predecessor the read goes on there.
In any other sealed block it makes a merge, *defines the variable as that
merge first*, and only then reads the operands; so a read that comes back
through a loop finds a definition and ends.

A merge of one value with itself is **trivial**. It is retired at once: its
users take the value instead, the merge loses its operands, and the builder
remembers where it was forwarded, since a definition may still name it.
Retiring a merge can make a merge that used it trivial, so those are looked
at again.

The effect chain is one more variable, with merges of its own channel.
-/

namespace SsaCompiler

/-- **What a builder keeps track of**: a variable, or the effect chain. -/
inductive Slot where
  | var (name : String)
  | effect
deriving DecidableEq

namespace Slot

/-- The channel of the merges of a slot. -/
def channel : Slot → Channel
  | var _ => .value
  | effect => .effect

end Slot

/-- **A merge whose block is not sealed yet.** -/
structure Placeholder where
  block : NodeId
  slot : Slot
  phi : NodeId
deriving DecidableEq

/-- **A graph being built**, with what is known about its variables. -/
structure Builder extends Draft where
  /-- The block that new computations go to. -/
  current : NodeId := Graph.startBlock
  /-- Definitions by block and slot; the latest comes first and counts. -/
  defs : List ((NodeId × Slot) × NodeId) := []
  /-- Merges that wait for their block to be sealed, oldest first. -/
  placeholders : List Placeholder := []
  /-- The blocks whose predecessors are all known. -/
  sealedBlocks : List NodeId := []
  /-- What every retired merge was replaced by. -/
  forwarded : List (NodeId × NodeId) := []

namespace Builder

/-! ## Small steps -/

/-- Replace the graph. -/
def withGraph (b : Builder) (graph : Graph) : Builder :=
  { b with graph }

/-- Let a new node be made by the draft. -/
def lift (b : Builder) (r : NodeId × Draft) : NodeId × Builder :=
  (r.1, { b with toDraft := r.2 })

/-- Make a node that is not offered for sharing. -/
def place (b : Builder) (kind : Kind) (block : NodeId) (operands : List NodeId) :
    NodeId × Builder :=
  let (n, graph) := b.graph.addNode kind block operands
  (n, b.withGraph graph)

/-- Whether all predecessors of a block are known. -/
def isSealed (b : Builder) (block : NodeId) : Bool :=
  b.sealedBlocks.contains block

/-- The number of merges retired so far. -/
def phisRemoved (b : Builder) : Nat :=
  b.forwarded.length

/-- **Define a slot** at the end of a block. -/
def write (b : Builder) (slot : Slot) (block value : NodeId) : Builder :=
  { b with defs := ((block, slot), value) :: b.defs }

/-- The definition of a slot at the end of a block. -/
def definition? (b : Builder) (slot : Slot) (block : NodeId) : Option NodeId :=
  b.defs.lookup (block, slot)

/-- Follow a forwarding map, at most `steps` times. -/
def follow (forwarded : List (NodeId × NodeId)) : Nat → NodeId → NodeId
  | 0, n => n
  | steps + 1, n =>
    match forwarded.lookup n with
    | some value => follow forwarded steps value
    | none => n

/-- **What stands for a node now**: the node itself unless it was
retired. -/
def resolve (b : Builder) (n : NodeId) : NodeId :=
  follow b.forwarded b.forwarded.length n

/-- Remember what a retired merge was replaced by. -/
def forward (b : Builder) (phi value : NodeId) : Builder :=
  { b with forwarded := (phi, value) :: b.forwarded.filter (·.1 ≠ phi) }

/-- A node for the value of a variable that no path has set. -/
def undefined (b : Builder) : NodeId × Builder :=
  b.lift (b.constant .undefined)

/-! ## Merges -/

/-- **What a merge merges**: its distinct operands other than itself. -/
def merged (b : Builder) (phi : NodeId) : List NodeId :=
  ((b.graph.operands phi).filter (· ≠ phi)).eraseDups

/-- **Retire a merge for a value**: its users take the value, and it keeps
no operands. -/
def retire (b : Builder) (phi value : NodeId) : Builder :=
  let b := b.withGraph ((b.graph.replaceUses phi value).detach phi)
  let b := b.forward phi value
  { b with toDraft := b.report (.phiRetired b.graph.name phi value) }

/-- **Retire a merge if it is trivial**, then look again at the merges that
used it. The answer is what stands for the merge afterwards. Every step
inward follows the retirement of one more merge, so the number of nodes is
bound enough. -/
def simplify : Nat → Builder → NodeId → NodeId × Builder
  | 0, b, phi => (phi, b)
  | bound + 1, b, phi =>
    match b.merged phi with
    | _ :: _ :: _ => (phi, b)
    | operands =>
      let (value, b) :=
        match operands with
        | value :: _ => (value, b)
        | [] => b.undefined
      let users := (b.graph.users phi).filter (· ≠ phi)
      let b := users.foldl
        (fun b user =>
          if (b.graph.kind user).isPhi && (b.forwarded.lookup user).isNone then
            (simplify bound b user).2
          else b)
        (b.retire phi value)
      (b.resolve value, b)

/-- **Complete a merge**: read its operands at the ends of the predecessors
of its block, in order, and retire it if it turns out trivial. -/
def complete (read : Builder → Slot → NodeId → Except Fault (NodeId × Builder))
    (b : Builder) (slot : Slot) (phi : NodeId) : Except Fault (NodeId × Builder) := do
  let block := b.graph.blockOf phi
  let b ← (List.range (b.graph.operands block).length).foldlM
    (fun (b : Builder) index => do
      match b.graph.predecessor? block index with
      | none => throw .missingOperand
      | some predecessor =>
        let (value, b) ← read b slot predecessor
        pure (b.withGraph (b.graph.pushOperand phi value)))
    b
  pure (b.simplify (b.graph.size + 1) phi)

/-! ## Reading and sealing -/

/-- Read a slot at the end of a block, looking at no more than `bound` blocks
in a row. -/
def readWithin : Nat → Builder → Slot → NodeId → Except Fault (NodeId × Builder)
  | 0, _, _, _ => .error .endlessLookup
  | bound + 1, b, slot, block =>
    match b.definition? slot block with
    | some value => .ok (b.resolve value, b)
    | none => do
      let (value, b) ←
        if b.isSealed block then
          match b.graph.operands block with
          | [jump] => readWithin bound b slot (b.graph.blockOf jump)
          | _ =>
            let (phi, b) := b.place (.phi slot.channel) block []
            -- Defined before its operands are read: this ends a read around a loop.
            complete (readWithin bound) (b.write slot block phi) slot phi
        else
          let (phi, b) := b.place (.phi slot.channel) block []
          pure (phi, { b with placeholders := b.placeholders ++ [⟨block, slot, phi⟩] })
      pure (value, b.write slot block value)

/-- **Read a slot at the end of a block.**

Between two blocks that are given a merge, a read passes through blocks with
one predecessor, and it stops at the first merge it has already made. So it
passes no block more than twice, unless a circle of such blocks leads
nowhere else. -/
def read (b : Builder) (slot : Slot) (block : NodeId) : Except Fault (NodeId × Builder) :=
  readWithin (2 * b.graph.size + 2) b slot block

/-- Complete the placeholders of a block that satisfy `which`, oldest
first. -/
def completeWhere (which : Slot → Bool) (b : Builder) (block : NodeId) :
    Except Fault Builder :=
  let (due, rest) := b.placeholders.partition fun p => p.block == block && which p.slot
  due.foldlM (fun b p => (complete read b p.slot p.phi).map (·.2)) { b with placeholders := rest }

/-- **Seal a block**: its predecessors are all known. Its placeholders for
variables are completed first, then that of the effect chain. -/
def sealBlock (b : Builder) (block : NodeId) : Except Fault Builder := do
  let b ← completeWhere (· ≠ .effect) b block
  let b ← completeWhere (· = .effect) b block
  pure { b with sealedBlocks := block :: b.sealedBlocks.filter (· ≠ block) }

/-! ## Computations -/

/-- **A builder for an empty function.** -/
def init (name : String) (sharing : Bool) : Builder :=
  let b : Builder := { toDraft := .init name sharing, sealedBlocks := [Graph.startBlock] }
  let (effect, graph) := b.graph.project Graph.start .effect
  (b.withGraph graph).write .effect Graph.startBlock effect

/-- Go on building in another block. -/
def enter (b : Builder) (block : NodeId) : Builder :=
  { b with current := block }

/-- Make a block. -/
def newBlock (b : Builder) (role : String) : NodeId × Builder :=
  let (n, graph) := b.graph.newBlock role
  (n, b.withGraph graph)

/-- The node of an integer. -/
def constInt (b : Builder) (value : Word) : NodeId × Builder :=
  b.lift (b.constant (.constInt value))

/-- The node of a truth value. -/
def constBool (b : Builder) (value : Bool) : NodeId × Builder :=
  b.lift (b.constant (.constBool value))

/-- Make a node in the current block, or find an earlier one like it. -/
def compute (b : Builder) (kind : Kind) (operands : List NodeId) : NodeId × Builder :=
  b.lift (b.add kind b.current operands)

/-- **Compute an operation in the current block.** An operation that may trap
takes the place of the current effect, and its value is one of its two
outputs. -/
def binary (b : Builder) (op : BinOp) (lhs rhs : NodeId) :
    Except Fault (NodeId × Builder) :=
  if op.hasEffect then do
    let (effect, b) ← b.read .effect b.current
    let (n, b) := b.compute (.binary op) [lhs, rhs, effect]
    let (after, graph) := b.graph.project n .effect
    let b := (b.withGraph graph).write .effect b.current after
    let (result, graph) := b.graph.project n .value
    pure (result, b.withGraph graph)
  else pure (b.compute (.binary op) [lhs, rhs])

/-- Compare two values in the current block. -/
def compare (b : Builder) (op : CmpOp) (lhs rhs : NodeId) : NodeId × Builder :=
  b.compute (.compare op) [lhs, rhs]

/-- Choose between two values in the current block. -/
def condValue (b : Builder) (cond ifTrue ifFalse : NodeId) : NodeId × Builder :=
  b.compute .condValue [cond, ifTrue, ifFalse]

/-- End the current block with a jump. -/
def jump (b : Builder) (target : NodeId) : NodeId × Builder :=
  let (n, b) := b.place (.jump target) b.current []
  (n, b.withGraph (b.graph.pushOperand target n))

/-- End the current block with a jump on a condition. -/
def condJump (b : Builder) (cond ifTrue ifFalse : NodeId) : NodeId × Builder :=
  let (n, b) := b.place (.condJump ifTrue ifFalse) b.current [cond]
  (n, b.withGraph ((b.graph.pushOperand ifTrue n).pushOperand ifFalse n))

/-- End the current block with a return. -/
def ret (b : Builder) (result : NodeId) : Except Fault (NodeId × Builder) := do
  let (effect, b) ← b.read .effect b.current
  let (n, b) := b.place .ret b.current [effect, result]
  pure (n, b.withGraph (b.graph.pushOperand Graph.endBlock n))

/-- **The finished draft.** A merge that still waits for its block is worth a
warning. -/
def finish (b : Builder) : Draft :=
  if b.placeholders = [] then b.toDraft else b.report (.leftUnsealed b.graph.name)

end Builder

end SsaCompiler
