import SsaCompiler.Operator

/-!
# Nodes of the value graph

Every computation of a function is a **node**, and so is every basic block
and every jump. A node names the nodes it depends on, its *operands*; the
operands of a block are the jumps that lead to it. Two kinds of dependency
share the graph: on a **value**, and on the **effect** chain that orders the
operations that may trap.
-/

namespace SsaCompiler

/-- A node is known by its position in its graph. -/
abbrev NodeId := Nat

/-- The text by which a node is named in messages. -/
def NodeId.text (n : NodeId) : String :=
  s!"n{n}"

/-- **What flows along an edge**: a value, or the order of effects. -/
inductive Channel where
  | value
  | effect
deriving DecidableEq

/-- **What a node is.** -/
inductive Kind where
  /-- The origin of the effect chain. -/
  | start
  /-- A basic block, which depends on the jumps that lead to it. -/
  | block (label : String)
  /-- An integer constant. -/
  | constInt (value : Word)
  /-- A truth value. -/
  | constBool (value : Bool)
  /-- The value of a variable that no path has set. -/
  | undefined
  /-- An operation on two operands; one that may trap has the effect as a
  third. -/
  | binary (op : BinOp)
  /-- A comparison of two operands. -/
  | compare (op : CmpOp)
  /-- A choice between two values: the condition comes first, then the value
  for true, then the value for false. -/
  | condValue
  /-- A merge of what arrives along the edges into its block. -/
  | phi (channel : Channel)
  /-- One output of its only operand. -/
  | proj (channel : Channel)
  /-- A jump to a block. -/
  | jump (target : NodeId)
  /-- A jump on the truth value that is its operand. -/
  | condJump (ifTrue ifFalse : NodeId)
  /-- The end of the function: effect and result. -/
  | ret
deriving DecidableEq

namespace Kind

/-- Whether this is a basic block. -/
def isBlock : Kind → Bool
  | block _ => true
  | _ => false

/-- Whether this is a merge, on either channel. -/
def isPhi : Kind → Bool
  | phi _ => true
  | _ => false

/-- Whether this is a merge of values. -/
def isValuePhi : Kind → Bool
  | phi .value => true
  | _ => false

/-- Whether this is an output of another node. -/
def isProj : Kind → Bool
  | proj _ => true
  | _ => false

/-- **What ends a block**: a jump or a return. -/
def isTerminator : Kind → Bool
  | jump _ | condJump _ _ | ret => true
  | _ => false

/-- **Markers** give a graph its structure; no instruction stands for
them. -/
def isMarker : Kind → Bool
  | start | block _ | proj _ => true
  | _ => false

/-- **Ordinary** nodes are placed among the instructions of their block:
neither structure, nor a merge, nor the end of the block. -/
def isOrdinary (k : Kind) : Bool :=
  !k.isMarker && !k.isPhi && !k.isTerminator

/-- **Whether the node holds a value of its own**, which is kept in a
register. -/
def holdsValue : Kind → Bool
  | constInt _ | constBool _ | undefined | binary _ | compare _ => true
  | phi .value => true
  | _ => false

/-- Whether the first two operands may be exchanged. -/
def isCommutative : Kind → Bool
  | binary op => op.isCommutative
  | compare op => op.isCommutative
  | _ => false

/-- The blocks control may go to, the target of a true condition first. -/
def targets : Kind → List NodeId
  | jump target => [target]
  | condJump ifTrue ifFalse => [ifTrue, ifFalse]
  | _ => []

/-- The name of a kind, without what it carries. -/
def name : Kind → String
  | start => "Start"
  | block _ => "Block"
  | constInt _ => "ConstInt"
  | constBool _ => "ConstBool"
  | undefined => "Undefined"
  | binary op => op.name
  | compare op => op.name
  | condValue => "CondValue"
  | phi _ => "Phi"
  | proj _ => "Proj"
  | jump _ => "Jump"
  | condJump _ _ => "CondJump"
  | ret => "Return"

/-- The text of a kind, as drawings and messages show it. -/
def text : Kind → String
  | block label => s!"Block {label}"
  | constInt value => s!"Const {value.text}"
  | constBool true => "Const true"
  | constBool false => "Const false"
  | phi .effect => "Phi [effect]"
  | proj .value => "Proj result"
  | proj .effect => "Proj effect"
  | k => k.name

end Kind

/-- **A node with both directions of its edges.** -/
structure Node where
  kind : Kind
  /-- The block the node belongs to; a block belongs to itself. -/
  block : NodeId
  /-- What the node depends on, in order. -/
  operands : List NodeId := []
  /-- One entry for every operand slot, anywhere, that holds this node. -/
  users : List NodeId := []
deriving DecidableEq

instance : Inhabited Node := ⟨⟨.undefined, 0, [], []⟩⟩

end SsaCompiler
