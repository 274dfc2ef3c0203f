import SsaCompiler.Builder
import SsaCompiler.Graph.Conditional
import SsaCompiler.Program

/-!
# The graph of a function

A function becomes a graph in one walk over its body. Expressions become
values: negation is a subtraction from zero, the complement an exclusive or
with all ones, and the connectives, logical negation and the conditional
expression become conditional values. Branches and loops become blocks.

**A block is sealed right after the last jump into it is made**: the arms
of a branch at once, the block after a branch when both arms are done, and
the head of a loop only after the jump back from the body. What follows a
statement that returns is not walked at all.

When the walk is over, the conditional values are replaced
(`Draft.lowerConditionals`).
-/

namespace SsaCompiler

/-- **How a statement ends**: control goes on after it, or it has
returned. -/
inductive Flow where
  | continues
  | returns
deriving DecidableEq

/-- Join two values by an operator of the source language. -/
def Builder.operate (b : Builder) (op : Operator) (lhs rhs : NodeId) :
    Except Fault (NodeId × Builder) :=
  match op with
  | .arith op => b.binary (.arith op) lhs rhs
  | .compare op => pure (b.compare op lhs rhs)
  | .logic .and =>
    let (no, b) := b.constBool false
    pure (b.condValue lhs rhs no)
  | .logic .or =>
    let (yes, b) := b.constBool true
    pure (b.condValue lhs yes rhs)

namespace Expr

/-- **Build the value of an expression** in the current block. -/
def build (b : Builder) : Expr → Except Fault (NodeId × Builder)
  | int value => pure (b.constInt value)
  | bool value => pure (b.constBool value)
  | var name => b.read (.var name) b.current
  | binary op lhs rhs => do
    let (lhs, b) ← lhs.build b
    let (rhs, b) ← rhs.build b
    b.operate op lhs rhs
  | neg operand => do
    let (value, b) ← operand.build b
    let (nought, b) := b.constInt 0
    b.binary (.arith .sub) nought value
  | bitNot operand => do
    let (value, b) ← operand.build b
    let (ones, b) := b.constInt (-1)
    b.binary (.arith .bitXor) value ones
  | logicNot operand => do
    let (value, b) ← operand.build b
    let (no, b) := b.constBool false
    let (yes, b) := b.constBool true
    pure (b.condValue value no yes)
  | cond condition ifTrue ifFalse => do
    let (condition, b) ← condition.build b
    let (ifTrue, b) ← ifTrue.build b
    let (ifFalse, b) ← ifFalse.build b
    pure (b.condValue condition ifTrue ifFalse)

end Expr

namespace Stmt

/-- Seal a block and go on in it. -/
def enterSealed (b : Builder) (block : NodeId) : Except Fault Builder := do
  let b ← b.sealBlock block
  pure (b.enter block)

/-- Leave an arm: jump on, unless it has returned. -/
def leave (target : NodeId) (r : Flow × Builder) : Builder :=
  match r with
  | (.continues, b) => (b.jump target).2
  | (.returns, b) => b

/-- **Build a statement** from the current block on. -/
def build (b : Builder) : Stmt → Except Fault (Flow × Builder)
  | skip => pure (.continues, b)
  | seq first rest => do
    match ← first.build b with
    | (.returns, b) => pure (.returns, b)
    | (.continues, b) => rest.build b
  | declare _ _ none => pure (.continues, b)
  | declare name _ (some init) => do
    let (value, b) ← init.build b
    pure (.continues, b.write (.var name) b.current value)
  | assign name none value => do
    let (value, b) ← value.build b
    pure (.continues, b.write (.var name) b.current value)
  | assign name (some op) value => do
    let (rhs, b) ← value.build b
    let (lhs, b) ← b.read (.var name) b.current
    let (value, b) ← b.operate op lhs rhs
    pure (.continues, b.write (.var name) b.current value)
  | ifThen condition body => do
    let (condition, b) ← condition.build b
    let (thenBlock, b) := b.newBlock "then"
    let (merge, b) := b.newBlock "merge"
    let (_, b) := b.condJump condition thenBlock merge
    let b ← enterSealed b thenBlock
    let done ← body.build b
    let b ← enterSealed (leave merge done) merge
    pure (.continues, b)
  | ifElse condition body otherwise => do
    let (condition, b) ← condition.build b
    let (thenBlock, b) := b.newBlock "then"
    let (elseBlock, b) := b.newBlock "else"
    let (merge, b) := b.newBlock "merge"
    let (_, b) := b.condJump condition thenBlock elseBlock
    let b ← enterSealed b thenBlock
    let thenDone ← body.build b
    let b ← enterSealed (leave merge thenDone) elseBlock
    let elseDone ← otherwise.build b
    let b ← enterSealed (leave merge elseDone) merge
    let flow := if thenDone.1 = .returns ∧ elseDone.1 = .returns then .returns else .continues
    pure (flow, b)
  | loop condition body => do
    let (header, b) := b.newBlock "header"
    let (bodyBlock, b) := b.newBlock "body"
    let (exit, b) := b.newBlock "exit"
    let (_, b) := b.jump header
    let (condition, b) ← condition.build (b.enter header)
    let (_, b) := b.condJump condition bodyBlock exit
    let b ← enterSealed b bodyBlock
    let done ← body.build b
    let b ← (leave header done).sealBlock header
    let b ← enterSealed b exit
    pure (.continues, b)
  | ret value => do
    let (value, b) ← value.build b
    let (_, b) ← b.ret value
    pure (.returns, b)

end Stmt

/-- **The graph of a function**, with the counts and the log of its
construction. -/
structure FunctionGraph where
  graph : Graph
  phisRemoved : Nat
  valuesReused : Nat
  conditionalsLowered : Nat
  log : Log

/-- **Build the graph of a function.** -/
def Function.toGraph (f : Function) : Except Fault FunctionGraph := do
  let (_, b) ← f.body.build (Builder.init f.name true)
  let (lowered, d) := b.finish.lowerConditionals
  let built := Event.graphBuilt f.name d.graph.size b.phisRemoved d.hits lowered
  pure {
    graph := d.graph
    phisRemoved := b.phisRemoved
    valuesReused := d.hits
    conditionalsLowered := lowered
    log := d.log.push built }

end SsaCompiler
