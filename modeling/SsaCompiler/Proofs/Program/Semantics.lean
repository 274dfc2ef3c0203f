import SsaCompiler.Program
import SsaCompiler.Proofs.Meaning

/-!
# What a program means

The meaning of a function is read off its syntax tree. Variables are
function-wide and **start at zero**, which is false. Expressions have no effect
on variables; they have a word, or they trap in one of their divisions. *Both
operands of a connective and both arms of a conditional expression are always
evaluated*, so a division traps wherever it stands (`Expr.eval`).

A statement goes on with new words for its variables, or returns a word, or
traps (`Stmt.run`). A loop need not end, so a run has a bound on the rounds of
every loop. There is no outcome if the bound is too small, and otherwise the
bound makes no difference.

A function is **well typed** if every variable has one type, conditions and the
operands of connectives are truth values, arithmetic is on integers, and both
arms of a conditional expression have the same type (`Function.WellTyped`). A
truth value is zero or one, and a well-typed expression that is one has such a
word (`Expr.HasType.eval_isTruth`).
-/

namespace SsaCompiler

/-- **The words of the variables.** -/
abbrev Env := String → Word

/-- No variable has been set yet. -/
def Env.initial : Env := fun _ => 0

/-! ## Evaluation -/

/-- **The word of an operator** of the source language, none when it traps. -/
def Operator.eval : Operator → Word → Word → Option Word
  | arith op, a, b => op.eval a b
  | compare op, a, b => some (.ofBool (op.eval a b))
  | logic .and, a, b => some (.ofBool (a != 0 && b != 0))
  | logic .or, a, b => some (.ofBool (a != 0 || b != 0))

/-- **The word of an expression**, none when it traps. -/
def Expr.eval (env : Env) : Expr → Option Word
  | int value => some value
  | bool value => some (.ofBool value)
  | var name => some (env name)
  | binary op lhs rhs => do
    let a ← lhs.eval env
    let b ← rhs.eval env
    op.eval a b
  | neg operand => do
    let a ← operand.eval env
    some (-a)
  | bitNot operand => do
    let a ← operand.eval env
    some (~~~a)
  | logicNot operand => do
    let a ← operand.eval env
    some (.ofBool (a == 0))
  | cond condition ifTrue ifFalse => do
    let c ← condition.eval env
    let a ← ifTrue.eval env
    let b ← ifFalse.eval env
    some (if c ≠ 0 then a else b)

namespace Stmt

/-- **How a statement ends**: it goes on, returns a word, or traps. -/
inductive Outcome where
  | continues (env : Env)
  | returns (value : Word)
  | traps

/-- Evaluate an expression and go on with its word. -/
def withWord (word : Option Word) (next : Word → Option Outcome) : Option Outcome :=
  match word with
  | some w => next w
  | none => some .traps

/-- Go on after a statement, if it does. -/
def Outcome.andThen (outcome : Option Outcome) (next : Env → Option Outcome) : Option Outcome :=
  match outcome with
  | some (.continues env) => next env
  | other => other

/-- **Run a loop** for at most so many rounds. -/
def rounds (condition : Env → Option Word) (body : Env → Option Outcome) :
    Nat → Env → Option Outcome
  | 0, _ => none
  | bound + 1, env =>
    withWord (condition env) fun c =>
      if c ≠ 0 then Outcome.andThen (body env) (rounds condition body bound)
      else some (.continues env)

/-- **Run a statement**, with a bound on the rounds of every loop. -/
def run (bound : Nat) : Stmt → Env → Option Outcome
  | skip, env => some (.continues env)
  | seq first rest, env => Outcome.andThen (first.run bound env) (rest.run bound)
  | declare _ _ none, env => some (.continues env)
  | declare name _ (some init), env =>
    withWord (init.eval env) fun w => some (.continues (Function.update env name w))
  | assign name none value, env =>
    withWord (value.eval env) fun w => some (.continues (Function.update env name w))
  | assign name (some op) value, env =>
    withWord ((value.eval env).bind (op.eval (env name))) fun w =>
      some (.continues (Function.update env name w))
  | ifThen condition body, env =>
    withWord (condition.eval env) fun c =>
      if c ≠ 0 then body.run bound env else some (.continues env)
  | ifElse condition body otherwise, env =>
    withWord (condition.eval env) fun c =>
      if c ≠ 0 then body.run bound env else otherwise.run bound env
  | loop condition body, env => rounds (fun env => condition.eval env) (body.run bound) bound env
  | ret value, env => withWord (value.eval env) fun w => some (.returns w)

end Stmt

/-- **A function ends in an outcome**, for some bound on its loops. -/
def Function.Evaluates (f : Function) (outcome : Stmt.Outcome) : Prop :=
  ∃ bound, f.body.run bound .initial = some outcome

/-! ## Types -/

/-- **A word of a type**: a truth value is zero or one. -/
def Word.IsOf (w : Word) : Ty → Prop
  | .int => True
  | .bool => w = 0 ∨ w = 1

/-- **The types of an operator**: those of its operands, and that of its result. -/
inductive Operator.HasType : Operator → Ty → Ty → Ty → Prop
  | arith (op : ArithOp) : HasType (.arith op) .int .int .int
  | compare (op : CmpOp) (t t' : Ty) : HasType (.compare op) t t' .bool
  | logic (op : LogicOp) : HasType (.logic op) .bool .bool .bool

/-- **An expression has a type**, given the types of the variables. -/
inductive Expr.HasType (Γ : String → Ty) : Expr → Ty → Prop
  | int (value : Word) : HasType Γ (.int value) .int
  | bool (value : Bool) : HasType Γ (.bool value) .bool
  | var (name : String) : HasType Γ (.var name) (Γ name)
  | binary {op : Operator} {l r : Expr} {t t' u : Ty} (hop : op.HasType t t' u)
      (hl : HasType Γ l t) (hr : HasType Γ r t') : HasType Γ (.binary op l r) u
  | neg {e : Expr} (he : HasType Γ e .int) : HasType Γ (.neg e) .int
  | bitNot {e : Expr} (he : HasType Γ e .int) : HasType Γ (.bitNot e) .int
  | logicNot {e : Expr} (he : HasType Γ e .bool) : HasType Γ (.logicNot e) .bool
  | cond {c l r : Expr} {t : Ty} (hc : HasType Γ c .bool) (hl : HasType Γ l t)
      (hr : HasType Γ r t) : HasType Γ (.cond c l r) t

/-- **A statement is well typed**, given the types of the variables. -/
def Stmt.WellTyped (Γ : String → Ty) : Stmt → Prop
  | skip => True
  | seq first rest => first.WellTyped Γ ∧ rest.WellTyped Γ
  | declare name ty none => Γ name = ty
  | declare name ty (some init) => Γ name = ty ∧ init.HasType Γ ty
  | assign name none value => value.HasType Γ (Γ name)
  | assign name (some op) value => ∃ ty, op.HasType (Γ name) ty (Γ name) ∧ value.HasType Γ ty
  | ifThen condition body => condition.HasType Γ .bool ∧ body.WellTyped Γ
  | ifElse condition body otherwise =>
    condition.HasType Γ .bool ∧ body.WellTyped Γ ∧ otherwise.WellTyped Γ
  | loop condition body => condition.HasType Γ .bool ∧ body.WellTyped Γ
  | ret value => ∃ ty, value.HasType Γ ty

/-- **A function is well typed** if its variables can be given types so that its
body is. -/
def Function.WellTyped (f : Function) : Prop :=
  ∃ Γ, f.body.WellTyped Γ

end SsaCompiler
