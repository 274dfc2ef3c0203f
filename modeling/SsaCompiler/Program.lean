import SsaCompiler.Operator

/-!
# Source programs

A function body is a **statement**. Sequences are built from `skip` and
`seq` rather than from lists, so that a statement is a plain inductive type
and every property of bodies is proved by plain induction; `Stmt.block`
gives the list view.

Variables are function-wide and need no declaration: a declaration without
a value does nothing, and one with a value is an assignment. Types are kept
because a well-typed function is what the meaning of a program is stated
for; nothing in the compiler consults them.
-/

namespace SsaCompiler

/-- The scalar types. -/
inductive Ty where
  | int
  | bool
deriving DecidableEq

/-- Expressions. -/
inductive Expr where
  /-- An integer literal. -/
  | int (value : Word)
  /-- A truth value. -/
  | bool (value : Bool)
  /-- The value of a variable. -/
  | var (name : String)
  /-- Two operands joined by an operator, evaluated left to right. -/
  | binary (op : Operator) (lhs rhs : Expr)
  /-- Arithmetic negation. -/
  | neg (operand : Expr)
  /-- Bitwise complement. -/
  | bitNot (operand : Expr)
  /-- Logical negation. -/
  | logicNot (operand : Expr)
  /-- The value of one of two arms; both arms are evaluated. -/
  | cond (condition ifTrue ifFalse : Expr)
deriving DecidableEq

/-- Statements. -/
inductive Stmt where
  /-- The empty statement. -/
  | skip
  /-- Two statements, one after the other. -/
  | seq (first rest : Stmt)
  /-- A declaration with an optional first value. -/
  | declare (name : String) (ty : Ty) (init : Option Expr)
  /-- An assignment, or a compound one when an operator is given. -/
  | assign (name : String) (op : Option Operator) (value : Expr)
  /-- A branch without an alternative. -/
  | ifThen (condition : Expr) (body : Stmt)
  /-- A branch with an alternative. -/
  | ifElse (condition : Expr) (body otherwise : Stmt)
  /-- A loop that tests its condition first. -/
  | loop (condition : Expr) (body : Stmt)
  /-- The end of the function, with its result. -/
  | ret (value : Expr)
deriving DecidableEq

namespace Stmt

/-- **A list of statements as one statement.** -/
def block (statements : List Stmt) : Stmt :=
  statements.foldr seq skip

/-- **Whether a statement returns on every path**, judged by its shape
alone: a branch returns when it has two arms and both return, and a loop
never counts as returning. -/
def returns : Stmt → Bool
  | skip => false
  | seq first rest => first.returns || rest.returns
  | declare .. => false
  | assign .. => false
  | ifThen .. => false
  | ifElse _ body otherwise => body.returns && otherwise.returns
  | loop .. => false
  | ret _ => true

end Stmt

/-- **A function** without parameters that returns a word. -/
structure Function where
  name : String
  body : Stmt
deriving DecidableEq

/-- A program is a list of functions. -/
abbrev Program := List Function

end SsaCompiler
