import Mathlib.Tactic.Common
import SsaCompiler.Operator

/-!
# What the operators compute

The compiler moves operators around without ever computing one, so their
meaning is given here, once, for the source language, for the lines over
virtual registers and for the machine. **Arithmetic wraps at 32 bits**,
the count of a shift is taken modulo 32, a right shift keeps the sign, and
division goes toward zero.

A division has no result when the divisor is zero and when the quotient
does not fit a word, which happens for the least word divided by `-1`
alone. The remainder shares both conditions with the quotient, because the
machine computes the two with one instruction.
-/

namespace SsaCompiler

variable {op : BinOp}

namespace Word

/-- The word of a truth value. -/
def ofBool (b : Bool) : Word :=
  if b then 1 else 0

/-- **Whether a division traps**: its divisor is zero, or its quotient does
not fit a word. -/
def divisionTraps (a b : Word) : Bool :=
  b == 0 || (a == BitVec.intMin 32 && b == -1)

@[simp] theorem ofBool_true : ofBool true = 1 := rfl

@[simp] theorem ofBool_false : ofBool false = 0 := rfl

theorem ofBool_eq (b : Bool) : ofBool b = 0 ∨ ofBool b = 1 := by
  cases b
  · exact .inl rfl
  · exact .inr rfl

end Word

/-- **The value of an arithmetic operation**, none when it traps. -/
def ArithOp.eval : ArithOp → Word → Word → Option Word
  | add, a, b => some (a + b)
  | sub, a, b => some (a - b)
  | mul, a, b => some (a * b)
  | div, a, b => if Word.divisionTraps a b then none else some (a.sdiv b)
  | mod, a, b => if Word.divisionTraps a b then none else some (a.srem b)
  | bitAnd, a, b => some (a &&& b)
  | bitOr, a, b => some (a ||| b)
  | bitXor, a, b => some (a ^^^ b)
  | shl, a, b => some (a <<< (b.toNat % 32))
  | shr, a, b => some (a.sshiftRight (b.toNat % 32))

/-- **The outcome of a comparison** of two words, read with their signs. -/
def CmpOp.eval : CmpOp → Word → Word → Bool
  | less, a, b => a.slt b
  | lessEq, a, b => a.sle b
  | greater, a, b => b.slt a
  | greaterEq, a, b => b.sle a
  | equal, a, b => a == b
  | notEqual, a, b => a != b

/-- **The value of a binary operation**: arithmetic, or a connective taken
bit by bit. -/
def BinOp.eval : BinOp → Word → Word → Option Word
  | arith op, a, b => op.eval a b
  | logic .and, a, b => some (a &&& b)
  | logic .or, a, b => some (a ||| b)

/-- Only division and remainder trap. -/
theorem ArithOp.eval_isSome {op : ArithOp} (h : op.hasEffect = false) (a b : Word) :
    (op.eval a b).isSome := by
  cases op <;> first | rfl | exact absurd h (by decide)

theorem BinOp.eval_isSome (h : op.hasEffect = false) (a b : Word) : (op.eval a b).isSome := by
  cases op with
  | arith op => exact ArithOp.eval_isSome h a b
  | logic op => cases op <;> rfl

/-- **Exchanging the operands** of an operation that allows it keeps its
value. -/
theorem BinOp.eval_comm (h : op.isCommutative) (a b : Word) : op.eval a b = op.eval b a := by
  cases op with
  | arith op =>
    cases op <;> first
      | exact absurd h (by decide)
      | exact congrArg some (BitVec.add_comm a b)
      | exact congrArg some (BitVec.mul_comm a b)
      | exact congrArg some (BitVec.and_comm a b)
      | exact congrArg some (BitVec.or_comm a b)
      | exact congrArg some (BitVec.xor_comm a b)
  | logic op =>
    cases op
    · exact congrArg some (BitVec.and_comm a b)
    · exact congrArg some (BitVec.or_comm a b)

theorem CmpOp.eval_comm {op : CmpOp} (h : op.isCommutative) (a b : Word) :
    op.eval a b = op.eval b a := by
  cases op <;> first
    | exact absurd h (by decide)
    | exact BEq.comm
    | exact congrArg (!·) BEq.comm

end SsaCompiler
