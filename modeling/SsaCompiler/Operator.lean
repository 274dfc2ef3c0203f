/-!
# Operators

The language computes on 32-bit words. Its operators come in three
families that the compiler treats differently: **arithmetic** operators
compute a word from two words, **comparisons** compute a truth value, and
**connectives** join two truth values.

Only division and remainder can trap, so only they take part in the effect
chain of a function (`ArithOp.hasEffect`). Everything else may be
computed anywhere, in any order, and shared, which is what value numbering
relies on.
-/

namespace SsaCompiler

/-- **A machine word**: 32 bits, read as a signed number when printed. -/
abbrev Word := BitVec 32

/-- The signed decimal text of a word. -/
def Word.text (w : Word) : String :=
  toString w.toInt

/-- Arithmetic, bitwise and shift operators. -/
inductive ArithOp where
  | add
  | sub
  | mul
  | div
  | mod
  | bitAnd
  | bitOr
  | bitXor
  | shl
  | shr
deriving DecidableEq

/-- Signed comparisons of two words. -/
inductive CmpOp where
  | less
  | lessEq
  | greater
  | greaterEq
  | equal
  | notEqual
deriving DecidableEq

/-- Connectives of two truth values. -/
inductive LogicOp where
  | and
  | or
deriving DecidableEq

/-- **An operator of the source language.** -/
inductive Operator where
  | arith (op : ArithOp)
  | compare (op : CmpOp)
  | logic (op : LogicOp)
deriving DecidableEq

/-- **What a binary node computes**: arithmetic, or a connective taken
bitwise on the words `0` and `1`. -/
inductive BinOp where
  | arith (op : ArithOp)
  | logic (op : LogicOp)
deriving DecidableEq

namespace ArithOp

/-- Whether the two operands may be exchanged. -/
def isCommutative : ArithOp → Bool
  | add | mul | bitAnd | bitOr | bitXor => true
  | sub | div | mod | shl | shr => false

/-- **Division and remainder may trap**, which the effect chain keeps in
order. -/
def hasEffect : ArithOp → Bool
  | div | mod => true
  | add | sub | mul | bitAnd | bitOr | bitXor | shl | shr => false

/-- The name shown in diagnostics. -/
def name : ArithOp → String
  | add => "Add"
  | sub => "Sub"
  | mul => "Mul"
  | div => "Div"
  | mod => "Mod"
  | bitAnd => "And"
  | bitOr => "Or"
  | bitXor => "Xor"
  | shl => "Shl"
  | shr => "Shr"

end ArithOp

namespace CmpOp

/-- Whether the two operands may be exchanged. -/
def isCommutative : CmpOp → Bool
  | equal | notEqual => true
  | less | lessEq | greater | greaterEq => false

/-- The name shown in diagnostics. -/
def name : CmpOp → String
  | less => "Less"
  | lessEq => "LessEq"
  | greater => "Greater"
  | greaterEq => "GreaterEq"
  | equal => "Equal"
  | notEqual => "NotEqual"

end CmpOp

namespace LogicOp

/-- The name shown in diagnostics. -/
def name : LogicOp → String
  | and => "LogicAnd"
  | or => "LogicOr"

end LogicOp

namespace BinOp

/-- Whether the two operands may be exchanged. -/
def isCommutative : BinOp → Bool
  | arith op => op.isCommutative
  | logic _ => true

/-- Whether the operation may trap. -/
def hasEffect : BinOp → Bool
  | arith op => op.hasEffect
  | logic _ => false

/-- The name shown in diagnostics. -/
def name : BinOp → String
  | arith op => op.name
  | logic op => op.name

end BinOp

end SsaCompiler
