import SsaCompiler.Machine.Register

/-!
# Instructions

The instructions a compiled function consists of, as values; their text is
AT&T syntax, with the source before the destination. A local label is
written with `.L` before it, which keeps it apart from every function's
name.
-/

namespace SsaCompiler

/-- A source operand: a number, or the contents of a place. -/
inductive Operand where
  | imm (value : Int)
  | loc (place : Location)
deriving DecidableEq

/-- The text of an operand. -/
def Operand.text : Operand → String
  | imm value => s!"${value}"
  | loc place => place.text

/-- Two-operand arithmetic. -/
inductive AluOp where
  | add
  | sub
  | imul
  | and
  | or
  | xor
deriving DecidableEq

/-- The mnemonic of an arithmetic instruction. -/
def AluOp.mnemonic : AluOp → String
  | add => "addl"
  | sub => "subl"
  | imul => "imull"
  | and => "andl"
  | or => "orl"
  | xor => "xorl"

/-- Shifts by the count in `%cl`. -/
inductive ShiftOp where
  | left
  | right
deriving DecidableEq

/-- The mnemonic of a shift; a right shift keeps the sign. -/
def ShiftOp.mnemonic : ShiftOp → String
  | left => "sall"
  | right => "sarl"

/-- The outcomes of a signed comparison that a jump may test. -/
inductive Condition where
  | less
  | lessEq
  | greater
  | greaterEq
  | equal
  | notEqual
deriving DecidableEq

/-- The mnemonic of a jump on a condition. -/
def Condition.mnemonic : Condition → String
  | less => "jl"
  | lessEq => "jle"
  | greater => "jg"
  | greaterEq => "jge"
  | equal => "je"
  | notEqual => "jne"

/-- **An instruction.** -/
inductive Instr where
  /-- Call a symbol. -/
  | call (symbol : String)
  /-- Return to the caller. -/
  | ret
  /-- Enter the operating system. -/
  | syscall
  /-- Push a 64-bit register. -/
  | push (r : Register)
  /-- Pop a 64-bit register. -/
  | pop (r : Register)
  /-- Copy a 64-bit register. -/
  | movq (src dst : Register)
  /-- Load a 64-bit register with a number, written in base sixteen. -/
  | movqImm (value : Nat) (dst : Register)
  /-- Subtract a number of bytes from a 64-bit register. -/
  | subq (bytes : Nat) (dst : Register)
  /-- Copy a word. -/
  | movl (src : Operand) (dst : Location)
  /-- Combine a word with the destination. -/
  | alu (op : AluOp) (src dst : Location)
  /-- Shift the destination by the count register. -/
  | shift (op : ShiftOp) (dst : Location)
  /-- Extend the sign of `%eax` into `%edx`. -/
  | cltd
  /-- Divide `%edx:%eax`. -/
  | idivl (divisor : Location)
  /-- Compare the second operand with the first. -/
  | cmpl (src : Operand) (dst : Location)
  /-- Go to a local label. -/
  | jmp (label : String)
  /-- Go to a local label if the last comparison came out so. -/
  | jcc (condition : Condition) (label : String)
deriving DecidableEq

/-- The digits of a number in base sixteen, in capitals. -/
def hexDigits (n : Nat) : String :=
  String.ofList ((Nat.toDigits 16 n).map Char.toUpper)

/-- The text of a local label. -/
def localLabel (label : String) : String :=
  s!".L{label}"

namespace Instr

/-- **The mnemonic of an instruction.** -/
def mnemonic : Instr → String
  | call _ => "call"
  | ret => "ret"
  | syscall => "syscall"
  | push _ => "pushq"
  | pop _ => "popq"
  | movq _ _ => "movq"
  | movqImm _ _ => "movq"
  | subq _ _ => "subq"
  | movl _ _ => "movl"
  | alu op _ _ => op.mnemonic
  | shift op _ => op.mnemonic
  | cltd => "cltd"
  | idivl _ => "idivl"
  | cmpl _ _ => "cmpl"
  | jmp _ => "jmp"
  | jcc condition _ => condition.mnemonic

/-- The operands of an instruction, source first. -/
def operandTexts : Instr → List String
  | call symbol => [symbol]
  | ret | syscall | cltd => []
  | push r | pop r => [r.name64]
  | movq src dst => [src.name64, dst.name64]
  | movqImm value dst => [s!"$0x{hexDigits value}", dst.name64]
  | subq bytes dst => [s!"${bytes}", dst.name64]
  | movl src dst => [src.text, dst.text]
  | alu _ src dst => [src.text, dst.text]
  | shift _ dst => ["%cl", dst.text]
  | idivl divisor => [divisor.text]
  | cmpl src dst => [src.text, dst.text]
  | jmp label | jcc _ label => [localLabel label]

/-- The text of an instruction. -/
def text (i : Instr) : String :=
  match i.operandTexts with
  | [] => i.mnemonic
  | operands => i.mnemonic ++ " " ++ ", ".intercalate operands

end Instr

/-- **A line of assembly.** -/
inductive Asm where
  | instr (i : Instr)
  /-- The definition of a local label. -/
  | label (name : String)
  /-- The definition of a function's symbol. -/
  | symbol (name : String)
  /-- A symbol made visible to other files. -/
  | globl (name : String)
  | blank
deriving DecidableEq

namespace Asm

/-- The text of a line; instructions are indented by two spaces. -/
def text : Asm → String
  | instr i => s!"  {i.text}\n"
  | label name => s!"{localLabel name}:\n"
  | symbol name => s!"{name}:\n"
  | globl name => s!".global {name}\n"
  | blank => "\n"

/-- The instructions among some lines. -/
def instructions (code : List Asm) : List Instr :=
  code.filterMap fun
    | instr i => some i
    | _ => none

/-- **The text of assembly code.** -/
def render (code : List Asm) : String :=
  String.join (code.map text)

end Asm

end SsaCompiler
