/-!
# Registers and places of the machine

The target has sixteen general registers. A value is a word of 32 bits, and
a register is written by its 32-bit name wherever it holds one.

Some registers have a role of their own and are never given to a value:
`%eax` and `%edx` serve division, `%ecx` holds the count of a shift, `%r14d`
receives an operand from the stack before it is used, and `%r15d` stands in
for a stack slot while a result is computed, or breaks a circle of copies. The stack and
frame pointers hold the frame.
-/

namespace SsaCompiler

/-- The general registers. -/
inductive Register where
  | rax | rbx | rcx | rdx | rsi | rdi | rbp | rsp
  | r8 | r9 | r10 | r11 | r12 | r13 | r14 | r15
deriving DecidableEq

namespace Register

/-- **The registers given to values**, those preferred first. -/
def allocatable : List Register :=
  [rbx, rsi, rdi, r8, r9, r10, r11, r12, r13]

/-- Whether a register may be given to a value. -/
def isAllocatable (r : Register) : Bool :=
  allocatable.contains r

/-- Receives an operand from the stack before it is used. -/
def sourceScratch : Register := r14

/-- Stands in for a stack slot while a result is computed; breaks circles of
copies. -/
def destScratch : Register := r15

/-- The dividend of a division, and its quotient. -/
def dividend : Register := rax

/-- The high half of a dividend, and the remainder. -/
def remainder : Register := rdx

/-- The count of a shift. -/
def shiftCount : Register := rcx

/-- The 32-bit name. -/
def name32 : Register → String
  | rax => "%eax"
  | rbx => "%ebx"
  | rcx => "%ecx"
  | rdx => "%edx"
  | rsi => "%esi"
  | rdi => "%edi"
  | rbp => "%ebp"
  | rsp => "%esp"
  | r8 => "%r8d"
  | r9 => "%r9d"
  | r10 => "%r10d"
  | r11 => "%r11d"
  | r12 => "%r12d"
  | r13 => "%r13d"
  | r14 => "%r14d"
  | r15 => "%r15d"

/-- The 64-bit name. -/
def name64 : Register → String
  | rax => "%rax"
  | rbx => "%rbx"
  | rcx => "%rcx"
  | rdx => "%rdx"
  | rsi => "%rsi"
  | rdi => "%rdi"
  | rbp => "%rbp"
  | rsp => "%rsp"
  | r8 => "%r8"
  | r9 => "%r9"
  | r10 => "%r10"
  | r11 => "%r11"
  | r12 => "%r12"
  | r13 => "%r13"
  | r14 => "%r14"
  | r15 => "%r15"

end Register

/-- **Where a value lives**: in a register, or on the stack at an offset in
bytes from the stack pointer. -/
inductive Location where
  | reg (r : Register)
  | stack (offset : Int)
deriving DecidableEq

namespace Location

/-- Whether the place is in memory. -/
def isStack : Location → Bool
  | reg _ => false
  | stack _ => true

/-- The operand text of a place. -/
def text : Location → String
  | reg r => r.name32
  | stack offset => s!"{offset}(%rsp)"

end Location

end SsaCompiler
