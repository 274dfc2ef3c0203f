import SsaCompiler.Machine.Instruction
import SsaCompiler.Proofs.Machine.Memory
import SsaCompiler.Proofs.Meaning

/-!
# How the machine runs

The part of the x86-64 machine that compiled functions use. A general
register holds 64 bits; an instruction on words reads the low half of a
register and **clears the high half of the register it writes**. A
comparison leaves the flags of a subtraction, which the jumps on a
condition test. What other instructions leave in the flags is not
promised: they are then unknown, and a jump that would test them is stuck.
So is an instruction with two operands in memory, which has no encoding.

Code is a list of assembly lines. An execution is a machine and the
code that is still ahead of it; a jump goes to the code behind the
definition of its label. `Steps` is any number of steps, and a
execution `Traps` when its next instruction is a division that the
machine refuses.
-/

namespace SsaCompiler

/-! ## Flags -/

/-- **The outcome of a subtraction**, as far as signed comparisons look at
it. -/
structure Flags where
  zero : Bool
  sign : Bool
  overflow : Bool

namespace Flags

/-- The flags that comparing `a` with `b` leaves, those of `a - b`. -/
def ofCompare (a b : Word) : Flags :=
  { zero := a - b == 0, sign := (a - b).msb, overflow := BitVec.ssubOverflow a b }

end Flags

/-- **Whether a condition holds** of the last comparison. -/
def Condition.holds : Condition → Flags → Bool
  | less, f => f.sign != f.overflow
  | lessEq, f => f.zero || f.sign != f.overflow
  | greater, f => !f.zero && f.sign == f.overflow
  | greaterEq, f => f.sign == f.overflow
  | equal, f => f.zero
  | notEqual, f => !f.zero

/-! ## Words in registers and in memory -/

/-- **The machine**: its registers, the flags if they are known, and its
memory. -/
structure Machine where
  regs : Register → BitVec 64
  flags : Option Flags
  mem : Memory

namespace Machine

/-- The address of a stack slot. -/
def address (m : Machine) (offset : Int) : Address :=
  m.regs .rsp + BitVec.ofInt 64 offset

/-- **The word in a place.** -/
def get (m : Machine) : Location → Word
  | .reg r => (m.regs r).setWidth 32
  | .stack offset => BitVec.ofNat 32 (m.mem.read (m.address offset) 4)

/-- Set a 64-bit register. -/
def setReg (m : Machine) (r : Register) (value : BitVec 64) : Machine :=
  { m with regs := fun r' => if r' = r then value else m.regs r' }

/-- **Put a word into a place.** A register is filled up with zeros. -/
def set (m : Machine) : Location → Word → Machine
  | .reg r, w => m.setReg r (w.setWidth 64)
  | .stack offset, w => { m with mem := m.mem.write (m.address offset) 4 w.toNat }

/-- Forget the flags. -/
def clobberFlags (m : Machine) : Machine :=
  { m with flags := none }

/-- The value of a source operand. -/
def value (m : Machine) : Operand → Word
  | .imm v => BitVec.ofInt 32 v
  | .loc place => m.get place

end Machine

/-! ## Instructions -/

/-- The word a two-operand instruction computes from its destination and
its source. -/
def AluOp.eval : AluOp → Word → Word → Word
  | add, a, b => a + b
  | sub, a, b => a - b
  | imul, a, b => a * b
  | and, a, b => a &&& b
  | or, a, b => a ||| b
  | xor, a, b => a ^^^ b

/-- The word a shift computes; the count is taken modulo 32. -/
def ShiftOp.eval : ShiftOp → Word → Word → Word
  | left, a, count => a <<< (count.toNat % 32)
  | right, a, count => a.sshiftRight (count.toNat % 32)

/-- **Divide a 64-bit number by a word**: quotient and remainder, none when
the divisor is zero or the quotient does not fit a word. -/
def Word.divide (high low divisor : Word) : Option (Word × Word) :=
  let dividend := (high ++ low : BitVec 64).toInt
  let quotient := dividend.tdiv divisor.toInt
  if divisor = 0 ∨ quotient < -2 ^ 31 ∨ 2 ^ 31 ≤ quotient then none
  else some (BitVec.ofInt 32 quotient, BitVec.ofInt 32 (dividend.tmod divisor.toInt))

namespace Instr

/-- **Whether an instruction has an encoding**: not both operands can be in
memory, and a product goes to a register. -/
def isEncodable : Instr → Bool
  | movl (.loc src) dst => !(src.isStack && dst.isStack)
  | alu op src dst => !(src.isStack && dst.isStack) && !(op = .imul && dst.isStack)
  | cmpl (.loc src) dst => !(src.isStack && dst.isStack)
  | _ => true

/-- The effect of an instruction that has an encoding and does not jump. -/
def effect : Instr → Machine → Option Machine
  | push r, m =>
    let top := m.regs .rsp - 8
    some { m.setReg .rsp top with mem := m.mem.write top 8 (m.regs r).toNat }
  | pop r, m =>
    let top := BitVec.ofNat 64 (m.mem.read (m.regs .rsp) 8)
    some ((m.setReg .rsp (m.regs .rsp + 8)).setReg r top)
  | movq src dst, m => some (m.setReg dst (m.regs src))
  | movqImm value dst, m => some (m.setReg dst (BitVec.ofNat 64 value))
  | subq bytes dst, m =>
    some (m.setReg dst (m.regs dst - BitVec.ofNat 64 bytes)).clobberFlags
  | movl src dst, m => some (m.set dst (m.value src))
  | alu op src dst, m => some (m.set dst (op.eval (m.get dst) (m.get src))).clobberFlags
  | shift op dst, m =>
    some (m.set dst (op.eval (m.get dst) (m.get (.reg .shiftCount)))).clobberFlags
  | cltd, m =>
    some (m.set (.reg .remainder) (if (m.get (.reg .dividend)).msb then -1 else 0))
  | idivl divisor, m =>
    (Word.divide (m.get (.reg .remainder)) (m.get (.reg .dividend)) (m.get divisor)).map
      fun (quotient, rest) =>
        ((m.set (.reg .dividend) quotient).set (.reg .remainder) rest).clobberFlags
  | cmpl src dst, m => some { m with flags := some (.ofCompare (m.get dst) (m.value src)) }
  | call _, _ | ret, _ | syscall, _ | jmp _, _ | jcc _ _, _ => none

/-- **Execute an instruction that does not jump.** -/
def exec (i : Instr) (m : Machine) : Option Machine :=
  if i.isEncodable then i.effect m else none

end Instr

/-! ## Agreement with the operators -/

/-- **The sign of a difference and its overflow** tell which number is
less. -/
theorem Flags.sign_bne_overflow (a b : Word) :
    ((ofCompare a b).sign != (ofCompare a b).overflow) = a.slt b := by
  have ha := BitVec.le_toInt a
  have ha' := BitVec.toInt_lt (x := a)
  have hb := BitVec.le_toInt b
  have hb' := BitVec.toInt_lt (x := b)
  have diff : (a - b).toInt = (a.toInt - b.toInt).bmod (2 ^ 32) := BitVec.toInt_sub
  have sign : (a - b).msb = decide ((a - b).toInt < 0) := BitVec.msb_eq_toInt
  show ((a - b).msb != BitVec.ssubOverflow a b) = _
  rw [BitVec.slt_eq_decide, sign, BitVec.ssubOverflow, diff, Int.bmod_def]
  rcases lt_trichotomy a.toInt b.toInt with h | h | h
  · by_cases o : a.toInt - b.toInt < -2 ^ 31
    · rw [decide_eq_false (by omega), decide_eq_true (h),
        decide_eq_true (o)]
      simp
    · rw [decide_eq_true (by omega), decide_eq_true (h),
        decide_eq_false (o), decide_eq_false (by omega)]
      simp
  · rw [h]
    simp
  · have notLess : ¬ a.toInt < b.toInt := by omega
    by_cases o : a.toInt - b.toInt ≥ 2 ^ 31
    · rw [decide_eq_true (by omega), decide_eq_false notLess,
        decide_eq_true (o)]
      simp
    · rw [decide_eq_false (by omega), decide_eq_false notLess,
        decide_eq_false (o), decide_eq_false (by omega)]
      simp

theorem Flags.zero_ofCompare (a b : Word) : (ofCompare a b).zero = (a == b) := by
  show (a - b == 0) = (a == b)
  rw [Bool.eq_iff_iff, beq_iff_eq, beq_iff_eq]
  bv_omega

theorem Word.toInt_sign_append (a : Word) :
    ((if a.msb then -1 else 0 : Word) ++ a : BitVec 64).toInt = a.toInt := by
  rw [BitVec.toInt_append, if_neg (by decide), BitVec.toInt_eq_msb_cond a]
  split
  · rw [show (-1 : Word).toInt = -1 by decide]
    omega
  · rw [show (0 : Word).toInt = 0 by decide]
    omega

/-- **Dividing a word with its sign extended** is the division of words. -/
theorem Word.divide_sign (a b : Word) : Word.divide (if a.msb then -1 else 0) a b
      = if Word.divisionTraps a b then none else some (a.sdiv b, a.srem b) := by
  unfold divide
  simp only [toInt_sign_append]
  by_cases ht : divisionTraps a b = true
  · rw [if_pos ht, if_pos]
    rcases Bool.or_eq_true _ _ ▸ ht with h | h
    · exact .inl (by simpa using h)
    · refine .inr (.inr ?_)
      obtain ⟨ha, hb⟩ := Bool.and_eq_true _ _ ▸ h
      rw [eq_of_beq ha, eq_of_beq hb]
      decide
  · have hb : b ≠ 0 := fun e => ht (by rw [e]; rfl)
    have hab : a ≠ BitVec.intMin 32 ∨ b ≠ -1#32 := by
      by_contra h
      rw [not_or, not_not, not_not] at h
      exact ht (by rw [h.1, h.2]; decide)
    have quotient := BitVec.toInt_sdiv_of_ne_or_ne a b hab
    have low := BitVec.le_toInt (a.sdiv b)
    have high := BitVec.toInt_lt (x := a.sdiv b)
    rw [if_neg ht, ← quotient, ← BitVec.toInt_srem, BitVec.ofInt_toInt, BitVec.ofInt_toInt, if_neg]
    rintro (h | h | h)
    · exact hb h
    · omega
    · omega

/-! ## Code -/

/-- **A machine with the code ahead of it.** -/
structure Execution where
  machine : Machine
  code : List Asm

namespace Asm

/-- The code behind the definition of a label. -/
def target (code : List Asm) (name : String) : Option (List Asm) :=
  match code.dropWhile (· ≠ label name) with
  | _ :: rest => some rest
  | [] => none

end Asm

namespace Execution

/-- **One step**, none when the machine stops or is stuck. Lines that are no
instructions are passed over. -/
def step (program : List Asm) (c : Execution) : Option Execution :=
  match c.code with
  | .instr (.jmp name) :: _ => (Asm.target program name).map (⟨c.machine, ·⟩)
  | .instr (.jcc condition name) :: rest =>
    match c.machine.flags with
    | some f =>
      if condition.holds f then (Asm.target program name).map (⟨c.machine, ·⟩)
      else some ⟨c.machine, rest⟩
    | none => none
  | .instr i :: rest => (i.exec c.machine).map (⟨·, rest⟩)
  | _ :: rest => some ⟨c.machine, rest⟩
  | [] => none

/-- **Any number of steps.** -/
def Steps (program : List Asm) : Execution → Execution → Prop :=
  Relation.ReflTransGen fun c d => c.step program = some d

/-- **The next instruction is a division that traps.** -/
def Traps (c : Execution) : Prop :=
  ∃ divisor rest, c.code = .instr (.idivl divisor) :: rest ∧
    Word.divide (c.machine.get (.reg .remainder)) (c.machine.get (.reg .dividend))
      (c.machine.get divisor) = none

/-- **The next instruction returns to the caller.** -/
def Returns (c : Execution) : Prop :=
  ∃ rest, c.code = .instr .ret :: rest

end Execution

end SsaCompiler
