import SsaCompiler.Proofs.Machine.Sequence

/-!
# What instructions modify

Every instruction names the places that it modifies (`Instr.modifies`). When it is
executed, **all other registers keep their 64 bits and all other bytes of the memory
stay as they are** (`Instr.spares_exec`). The same holds of a run through any number of
lines, if none of them moves the stack pointer or none of them writes to the stack: then
a slot is the same four bytes all the time (`Execution.spares_of_stepsThrough`).

The sequences for copies and operations use **no instruction with two operands in
memory**, they compute in registers, and they modify nothing but their target and the
scratch registers (`Instr.Confined`), whichever of their operands are on the stack.
-/

namespace SsaCompiler

open List Option Machine

variable {i : Instr} {src dst target lhs rhs : Location}

/-! ## Operands and effects of an instruction -/

/-- The place that a source operand names. -/
def Operand.place? : Operand → Option Location
  | imm _ => none
  | loc place => some place

namespace Instr

/-- **The places that are operands** of an instruction. -/
def operands : Instr → List Location
  | push r | pop r | movqImm _ r | subq _ r => [.reg r]
  | movq src dst => [.reg src, .reg dst]
  | movl src dst | cmpl src dst => src.place?.toList ++ [dst]
  | alu _ src dst => [src, dst]
  | shift _ dst => [dst]
  | idivl divisor => [divisor]
  | call _ | ret | syscall | cltd | jmp _ | jcc _ _ => []

/-- **The places that an instruction modifies.** A slot is given by its offset from the
stack pointer before the instruction. -/
def modifies : Instr → List Location
  | call _ | push _ => [.reg .rsp, .stack (-8), .stack (-4)]
  | ret => [.reg .rsp]
  | pop r => [.reg .rsp, .reg r]
  | syscall => [.reg .rax, .reg .rcx, .reg .r11]
  | movq _ dst | movqImm _ dst | subq _ dst => [.reg dst]
  | movl _ dst | alu _ _ dst | shift _ dst => [dst]
  | cltd => [.reg .rdx]
  | idivl _ => [.reg .rax, .reg .rdx]
  | cmpl _ _ | jmp _ | jcc _ _ => []

/-- **Computing is done in registers**: arithmetic and shifts leave their result in a
register, and a divisor is in a register that does not hold the dividend. -/
def InRegisters : Instr → Prop
  | alu _ _ dst | shift _ dst => dst.isStack = false
  | idivl divisor => ∃ r, divisor = .reg r ∧ r ≠ .rax ∧ r ≠ .rdx
  | _ => True

/-- **An instruction that can be encoded**: one operand in memory at most, and registers
where registers are needed. -/
structure Regular (i : Instr) : Prop where
  memory : i.operands.countP Location.isStack ≤ 1
  inRegisters : i.InRegisters

end Instr

/-! ## What stays -/

namespace Machine

variable {m m' m'' : Machine} {places more : List Location}

/-- **Two machines that differ in the given places at most.** The other registers agree,
and so does every byte that lies in none of the given slots. -/
structure Spares (places : List Location) (m m' : Machine) : Prop where
  regs : ∀ r, .reg r ∉ places → m'.regs r = m.regs r
  mem : ∀ x, (∀ offset, .stack offset ∈ places → 4 ≤ (x - m.address offset).toNat) →
    m'.mem x = m.mem x

theorem Spares.refl (places : List Location) (m : Machine) : Spares places m m :=
  ⟨fun _ _ => rfl, fun _ _ => rfl⟩

theorem Spares.mono (h : Spares places m m') (hs : places ⊆ more) : Spares more m m' :=
  ⟨fun r hr => h.regs r fun hm => hr (hs hm),
    fun x hx => h.mem x fun offset hm => hx offset (hs hm)⟩

theorem Spares.address_eq (h : Spares places m m') (hrsp : .reg .rsp ∉ places) (offset : Int) :
    m'.address offset = m.address offset := by
  unfold address
  rw [h.regs .rsp hrsp]

/-- **One change after another**, where the stack pointer stays or the stack does. -/
theorem Spares.trans (h : Spares places m m') (h' : Spares places m' m'')
    (hf : .reg .rsp ∉ places ∨ ∀ offset, .stack offset ∉ places) : Spares places m m'' := by
  refine ⟨fun r hr => (h'.regs r hr).trans (h.regs r hr), fun x hx => ?_⟩
  refine (h'.mem x fun offset hm => ?_).trans (h.mem x hx)
  rcases hf with hrsp | hs
  · rw [h.address_eq hrsp]
    exact hx offset hm
  · exact absurd hm (hs offset)

theorem spares_setReg (m : Machine) (r : Register) (v : BitVec 64) :
    Spares [.reg r] m (m.setReg r v) :=
  ⟨fun _ hr => regs_setReg_of_ne v fun e => hr (e ▸ mem_singleton_self _), fun _ _ => rfl⟩

theorem spares_set (m : Machine) (l : Location) (w : Word) : Spares [l] m (m.set l w) := by
  cases l with
  | reg r => exact spares_setReg m r _
  | stack offset =>
    refine ⟨fun _ _ => rfl, fun x hx => ?_⟩
    exact if_neg (Nat.not_lt.2 (hx offset (.head _)))

theorem Spares.clobberFlags (h : Spares places m m') : Spares places m m'.clobberFlags :=
  ⟨h.regs, h.mem⟩

end Machine

open Machine (Spares)

/-- **An instruction modifies the places it names and no others.** -/
theorem Instr.spares_exec {m m' : Machine} (h : i.exec m = some m') : Spares i.modifies m m' := by
  unfold exec at h
  split at h
  case isFalse => cases h
  case isTrue =>
    cases i with
    | push r =>
      cases h
      refine ⟨fun r' hr => ?_, fun x hx => ?_⟩
      · exact regs_setReg_of_ne _ fun e => hr (e ▸ mem_cons_self)
      · -- the eight bytes written are the two slots below the stack pointer
        have low := hx (-8) (by simp [modifies])
        have high := hx (-4) (by simp [modifies])
        refine if_neg fun hlt => ?_
        simp only [Machine.address] at low high
        bv_omega
    | pop r =>
      cases h
      refine (spares_setReg _ .rsp _ |>.mono (by simp [modifies])).trans
        (spares_setReg _ r _ |>.mono (by simp [modifies])) (.inr ?_)
      simp [modifies]
    | movq src dst | movqImm value dst =>
      cases h
      exact spares_setReg m dst _
    | subq bytes dst =>
      cases h
      exact (spares_setReg m dst _).clobberFlags
    | movl src dst =>
      cases h
      exact spares_set m dst _
    | alu op src dst | shift op dst =>
      cases h
      exact (spares_set m dst _).clobberFlags
    | cltd =>
      cases h
      exact spares_set m (.reg .rdx) _
    | idivl divisor =>
      obtain ⟨⟨quotient, rest⟩, -, rfl⟩ := map_eq_some_iff.1 h
      refine Spares.clobberFlags ((spares_set _ (.reg .rax) quotient |>.mono ?_).trans
        (spares_set _ (.reg .rdx) rest |>.mono ?_) (.inr ?_)) <;> simp [modifies]
    | cmpl src dst =>
      cases h
      exact ⟨fun _ _ => rfl, fun _ _ => rfl⟩
    | call | ret | syscall | jmp | jcc => cases h

/-! ## Runs through some lines -/

namespace Execution

variable {program code : List Asm} {c d : Execution} {places : List Location}

/-- **Any number of steps through lines of a piece of code.** -/
def StepsThrough (program code : List Asm) : Execution → Execution → Prop :=
  Relation.ReflTransGen fun c d =>
    c.step program = some d ∧ ∃ line ∈ code, ∃ rest, c.code = line :: rest

/-- One step modifies what its instruction modifies. -/
theorem spares_step {line : Asm} {rest : List Asm} (h : c.step program = some d)
    (hc : c.code = line :: rest) (hl : ∀ i, line = .instr i → i.modifies ⊆ places) :
    Spares places c.machine d.machine := by
  obtain ⟨m, code⟩ := c
  obtain rfl := hc
  cases line with
  | instr i =>
    have hsub := hl i rfl
    cases i with
    | jmp name =>
      obtain ⟨target, -, rfl⟩ := map_eq_some_iff.1 h
      exact .refl _ _
    | jcc condition name =>
      simp only [step] at h
      split at h
      · split at h
        · obtain ⟨target, -, rfl⟩ := map_eq_some_iff.1 h
          exact .refl _ _
        · cases h
          exact .refl _ _
      · cases h
    | _ =>
      simp only [step] at h
      obtain ⟨m', he, rfl⟩ := map_eq_some_iff.1 h
      exact (Instr.spares_exec he).mono hsub
  | label | symbol | globl | blank =>
    cases h
    exact .refl _ _

/-- **A run through lines that modify the given places only.** The stack pointer stays
or the stack does. -/
theorem spares_of_stepsThrough (h : StepsThrough program code c d)
    (hc : ∀ i, .instr i ∈ code → i.modifies ⊆ places)
    (hf : .reg .rsp ∉ places ∨ ∀ offset, .stack offset ∉ places) :
    Spares places c.machine d.machine := by
  induction h with
  | refl => exact .refl _ _
  | tail _ hs ih =>
    obtain ⟨hs, line, hl, rest, he⟩ := hs
    exact ih.trans (spares_step hs he fun i hi => hc i (hi ▸ hl)) hf

end Execution

/-! ## The sequences for copies and operations -/

namespace Instr

variable {places more : List Location} {a b : List Instr}

/-- **Code that can be encoded and modifies the given places only.** -/
def Confined (places : List Location) (code : List Instr) : Prop :=
  ∀ i ∈ code, i.Regular ∧ i.modifies ⊆ places

theorem Confined.mono (h : Confined places a) (hsub : places ⊆ more) : Confined more a :=
  fun i hi => ⟨(h i hi).1, List.Subset.trans (h i hi).2 hsub⟩

theorem confined_append : Confined places (a ++ b) ↔ Confined places a ∧ Confined places b :=
  forall_mem_append

theorem confined_nil : Confined places [] := fun _ h => absurd h not_mem_nil

theorem confined_singleton (hr : i.Regular) (hsub : i.modifies ⊆ places) :
    Confined places [i] := fun _ h => mem_singleton.1 h ▸ ⟨hr, hsub⟩

theorem countP_isStack_le (h : src.isStack = false ∨ dst.isStack = false) :
    [src, dst].countP Location.isStack ≤ 1 := by
  rcases h with h | h
  · rw [countP_cons_of_neg (by simp [h])]
    exact countP_le_length
  · rw [countP_cons, countP_cons_of_neg (by simp [h])]
    split <;> simp

theorem regular_movl (h : src.isStack = false ∨ dst.isStack = false) :
    (movl (.loc src) dst).Regular :=
  ⟨countP_isStack_le h, trivial⟩

theorem regular_movl_imm (value : Int) (dst : Location) : (movl (.imm value) dst).Regular :=
  ⟨countP_le_length, trivial⟩

theorem regular_alu (op : AluOp) (hd : dst.isStack = false) : (alu op src dst).Regular :=
  ⟨countP_isStack_le (.inr hd), hd⟩

theorem regular_cmpl (hs : src.isStack = false) : (cmpl (.loc src) dst).Regular :=
  ⟨countP_isStack_le (.inl hs), trivial⟩

theorem regular_cmpl_imm (value : Int) (dst : Location) : (cmpl (.imm value) dst).Regular :=
  ⟨countP_le_length, trivial⟩

/-- **A copy** modifies its destination, and the scratch if both places are on the
stack. -/
theorem confined_copy (src dst : Location) : Confined [dst, sourceScratch] (copy src dst) := by
  unfold copy
  split
  · exact confined_nil
  · split
    · refine confined_append (a := [_]).2 ⟨confined_singleton (regular_movl (.inr rfl)) ?_,
        confined_singleton (regular_movl (.inl rfl)) ?_⟩ <;> simp [modifies]
    · next h =>
      refine confined_singleton (regular_movl ?_) (by simp [modifies])
      exact Bool.and_eq_false_iff.1 (Bool.eq_false_iff.2 h)

theorem confined_copy_reg (src : Location) (hd : dst.isStack = false) :
    Confined [dst] (copy src dst) := by
  unfold copy
  split
  · exact confined_nil
  · rw [hd, Bool.and_false]
    exact confined_singleton (regular_movl (.inr hd)) (List.Subset.refl _)

/-- Loading a source modifies the scratch, and the source is in a register then. -/
theorem confined_load (src : Location) : Confined [sourceScratch] (load src).1 := by
  unfold load
  split
  · exact confined_copy_reg src rfl
  · exact confined_nil

theorem load_isStack (src : Location) : (load src).2.isStack = false := by
  unfold load
  split
  · rfl
  · next h => exact Bool.eq_false_iff.2 h

theorem subset_scratchPlaces : [work target, sourceScratch] ⊆ target :: scratchPlaces := by
  intro l hl
  rcases mem_cons.1 hl with rfl | hl
  · rcases work_eq target with e | e <;> rw [e] <;> simp [scratchPlaces]
  · rw [mem_singleton.1 hl]
    simp [scratchPlaces]

theorem confined_compute (lhs target : Location) (hi : i.Regular)
    (hm : i.modifies = [work target]) :
    Confined (target :: scratchPlaces)
      (copy lhs (work target) ++ [i] ++ copy (work target) target) := by
  refine confined_append.2 ⟨confined_append.2 ⟨?_, ?_⟩, ?_⟩
  · exact (confined_copy _ _).mono subset_scratchPlaces
  · refine confined_singleton hi (hm ▸ ?_)
    exact fun l hl => subset_scratchPlaces (mem_cons.2 (.inl (mem_singleton.1 hl)))
  · refine (confined_copy _ _).mono fun l hl => ?_
    rcases mem_cons.1 hl with rfl | hl
    · exact .head _
    · rw [mem_singleton.1 hl]
      simp [scratchPlaces]

theorem confined_arithmetic (op : AluOp) (lhs rhs target : Location) :
    Confined (target :: scratchPlaces) (arithmetic op lhs rhs target) := by
  unfold arithmetic
  simp only [append_assoc]
  refine confined_append.2 ⟨(confined_load rhs).mono (by simp [scratchPlaces]), ?_⟩
  simpa only [append_assoc] using
    confined_compute lhs target (regular_alu op (work_isStack target)) rfl

theorem confined_shifting (op : ShiftOp) (lhs rhs target : Location) :
    Confined (target :: scratchPlaces) (shifting op lhs rhs target) := by
  have hs : (shift op (work target)).Regular := by
    refine ⟨?_, work_isStack target⟩
    simp [operands, work_isStack]
  unfold shifting
  simp only [append_assoc]
  refine confined_append.2 ⟨(confined_copy_reg rhs rfl).mono (by simp [scratchPlaces]), ?_⟩
  simpa only [append_assoc] using confined_compute lhs target hs rfl

/-- **A division** divides by a register, which is not one of those it works with. -/
theorem confined_division {result : Register} (hr : rhs ≠ .reg .rax ∧ rhs ≠ .reg .rdx) :
    Confined (target :: scratchPlaces) (division result lhs rhs target) := by
  have hd : (idivl (load rhs).2).Regular := by
    refine ⟨?_, ?_⟩
    · simp [operands, load_isStack]
    · unfold load
      split
      · exact ⟨.sourceScratch, rfl, by decide, by decide⟩
      · cases rhs with
        | stack offset => exact absurd rfl ‹¬ _›
        | reg r => exact ⟨r, rfl, fun e => hr.1 (e ▸ rfl), fun e => hr.2 (e ▸ rfl)⟩
  have hc : cltd.Regular := ⟨Nat.zero_le _, trivial⟩
  refine confined_append.2 ⟨confined_append.2 ⟨confined_append.2 ⟨confined_append.2
    ⟨?_, ?_⟩, ?_⟩, ?_⟩, ?_⟩
  · exact (confined_load rhs).mono (by simp [scratchPlaces])
  · exact confined_singleton (regular_alu .xor rfl) (by simp [modifies, scratchPlaces])
  · exact (confined_copy_reg lhs rfl).mono (by simp [scratchPlaces])
  · refine confined_append (a := [_]).2 ⟨confined_singleton hc ?_, confined_singleton hd ?_⟩ <;>
      simp [modifies, scratchPlaces, Register.dividend, Register.remainder]
  · exact (confined_copy _ _).mono (by simp [scratchPlaces])

/-- A binary operation modifies its target and the scratch registers. -/
theorem confined_binary (op : BinOp) (hrhs : rhs ≠ .reg .rax ∧ rhs ≠ .reg .rdx) :
    Confined (target :: scratchPlaces) (binary op lhs rhs target) := by
  rcases op with op | op <;> cases op <;> first
    | exact confined_arithmetic _ _ _ _
    | exact confined_shifting _ _ _ _
    | exact confined_division hrhs

theorem confined_const (value : Int) (target : Location) : Confined [target] (const value target) :=
  confined_singleton (regular_movl_imm value target) (List.Subset.refl _)

/-- Undoing the frame modifies the stack pointer and the frame pointer. -/
theorem confined_epilogue : Confined [.reg .rsp, .reg .rbp] epilogue := by
  intro i hi
  rcases mem_cons.1 hi with rfl | hi
  · exact ⟨⟨by decide, trivial⟩, by simp [modifies]⟩
  rcases mem_cons.1 hi with rfl | hi
  · exact ⟨⟨by decide, trivial⟩, by simp [modifies]⟩
  rw [mem_singleton.1 hi]
  exact ⟨⟨by decide, trivial⟩, by simp [modifies]⟩

end Instr

end SsaCompiler
