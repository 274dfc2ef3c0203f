import SsaCompiler.Proofs.Machine.Run

/-!
# Places in the frame of a function

While the body of a function runs, the stack pointer stays where the
prologue has put it: the stack slots lie above it, and above them the frame
pointer of the caller. A **frame** records these facts, and
`Machine.Framed` says that a machine is in a frame.

The places that code works on are registers other than the two pointers,
and the aligned slots of the frame (`Location.InFrame`). For them a machine
behaves like a store: **a word put into one place is found there, and every
other place keeps its word**, although slots are runs of bytes and a
register is written in two halves.
-/

namespace SsaCompiler

variable {size : Nat} {l : Location} {r : Register} {p q : List Location} {m' : Machine}

/-- **The frame of a running function**: where the slots begin, how many
bytes they take, and the frame pointer of the caller, kept behind them. -/
structure Frame where
  base : Address
  size : Nat
  saved : BitVec 64
  /-- Slots and saved pointer do not meet around the end of the memory. -/
  fits : size + 8 ≤ 2 ^ 64

namespace Location

/-- **A place that code may work on**: a register that does not hold the
frame, or an aligned slot. -/
def InFrame (size : Nat) : Location → Prop
  | reg r => r ≠ .rsp ∧ r ≠ .rbp
  | stack offset => ∃ c : Nat, offset = (4 * c : Nat) ∧ 4 * c + 4 ≤ size

/-- **A place that may be given to a value**: an allocatable register, or an
aligned slot. -/
def Assignable (size : Nat) : Location → Prop
  | reg r => r.isAllocatable = true
  | stack offset => InFrame size (stack offset)

theorem Assignable.ne_reg (h : l.Assignable size) (hr : r.isAllocatable = false) : l ≠ reg r := by
  rintro rfl
  exact Bool.false_ne_true (hr.symm.trans h)

theorem Assignable.inFrame (h : l.Assignable size) : l.InFrame size := by
  cases l with
  | reg r => exact ⟨fun e => h.ne_reg (r := .rsp) rfl (congrArg reg e),
      fun e => h.ne_reg (r := .rbp) rfl (congrArg reg e)⟩
  | stack offset => exact h

end Location

/-- **A machine in a frame.** -/
structure Machine.Framed (f : Frame) (m : Machine) : Prop where
  stackPointer : m.regs .rsp = f.base
  framePointer : m.regs .rbp = f.base + BitVec.ofNat 64 f.size
  saved : m.mem.read (f.base + BitVec.ofNat 64 f.size) 8 = f.saved.toNat

namespace Machine

variable {m : Machine} {f : Frame} {l l' : Location} {w : Word}

/-! ## Reading what was written -/

@[simp] theorem regs_setReg_self (r : Register) (v : BitVec 64) :
    (m.setReg r v).regs r = v := if_pos rfl

theorem regs_setReg_of_ne {r' : Register} (v : BitVec 64) (h : r' ≠ r) :
    (m.setReg r v).regs r' = m.regs r' := if_neg h

@[simp] theorem mem_setReg (r : Register) (v : BitVec 64) : (m.setReg r v).mem = m.mem := rfl

@[simp] theorem get_clobberFlags : m.clobberFlags.get l = m.get l := by
  cases l <;> rfl

theorem regs_set_of_ne (h : l ≠ .reg r) : (m.set l w).regs r = m.regs r := by
  cases l with
  | reg r' => exact regs_setReg_of_ne _ fun e => h (congrArg _ e.symm)
  | stack offset => rfl

/-- **A word put into a place is found there.** -/
@[simp] theorem get_set_self (m : Machine) (l : Location) (w : Word) :
    (m.set l w).get l = w := by
  cases l with
  | reg r =>
    show ((m.setReg r (w.setWidth 64)).regs r).setWidth 32 = w
    rw [regs_setReg_self]
    exact BitVec.setWidth_setWidth_of_le w (by omega)
  | stack offset =>
    show BitVec.ofNat 32 ((m.mem.write (m.address offset) 4 w.toNat).read (m.address offset) 4) = w
    have fits : w.toNat < 256 ^ 4 := w.isLt
    rw [Memory.read_write_self (by omega), Nat.mod_eq_of_lt fits, BitVec.ofNat_toNat,
      BitVec.setWidth_eq]

theorem slots_apart (base : Address) {c c' : Nat} (hc : 4 * c + 4 ≤ 2 ^ 64)
    (hc' : 4 * c' + 4 ≤ 2 ^ 64) (h : c ≠ c') :
    ∀ i < 4, 4 ≤ (base + BitVec.ofInt 64 (4 * c' : Nat) + BitVec.ofNat 64 i
      - (base + BitVec.ofInt 64 (4 * c : Nat))).toNat := by
  simp only [BitVec.ofInt_natCast, BitVec.toNat_sub, BitVec.toNat_add, BitVec.toNat_ofNat]
  omega

/-- **Every other place keeps its word.** -/
theorem get_set_of_ne (hs : size + 8 ≤ 2 ^ 64) (hl : l.InFrame size) (hl' : l'.InFrame size)
    (h : l' ≠ l) : (m.set l w).get l' = m.get l' := by
  cases l' with
  | reg r' =>
    show ((m.set l w).regs r').setWidth 32 = _
    rw [regs_set_of_ne h.symm]
    rfl
  | stack offset' =>
    cases l with
    | reg r =>
      -- the stack pointer is not written, so the slot keeps its address
      have sp : (m.setReg r (w.setWidth 64)).regs .rsp = m.regs .rsp :=
        regs_setReg_of_ne _ fun e => hl.1 e.symm
      show BitVec.ofNat 32 (m.mem.read ((m.setReg r (w.setWidth 64)).regs .rsp + _) 4) = _
      rw [sp]
      rfl
    | stack offset =>
      obtain ⟨c, rfl, hc⟩ := hl
      obtain ⟨c', rfl, hc'⟩ := hl'
      have hne : c ≠ c' := fun e => h (by rw [e])
      refine congrArg (BitVec.ofNat 32) (Memory.read_write_of_apart ?_)
      exact slots_apart _ (by omega) (by omega) hne

/-- **Writing a place keeps the frame.** -/
theorem Framed.set (h : m.Framed f) (hl : l.InFrame f.size) : (m.set l w).Framed f := by
  have hfits := f.fits
  cases l with
  | reg r =>
    exact ⟨(regs_setReg_of_ne _ fun e => hl.1 e.symm).trans h.stackPointer,
      (regs_setReg_of_ne _ fun e => hl.2 e.symm).trans h.framePointer, h.saved⟩
  | stack offset =>
    refine ⟨h.stackPointer, h.framePointer, ?_⟩
    obtain ⟨c, rfl, hc⟩ := hl
    rw [← h.saved]
    refine Memory.read_write_of_apart fun i hi => ?_
    simp only [address, h.stackPointer, BitVec.ofInt_natCast, BitVec.toNat_sub,
      BitVec.toNat_add, BitVec.toNat_ofNat]
    omega

theorem Framed.clobberFlags (h : m.Framed f) : m.clobberFlags.Framed f :=
  ⟨h.stackPointer, h.framePointer, h.saved⟩

/-! ## What a piece of code leaves alone -/

/-- **Two machines in a frame that differ in the given places at most.** -/
structure Differs (f : Frame) (places : List Location) (m m' : Machine) : Prop where
  framed : m'.Framed f
  keeps : ∀ l : Location, l.InFrame f.size → l ∉ places → m'.get l = m.get l

theorem Differs.refl (h : m.Framed f) : Differs f [] m m := ⟨h, fun _ _ _ => rfl⟩

theorem Differs.trans {m₁ m₂ m₃ : Machine} (h : Differs f p m₁ m₂) (h' : Differs f q m₂ m₃) :
    Differs f (p ++ q) m₁ m₃ := by
  refine ⟨h'.framed, fun l hl hn => ?_⟩
  rw [List.mem_append, not_or] at hn
  rw [h'.keeps l hl hn.2, h.keeps l hl hn.1]

theorem Differs.mono (h : Differs f p m m') (hpq : p ⊆ q) : Differs f q m m' :=
  ⟨h.framed, fun l hl hn => h.keeps l hl fun hp => hn (hpq hp)⟩

theorem Differs.set (h : m.Framed f) (hl : l.InFrame f.size) (w : Word) :
    Differs f [l] m (m.set l w) :=
  ⟨h.set hl, fun _ hl' hn =>
    get_set_of_ne f.fits hl hl' fun e => hn (List.mem_singleton.2 e)⟩

theorem Differs.clobberFlags (h : Differs f p m m') : Differs f p m m'.clobberFlags :=
  ⟨h.framed.clobberFlags, fun l hl hn => get_clobberFlags.trans (h.keeps l hl hn)⟩

end Machine

end SsaCompiler
