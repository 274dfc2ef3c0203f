import SsaCompiler.Emission
import SsaCompiler.Proofs.Machine.Frame

/-!
# What the instruction sequences compute

The code of an operation is a short sequence of instructions that never
jumps. Each sequence is described by the word it leaves in its target and
by the places that may differ afterwards: the target and the scratch
registers the sequence works with (`Machine.Differs`).

An operand on the stack and a target on the stack each take a detour
through a scratch register. The target is written before the right operand
is read for the last time, so **the right operand must not be in the target's
place**; the left operand may be.
-/

namespace SsaCompiler

open List Option Machine

open Machine (Differs)

variable {f : Frame} {m m' : Machine} {i : Instr} {size : Nat} {dst target rhs lhs : Location}
  {result : Register} {w : Word} {op : BinOp}

namespace Instr

/-- **Execute instructions that do not jump**, one after the other. -/
def run : List Instr → Machine → Option Machine
  | [], m => some m
  | i :: rest, m => (i.exec m).bind (run rest)

@[simp] theorem run_nil : run [] m = some m := rfl

/-- One sequence after another. -/
theorem run_append (a b : List Instr) (m : Machine) :
    run (a ++ b) m = (run a m).bind (run b) := by
  induction a generalizing m with
  | nil => rfl
  | cons i rest ih =>
    simp only [run, bind_assoc]
    exact congrArg _ (funext ih)

theorem run_append_of {a b : List Instr} {m₁ m₂ : Machine} (ha : run a m = some m₁)
    (hb : run b m₁ = some m₂) : run (a ++ b) m = some m₂ := by
  rw [run_append, ha]
  exact hb

theorem run_singleton (h : i.exec m = some m') : run [i] m = some m' := by
  rw [run, h]
  rfl

theorem step_of_exec (h : i.exec m = some m') (program rest : List Asm) :
    Execution.step program ⟨m, .instr i :: rest⟩ = some ⟨m', rest⟩ := by
  have pass : (i.exec m).map (⟨·, rest⟩ : Machine → Execution) = some ⟨m', rest⟩ := by
    rw [h]
    rfl
  cases i with
  | jmp name | jcc condition name => simp [exec, effect] at h
  | _ => exact pass

/-- A sequence that executes is passed by steps. -/
theorem steps_of_run {code : List Instr} (h : run code m = some m') (program rest : List Asm) :
    Execution.Steps program ⟨m, code.map .instr ++ rest⟩ ⟨m', rest⟩ := by
  induction code generalizing m with
  | nil =>
    obtain rfl : m = m' := some.inj h
    exact .refl
  | cons i code ih =>
    obtain ⟨m₁, h₁, h₂⟩ := bind_eq_some_iff.1 h
    exact .head (step_of_exec h₁ program _) (ih h₂)

/-! ## Copies -/

theorem sourceScratch_inFrame : sourceScratch.InFrame size := ⟨by decide, by decide⟩

theorem destScratch_inFrame : destScratch.InFrame size := ⟨by decide, by decide⟩

theorem exec_movl {src : Operand} (h : (movl src dst).isEncodable) :
    (movl src dst).exec m = some (m.set dst (m.value src)) :=
  if_pos h

/-- **A copy** puts the source's word into the destination. -/
theorem run_copy (src : Location) (hm : m.Framed f) (hd : dst.InFrame f.size) :
    ∃ m', run (copy src dst) m = some m' ∧ m'.get dst = m.get src
      ∧ Differs f [dst, sourceScratch] m m' := by
  unfold copy
  by_cases he : src = dst
  · rw [if_pos he]
    exact ⟨m, rfl, by rw [he], (Differs.refl hm).mono (nil_subset _)⟩
  rw [if_neg he]
  by_cases hs : (src.isStack && dst.isStack) = true
  · -- both in memory: through the scratch register
    rw [if_pos hs]
    have first : (movl (.loc src) sourceScratch).exec m
        = some (m.set sourceScratch (m.get src)) :=
      exec_movl (by cases src <;> rfl)
    have second : (movl (.loc sourceScratch) dst).exec (m.set sourceScratch (m.get src))
        = some ((m.set sourceScratch (m.get src)).set dst (m.get src)) := by
      rw [exec_movl rfl]
      have loaded : (m.set sourceScratch (m.get src)).value (.loc sourceScratch) = m.get src :=
        get_set_self m sourceScratch (m.get src)
      rw [loaded]
    refine ⟨(m.set sourceScratch (m.get src)).set dst (m.get src), ?_, get_set_self _ _ _, ?_⟩
    · rw [run, first, bind_some, run_singleton second]
    · have d₁ := Differs.set hm sourceScratch_inFrame (m.get src)
      exact (d₁.trans (Differs.set d₁.framed hd (m.get src))).mono (by simp)
  · rw [if_neg hs]
    refine ⟨_, run_singleton (exec_movl ?_), get_set_self _ _ _, ?_⟩
    · show (!(src.isStack && dst.isStack)) = true
      rw [Bool.eq_false_of_not_eq_true hs]
      rfl
    · exact (Differs.set hm hd _).mono (by simp)

theorem run_copy_reg (src : Location) (hm : m.Framed f) (hd : dst.InFrame f.size)
    (hr : dst.isStack = false) :
    ∃ m', run (copy src dst) m = some m' ∧ m'.get dst = m.get src
      ∧ Differs f [dst] m m' := by
  unfold copy
  by_cases he : src = dst
  · rw [if_pos he]
    exact ⟨m, rfl, by rw [he], (Differs.refl hm).mono (nil_subset _)⟩
  rw [if_neg he, hr, Bool.and_false]
  refine ⟨_, run_singleton (exec_movl ?_), get_set_self _ _ _, Differs.set hm hd _⟩
  show (!(src.isStack && dst.isStack)) = true
  rw [hr, Bool.and_false]
  rfl

theorem load_of_not_isStack {src : Location} (h : src.isStack = false) :
    load src = ([], src) := by
  rw [load, if_neg (by rw [h]; decide)]

/-- **Loading** brings a source into a register, and the register is the
scratch or the source itself. -/
theorem run_load (src : Location) (hm : m.Framed f) :
    ∃ m', run (load src).1 m = some m' ∧ m'.get (load src).2 = m.get src
      ∧ Differs f [sourceScratch] m m' ∧ (load src).2.isStack = false
      ∧ ((load src).2 = src ∨ (load src).2 = sourceScratch) := by
  by_cases hs : src.isStack = true
  · obtain ⟨m', hr, hg, hd⟩ := run_copy src hm sourceScratch_inFrame
    rw [load, if_pos hs]
    exact ⟨m', hr, hg, hd.mono (by simp), rfl, .inr rfl⟩
  · have hs : src.isStack = false := by simpa using hs
    rw [load_of_not_isStack hs]
    exact ⟨m, rfl, rfl, (Differs.refl hm).mono (nil_subset _), hs, .inl rfl⟩

/-! ## Arithmetic and shifts -/

theorem work_isStack (target : Location) : (work target).isStack = false := by
  unfold work
  by_cases h : target.isStack = true
  · rw [if_pos h]
    rfl
  · rw [if_neg h]
    simpa using h

theorem work_eq (target : Location) : work target = target ∨ work target = destScratch := by
  unfold work
  split
  · exact .inr rfl
  · exact .inl rfl

theorem work_inFrame (h : target.InFrame size) : (work target).InFrame size := by
  rcases work_eq target with e | e <;> rw [e]
  · exact h
  · exact destScratch_inFrame

/-- The place a right operand is read from is not the place the result is
computed in. -/
theorem load_ne_work (hr : rhs.Assignable size) (ht : target.Assignable size) (hne : rhs ≠ target) :
    (load rhs).2 ≠ work target := by
  have hl : (load rhs).2 = rhs ∨ (load rhs).2 = sourceScratch := by
    unfold load
    split
    · exact .inr rfl
    · exact .inl rfl
  rcases hl with hl | hl <;> rcases work_eq target with hw | hw <;> rw [hl, hw]
  · exact hne
  · exact hr.ne_reg rfl
  · exact (ht.ne_reg rfl).symm
  · decide

theorem exec_alu (m : Machine) (op : AluOp) (src : Location) (hd : dst.isStack = false) :
    (alu op src dst).exec m
      = some (m.set dst (op.eval (m.get dst) (m.get src))).clobberFlags := by
  refine if_pos ?_
  show (!(src.isStack && dst.isStack) && !(decide (op = .imul) && dst.isStack)) = true
  rw [hd, Bool.and_false, Bool.and_false]
  rfl

/-- **Computing in the working place.** With the right operand at hand, the left one is
copied there, an instruction computes and the result is copied to the target. -/
theorem run_staged {first : List Instr} {m₁ : Machine} {value : Word → Word → Word}
    {right spare : Location} (hi : ∀ m, i.exec m =
      some (m.set (work target) (value (m.get (work target)) (m.get right))).clobberFlags)
    (hl : lhs.InFrame f.size) (hlhs : lhs ≠ spare) (ht : target.InFrame f.size)
    (hr : right.InFrame f.size) (hne : right ≠ work target)
    (r₁ : run first m = some m₁) (d₁ : Differs f [spare] m m₁) :
    ∃ m', run (first ++ copy lhs (work target) ++ [i] ++ copy (work target) target) m = some m'
      ∧ m'.get target = value (m.get lhs) (m₁.get right)
      ∧ Differs f [target, spare, sourceScratch, destScratch] m m' := by
  have hw := work_inFrame ht
  obtain ⟨m₂, r₂, g₂, d₂⟩ := run_copy_reg lhs d₁.framed hw (work_isStack target)
  -- neither the left operand nor the right one was written meanwhile
  have r₃ := run_singleton (hi m₂)
  rw [g₂, d₁.keeps lhs hl (mt mem_singleton.1 hlhs),
    d₂.keeps right hr (mt mem_singleton.1 hne)] at r₃
  have d₃ := (Differs.set d₂.framed hw (value (m.get lhs) (m₁.get right))).clobberFlags
  obtain ⟨m₄, r₄, g₄, d₄⟩ := run_copy (work target) d₃.framed ht
  refine ⟨m₄, run_append_of (run_append_of (run_append_of r₁ r₂) r₃) r₄, ?_, ?_⟩
  · rw [g₄, get_clobberFlags, get_set_self]
  · refine (((d₁.trans d₂).trans d₃).trans d₄).mono ?_
    rcases work_eq target with e | e <;> rw [e] <;> simp

/-- **An arithmetic sequence** computes its operation. -/
theorem run_arithmetic (op : AluOp) (hm : m.Framed f) (hl : lhs.Assignable f.size)
    (hr : rhs.Assignable f.size) (ht : target.Assignable f.size) (hne : rhs ≠ target) :
    ∃ m', run (arithmetic op lhs rhs target) m = some m'
      ∧ m'.get target = op.eval (m.get lhs) (m.get rhs)
      ∧ Differs f [target, sourceScratch, destScratch] m m' := by
  obtain ⟨m₁, r₁, g₁, d₁, -, place⟩ := run_load rhs hm
  have inFrame : (load rhs).2.InFrame f.size := by
    rcases place with e | e <;> rw [e]
    · exact hr.inFrame
    · exact sourceScratch_inFrame
  obtain ⟨m', r, g, d⟩ := run_staged (fun m => exec_alu m op _ (work_isStack target)) hl.inFrame
    (hl.ne_reg rfl) ht.inFrame inFrame (load_ne_work hr ht hne) r₁ d₁
  exact ⟨m', r, g₁ ▸ g, d.mono (by simp [sourceScratch])⟩

/-- **A shift sequence** computes its shift. -/
theorem run_shifting (op : ShiftOp) (rhs : Location) (hm : m.Framed f)
    (hl : lhs.Assignable f.size) (ht : target.Assignable f.size) :
    ∃ m', run (shifting op lhs rhs target) m = some m'
      ∧ m'.get target = op.eval (m.get lhs) (m.get rhs)
      ∧ Differs f [target, .reg .shiftCount, sourceScratch, destScratch] m m' := by
  have count : Location.InFrame f.size (.reg .shiftCount) := ⟨by decide, by decide⟩
  obtain ⟨m₁, r₁, g₁, d₁⟩ := run_copy_reg rhs hm count rfl
  have hne : Location.reg .shiftCount ≠ work target := by
    rcases work_eq target with e | e <;> rw [e]
    · exact (ht.ne_reg rfl).symm
    · decide
  exact g₁ ▸ run_staged (i := shift op (work target)) (fun _ => if_pos rfl) hl.inFrame
    (hl.ne_reg rfl) ht.inFrame count hne r₁ d₁

/-! ## Division -/

/-- What a division computes. -/
def divisionOp (result : Register) : ArithOp :=
  if result = .dividend then .div else .mod

/-- The quotient or the remainder, as `result` says. -/
theorem divisionOp_eval (a b : Word) : (divisionOp result).eval a b
      = if Word.divisionTraps a b then none
        else some (if result = .dividend then a.sdiv b else a.srem b) := by
  unfold divisionOp
  by_cases h : result = .dividend
  · rw [if_pos h, if_pos h]
    rfl
  · rw [if_neg h, if_neg h]
    rfl

/-- The code of a division up to the dividing instruction, which is the
rest of it. -/
theorem division_eq (result : Register) (lhs rhs target : Location) : division result lhs rhs target
      = ((load rhs).1 ++ [alu .xor (.reg .remainder) (.reg .remainder)]
          ++ copy lhs (.reg .dividend) ++ [cltd])
        ++ idivl (load rhs).2 :: copy (.reg result) target := by
  simp [division]

/-- **Before it divides, a division** has the dividend with its sign in its
two registers and the divisor at hand. -/
theorem run_division_head (hm : m.Framed f) (hl : lhs.Assignable f.size)
    (hr : rhs.Assignable f.size) :
    ∃ m', run ((load rhs).1 ++ [alu .xor (.reg .remainder) (.reg .remainder)]
          ++ copy lhs (.reg .dividend) ++ [cltd]) m = some m'
      ∧ Word.divide (m'.get (.reg .remainder)) (m'.get (.reg .dividend))
          (m'.get (load rhs).2)
        = (if Word.divisionTraps (m.get lhs) (m.get rhs) then none
          else some ((m.get lhs).sdiv (m.get rhs), (m.get lhs).srem (m.get rhs)))
      ∧ Differs f [.reg .dividend, .reg .remainder, sourceScratch] m m' := by
  have hi : Location.InFrame f.size (.reg .remainder) := ⟨by decide, by decide⟩
  have low : Location.InFrame f.size (.reg .dividend) := ⟨by decide, by decide⟩
  obtain ⟨m₁, r₁, g₁, d₁, -, place⟩ := run_load rhs hm
  have inFrame : (load rhs).2.InFrame f.size := by
    rcases place with e | e <;> rw [e]
    · exact hr.inFrame
    · exact sourceScratch_inFrame
  have apart : ∀ r, r = Register.remainder ∨ r = Register.dividend →
      (load rhs).2 ≠ .reg r := by
    intro r hrole
    rcases place with e | e <;> rw [e]
    · exact hr.ne_reg (by rcases hrole with rfl | rfl <;> rfl)
    · rcases hrole with rfl | rfl <;> decide
  have r₂ := run_singleton (exec_alu m₁ .xor (.reg .remainder)
    (show (Location.reg .remainder).isStack = false from rfl))
  have d₂ := (Differs.set d₁.framed hi
    (AluOp.xor.eval (m₁.get (.reg .remainder)) (m₁.get (.reg .remainder)))).clobberFlags
  obtain ⟨m₃, r₃, g₃, d₃⟩ := run_copy_reg lhs d₂.framed low rfl
  have r₄ : run [cltd] m₃ = some (m₃.set (.reg .remainder)
      (if (m₃.get (.reg .dividend)).msb then -1 else 0)) :=
    run_singleton (if_pos rfl)
  have d₄ := Differs.set d₃.framed hi
    (if (m₃.get (.reg .dividend)).msb then -1 else 0)
  have dividend : m₃.get (.reg .dividend) = m.get lhs := by
    rw [g₃, d₂.keeps lhs hl.inFrame (mt mem_singleton.1 (hl.ne_reg rfl)),
      d₁.keeps lhs hl.inFrame (mt mem_singleton.1 (hl.ne_reg rfl))]
  refine ⟨_, run_append_of (run_append_of (run_append_of r₁ r₂) r₃) r₄, ?_, ?_⟩
  · rw [get_set_self, d₄.keeps _ low (by decide),
      d₄.keeps _ inFrame (mt mem_singleton.1 (apart _ (.inl rfl))),
      d₃.keeps _ inFrame (mt mem_singleton.1 (apart _ (.inr rfl))),
      d₂.keeps _ inFrame (mt mem_singleton.1 (apart _ (.inl rfl))), g₁,
      dividend, Word.divide_sign]
  · exact (((d₁.trans d₂).trans d₃).trans d₄).mono (by simp)

/-- **A division sequence** computes its result unless the operands
trap. -/
theorem run_division (hm : m.Framed f) (hl : lhs.Assignable f.size) (hr : rhs.Assignable f.size)
    (ht : target.Assignable f.size) (hres : result = .dividend ∨ result = .remainder)
    (hw : (divisionOp result).eval (m.get lhs) (m.get rhs) = some w) :
    ∃ m', run (division result lhs rhs target) m = some m' ∧ m'.get target = w
      ∧ Differs f [target, .reg .dividend, .reg .remainder, sourceScratch] m m' := by
  obtain ⟨m₁, r₁, g₁, d₁⟩ := run_division_head hm hl hr
  rw [divisionOp_eval] at hw
  by_cases htrap : Word.divisionTraps (m.get lhs) (m.get rhs) = true
  · rw [if_pos htrap] at hw
    exact absurd hw (by simp)
  rw [if_neg htrap] at hw g₁
  cases hw
  have hi : Location.InFrame f.size (.reg .remainder) := ⟨by decide, by decide⟩
  have low : Location.InFrame f.size (.reg .dividend) := ⟨by decide, by decide⟩
  set q := (m.get lhs).sdiv (m.get rhs)
  set r := (m.get lhs).srem (m.get rhs)
  have r₂ : run [idivl (load rhs).2] m₁
      = some ((m₁.set (.reg .dividend) q).set (.reg .remainder) r).clobberFlags := by
    refine run_singleton ((if_pos rfl).trans ?_)
    show Option.map _ (Word.divide _ _ _) = _
    rw [g₁]
    rfl
  have d₂' := Differs.set d₁.framed low q
  have d₂ := (d₂'.trans (Differs.set d₂'.framed hi r)).clobberFlags
  obtain ⟨m₃, r₃, g₃, d₃⟩ := run_copy (.reg result) d₂.framed ht.inFrame
  refine ⟨m₃, ?_, ?_, ?_⟩
  · rw [division_eq]
    exact run_append_of r₁ (run_append_of r₂ r₃)
  · rw [g₃, get_clobberFlags]
    rcases hres with rfl | rfl
    · rw [get_set_of_ne f.fits hi low (by decide), get_set_self, if_pos rfl]
    · rw [get_set_self, if_neg (by decide)]
  · exact ((d₁.trans d₂).trans d₃).mono (by simp)

/-! ## Operations and comparisons -/

/-- **The registers that code may use on the way**, whatever it computes. -/
def scratchPlaces : List Location :=
  [.reg .dividend, .reg .remainder, .reg .shiftCount, sourceScratch, destScratch]

theorem not_mem_scratchPlaces {l : Location} (h : l.Assignable size) : l ∉ scratchPlaces := by
  simp only [scratchPlaces, mem_cons, not_mem_nil, or_false, not_or]
  exact ⟨h.ne_reg rfl, h.ne_reg rfl, h.ne_reg rfl, h.ne_reg rfl, h.ne_reg rfl⟩

/-- **The code of a binary operation** computes its value. -/
theorem run_binary (hm : m.Framed f) (hl : lhs.Assignable f.size) (hr : rhs.Assignable f.size)
    (ht : target.Assignable f.size) (hne : rhs ≠ target)
    (hw : op.eval (m.get lhs) (m.get rhs) = some w) :
    ∃ m', run (binary op lhs rhs target) m = some m' ∧ m'.get target = w
      ∧ Differs f (target :: scratchPlaces) m m' := by
  have alu : ∀ o : AluOp, o.eval (m.get lhs) (m.get rhs) = w →
      ∃ m', run (arithmetic o lhs rhs target) m = some m' ∧ m'.get target = w
        ∧ Differs f (target :: scratchPlaces) m m' := by
    rintro o rfl
    obtain ⟨m', r, g, d⟩ := run_arithmetic o hm hl hr ht hne
    exact ⟨m', r, g, d.mono (by simp [scratchPlaces])⟩
  have shift : ∀ o : ShiftOp, o.eval (m.get lhs) (m.get rhs) = w →
      ∃ m', run (shifting o lhs rhs target) m = some m' ∧ m'.get target = w
        ∧ Differs f (target :: scratchPlaces) m m' := by
    rintro o rfl
    obtain ⟨m', r, g, d⟩ := run_shifting o rhs hm hl ht
    exact ⟨m', r, g, d.mono (by simp [scratchPlaces])⟩
  have divide : ∀ result, (result = Register.dividend ∨ result = Register.remainder) →
      (divisionOp result).eval (m.get lhs) (m.get rhs) = some w →
      ∃ m', run (division result lhs rhs target) m = some m' ∧ m'.get target = w
        ∧ Differs f (target :: scratchPlaces) m m' := by
    intro result hres h
    obtain ⟨m', r, g, d⟩ := run_division hm hl hr ht hres h
    exact ⟨m', r, g, d.mono (by simp [scratchPlaces])⟩
  cases op with
  | arith op =>
    cases op with
    | add => exact alu .add (some.inj hw)
    | sub => exact alu .sub (some.inj hw)
    | mul => exact alu .imul (some.inj hw)
    | div => exact divide _ (.inl rfl) hw
    | mod => exact divide _ (.inr rfl) hw
    | bitAnd => exact alu .and (some.inj hw)
    | bitOr => exact alu .or (some.inj hw)
    | bitXor => exact alu .xor (some.inj hw)
    | shl => exact shift .left (some.inj hw)
    | shr => exact shift .right (some.inj hw)
  | logic op =>
    cases op with
    | and => exact alu .and (some.inj hw)
    | or => exact alu .or (some.inj hw)

/-- **The code of an operation that traps** leads to a division that
traps. -/
theorem run_binary_traps (target : Location) (hm : m.Framed f) (hl : lhs.Assignable f.size)
    (hr : rhs.Assignable f.size) (hw : op.eval (m.get lhs) (m.get rhs) = none) :
    ∃ head divisor rest m', binary op lhs rhs target = head ++ idivl divisor :: rest
      ∧ run head m = some m'
      ∧ Word.divide (m'.get (.reg .remainder)) (m'.get (.reg .dividend)) (m'.get divisor)
          = none := by
  have divide : ∀ result, (divisionOp result).eval (m.get lhs) (m.get rhs) = none →
      ∃ head divisor rest m', division result lhs rhs target = head ++ idivl divisor :: rest
          ∧ run head m = some m'
          ∧ Word.divide (m'.get (.reg .remainder)) (m'.get (.reg .dividend))
              (m'.get divisor) = none := by
    intro result h
    obtain ⟨m', r, g, -⟩ := run_division_head hm hl hr
    refine ⟨_, _, _, m', division_eq result lhs rhs target, r, ?_⟩
    rw [divisionOp_eval] at h
    by_cases ht : Word.divisionTraps (m.get lhs) (m.get rhs) = true
    · rw [g, if_pos ht]
    · rw [if_neg ht] at h
      exact absurd h (by simp)
  cases op with
  | arith op =>
    cases op with
    | div => exact divide .dividend hw
    | mod => exact divide .remainder hw
    | _ => exact absurd hw (by simp [BinOp.eval, ArithOp.eval])
  | logic op => cases op <;> exact absurd hw (by simp [BinOp.eval])

/-- **The condition a comparison tests** holds exactly when the comparison
does. -/
theorem condition_holds (op : CmpOp) (a b : Word) :
    (condition op).holds (.ofCompare a b) = op.eval a b := by
  have less := Flags.sign_bne_overflow a b
  have zero := Flags.zero_ofCompare a b
  have notLess : ((Flags.ofCompare a b).sign == (Flags.ofCompare a b).overflow)
      = !a.slt b := by
    rw [← less]
    exact (Bool.not_not _).symm
  have lessEq : a.sle b = (a == b || a.slt b) := by
    rw [BitVec.sle_eq_slt_or_eq, Bool.or_comm]
  cases op with
  | less => exact less
  | lessEq =>
    show ((Flags.ofCompare a b).zero || _) = a.sle b
    rw [zero, less, lessEq]
  | greater =>
    show (!(Flags.ofCompare a b).zero && _) = b.slt a
    rw [zero, notLess, ← Bool.not_or, ← lessEq, BitVec.sle_eq_not_slt, Bool.not_not]
  | greaterEq =>
    show _ = b.sle a
    rw [BitVec.sle_eq_not_slt, ← notLess]
    rfl
  | equal => exact zero
  | notEqual => exact congrArg (!·) zero

end Instr

end SsaCompiler
