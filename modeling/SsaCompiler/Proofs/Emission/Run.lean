import SsaCompiler.Proofs.Emission.Simulation
import SsaCompiler.Proofs.Graph.Execution

/-!
# Calling a compiled function

The code of a function is run from its first instruction on, in a machine with any
contents whose stack has room for the frame. The prologue sets up the frame
(`Placed.exists_framed`), and no register is live into the first line, so the
first line is entered. From there **the code ends as the lines do**
(`Allocated.ends_code`): it comes to the return with the result in its register and
the two pointers as the caller had them, or to a division that traps.

A function is run as part of a program. Where no label is defined twice, a run of
its own code is a run of the whole program (`Execution.Steps.within`).
-/

namespace SsaCompiler

open List Option

open Liveness (lineAt)

variable {file file' : RegisterFile} {j : Nat} {word : Option Word}

/-! ## Code inside a program -/

namespace Asm

variable {code rest : List Asm} {name : String}

theorem suffix_of_target (h : target code name = some rest) : label name :: rest <:+ code := by
  unfold target at h
  cases hd : code.dropWhile (· ≠ label name) with
  | nil =>
    rw [hd] at h
    cases h
  | cons first more =>
    rw [hd] at h
    cases h
    have hf : first = label name := by
      have hne : code.dropWhile (· ≠ label name) ≠ [] := hd ▸ cons_ne_nil _ _
      have hh := head_dropWhile_not (fun x => decide (x ≠ label name)) hne
      simp only [hd, decide_eq_false_iff_not, not_not] at hh
      exact hh
    rw [← hf, ← hd]
    exact dropWhile_suffix _

/-- A jump inside some code finds the same label in a program around it. -/
theorem target_within {before after : List Asm} (hn : (labels (before ++ code ++ after)).Nodup)
    (h : target code name = some rest) :
    target (before ++ code ++ after) name = some (rest ++ after) := by
  obtain ⟨front, rfl⟩ := suffix_of_target h
  refine target_eq hn ⟨before ++ front, ?_⟩
  simp

end Asm

namespace Execution

variable {code before after : List Asm} {e e' : Execution}

theorem step_within (hn : (Asm.labels (before ++ code ++ after)).Nodup)
    (h : e.step code = some e') :
    step (before ++ code ++ after) ⟨e.machine, e.code ++ after⟩
      = some ⟨e'.machine, e'.code ++ after⟩ := by
  have hj : ∀ {name m}, (Asm.target code name).map (Execution.mk m) = some e' →
      (Asm.target (before ++ code ++ after) name).map (Execution.mk m)
        = some ⟨e'.machine, e'.code ++ after⟩ := fun h => by
    obtain ⟨rest, hr, rfl⟩ := map_eq_some_iff.1 h
    rw [Asm.target_within hn hr]
    rfl
  obtain ⟨m, _ | ⟨line, rest⟩⟩ := e
  · cases h
  have he : ∀ {i : Instr}, step code ⟨m, .instr i :: rest⟩ = some e' →
      (∀ program rest, step program ⟨m, .instr i :: rest⟩ = (i.exec m).map (⟨·, rest⟩)) →
      step (before ++ code ++ after) ⟨m, .instr i :: (rest ++ after)⟩
        = some ⟨e'.machine, e'.code ++ after⟩ := fun h hi => by
    rw [hi] at h ⊢
    obtain ⟨m', hm', rfl⟩ := map_eq_some_iff.1 h
    rw [hm']
    rfl
  cases line with
  | instr i =>
    cases i with
    | jmp name => exact hj h
    | jcc condition name =>
      cases hf : m.flags with
      | none =>
        unfold step at h
        simp only [hf] at h
        cases h
      | some f =>
        unfold step at h ⊢
        simp only [hf, cons_append] at h ⊢
        split at h
        · rw [if_pos ‹_›]
          exact hj h
        · rw [if_neg ‹_›]
          cases h
          rfl
    | _ => exact he h fun _ _ => rfl
  | _ =>
    cases h
    rfl

/-- A run of some code is a run of a program around it. -/
theorem Steps.within (hn : (Asm.labels (before ++ code ++ after)).Nodup)
    (h : Steps code e e') :
    Steps (before ++ code ++ after) ⟨e.machine, e.code ++ after⟩ ⟨e'.machine, e'.code ++ after⟩ := by
  induction h with
  | refl => exact .refl
  | tail _ hstep ih => exact ih.tail (step_within hn hstep)

theorem Returns.within (h : e.Returns) : Returns ⟨e.machine, e.code ++ after⟩ := by
  obtain ⟨rest, hc⟩ := h
  exact ⟨rest ++ after, congrArg (· ++ after) hc⟩

theorem Traps.within (h : e.Traps) : Traps ⟨e.machine, e.code ++ after⟩ := by
  obtain ⟨divisor, rest, hc, ht⟩ := h
  exact ⟨divisor, rest ++ after, congrArg (· ++ after) hc, ht⟩

end Execution

/-! ## The frame of a call -/

/-- **The prologue sets up a frame**, in any machine whose stack has room for it. -/
theorem Placed.exists_framed (p : Placed) (m : Machine)
    (hr : p.allocation.frameSize + 8 ≤ 2 ^ 64) (program rest : List Asm) :
    ∃ f m', Execution.Steps program ⟨m, p.prologue ++ rest⟩ ⟨m', rest⟩ ∧ m'.Framed f ∧
      f.size = p.allocation.frameSize ∧ f.base + BitVec.ofNat 64 f.size + 8 = m.regs .rsp ∧
      f.saved = m.regs .rbp := by
  let size := p.allocation.frameSize
  let top := m.regs .rsp - 8
  let pushed : Machine := { m.setReg .rsp top with mem := m.mem.write top 8 (m.regs .rbp).toNat }
  let entered := pushed.setReg .rbp top
  let f : Frame := ⟨top - BitVec.ofNat 64 size, size, m.regs .rbp, hr⟩
  have ht : f.base + BitVec.ofNat 64 f.size = top := BitVec.sub_add_cancel _ _
  have hsaved : entered.mem.read top 8 = (m.regs .rbp).toNat := by
    show (m.mem.write top 8 (m.regs .rbp).toNat).read top 8 = _
    rw [Memory.read_write_self (by decide)]
    exact Nat.mod_eq_of_lt (m.regs .rbp).isLt
  have hrun : ∃ m', Instr.run ([.push .rbp, .movq .rsp .rbp] ++
        if size = 0 then [] else [.subq size .rsp]) m = some m' ∧ m'.regs .rsp = f.base ∧
        m'.regs .rbp = top ∧ m'.mem = entered.mem := by
    have he : Instr.run [.push .rbp, .movq .rsp .rbp] m = some entered := rfl
    by_cases hz : size = 0
    · refine ⟨entered, by rw [if_pos hz]; exact he, ?_, rfl, rfl⟩
      show top = top - BitVec.ofNat 64 size
      rw [hz]
      exact (BitVec.sub_zero _).symm
    · refine ⟨(entered.setReg .rsp (top - BitVec.ofNat 64 size)).clobberFlags, ?_, rfl, rfl, rfl⟩
      rw [if_neg hz]
      exact Instr.run_append_of he rfl
  obtain ⟨m', hrun, hrsp, hrbp, hmem⟩ := hrun
  refine ⟨f, m', Instr.steps_of_run hrun program rest, ⟨hrsp, hrbp.trans ht.symm, ?_⟩, rfl, ?_, rfl⟩
  · rw [ht, hmem]
    exact hsaved
  · rw [ht]
    exact BitVec.sub_add_cancel _ _

/-! ## Runs of lines as runs of code -/

theorem Line.Outcome.eq_of_set {d : VReg} {next : Nat}
    (h : Outcome.set file d next word = .goto j file') : j = next := by
  cases word with
  | none => cases h
  | some w => exact (Outcome.goto.inj h).1.symm

/-- **Control goes on to a successor.** -/
theorem Line.mem_succs_of_step {l : Line} (h : l.step file = some (.goto j file')) :
    j ∈ l.succs := by
  unfold step at h
  split at h <;> rename_i hsuccs
  · rw [hsuccs, Outcome.eq_of_set (some.inj h)]
    exact .head _
  · rw [hsuccs, Outcome.eq_of_set (some.inj h)]
    exact .head _
  · rw [hsuccs, Outcome.eq_of_set (some.inj h)]
    exact .head _
  · rw [hsuccs, (Outcome.goto.inj (some.inj h)).1]
    exact .head _
  · rw [hsuccs, ← (Outcome.goto.inj (some.inj h)).1]
    split
    · exact .head _
    · exact .tail _ (.head _)
  · cases h
  · rw [hsuccs, (Outcome.goto.inj (some.inj h)).1]
    exact .head _
  · cases h

theorem Placed.Meets.prepend {p : Placed} {live : Nat → List VReg} {f : Frame} {program : List Asm}
    {landing : Nat → List Asm} {start next : Execution} {o : Line.Outcome}
    (h : p.Meets live f program landing next o) (hsteps : Execution.Steps program start next) :
    p.Meets live f program landing start o := by
  cases o with
  | goto j file =>
    obtain ⟨m, hsteps', hm⟩ := h
    exact ⟨m, hsteps.trans hsteps', hm⟩
  | returns w | traps =>
    obtain ⟨e, hsteps', he⟩ := h
    exact ⟨e, hsteps.trans hsteps', he⟩

namespace Allocated

variable {a : Allocated} {i : Nat} {f : Frame} {file : RegisterFile} {m : Machine}

section

variable (h : a.Entered i f file m)
  (hsuccs : ∀ i < a.lines.size, ∀ j ∈ (lineAt a.lines i).succs, j < a.lines.size)

include h hsuccs

/-- **Code runs from line to line as the lines do.** -/
theorem Entered.runs {p : Nat × RegisterFile} (hr : Line.Runs a.lines (i, file) p) :
    ∃ m', Execution.Steps a.code ⟨m, a.placed.codeFrom a.schedule i⟩
        ⟨m', a.placed.codeFrom a.schedule p.1⟩ ∧ a.Entered p.1 f p.2 m' := by
  induction hr with
  | refl => exact ⟨m, .refl, h⟩
  | @tail p q _ hstep ih =>
    obtain ⟨m', hsteps, he⟩ := ih
    obtain ⟨o, ho, hm⟩ := a.simulates he
    cases ho.symm.trans hstep
    obtain ⟨m'', hsteps', hf, hh⟩ := hm
    exact ⟨m'', hsteps.trans hsteps', hsuccs _ he.lt _ (Line.mem_succs_of_step hstep),
      hf, h.size_eq, hh⟩

/-- The code ends as the lines do. -/
theorem Entered.ends (hends : Line.Ends a.lines (i, file) word) :
    a.Meets f a.code (a.placed.codeFrom a.schedule) ⟨m, a.placed.codeFrom a.schedule i⟩
      (.final word) := by
  obtain ⟨p, hr, hstep⟩ := hends
  obtain ⟨m', hsteps, he⟩ := h.runs hsuccs hr
  obtain ⟨o, ho, hm⟩ := a.simulates he
  cases ho.symm.trans hstep
  exact hm.prepend hsteps

end

/-- **The instructions of a function**, behind its symbol. -/
def body (a : Allocated) : List Asm :=
  a.placed.prologue ++ a.schedule.blocks.flatMap (a.placed.blockCode a.schedule)

theorem code_eq (a : Allocated) : a.code = Placed.header a.graph.name ++ a.body :=
  append_assoc _ _ _

section

variable {dead : NodeId → Prop} {ends : List NodeId} (hs : a.schedule.Built a.graph ends)
  (h : a.graph.Complete dead)

include hs h

/-- The code of the first line is that of the blocks, since the start block has no
label. -/
theorem codeFrom_zero :
    a.placed.codeFrom a.schedule 0 = a.schedule.blocks.flatMap (a.placed.blockCode a.schedule) := by
  obtain ⟨later, hl⟩ := h.layout_eq_cons
  have hm := hs.map_block
  rw [hl] at hm
  obtain ⟨b, after, hblocks, hb, -⟩ := map_eq_cons_iff.1 hm
  obtain ⟨item, rest, hi⟩ := hs.exists_items (hblocks ▸ mem_cons_self : b ∈ a.schedule.blocks)
  have hlt : 0 < b.items.length := by
    rw [hi]
    exact Nat.zero_lt_succ _
  unfold Placed.codeFrom
  rw [hblocks, Placed.codeFromIn, if_pos hlt, flatMap_cons, Placed.blockCode, Placed.blockLabel,
    if_pos hb, drop_zero, nil_append]

/-- **A function that is called ends as its graph does**, whatever the machine holds,
with the two pointers as they were. -/
theorem ends_code (hn : a.numbering = a.schedule.numbering a.graph)
    (ht : ∀ d, (a.graph.kind d).mayTrap → a.graph.blockOf d ∈ a.graph.layout →
      d ∈ a.schedule.scheduled a.graph) (hends : a.graph.Ends (fun _ _ => True) word)
    (m : Machine) (hroom : a.allocation.frameSize + 8 ≤ 2 ^ 64) :
    ∃ f : Frame, f.base + BitVec.ofNat 64 f.size + 8 = m.regs .rsp ∧ f.saved = m.regs .rbp ∧
      a.Meets f a.code (a.placed.codeFrom a.schedule) ⟨m, a.body⟩ (.final word) := by
  have hl : Line.ofSchedule a.graph a.schedule (a.schedule.numbering a.graph) = .ok a.lines :=
    hn ▸ a.lines_eq
  obtain ⟨f, m', hsteps, hf, hsize, hrsp, hrbp⟩ := a.placed.exists_framed m hroom a.code
    (a.placed.codeFrom a.schedule 0)
  rw [codeFrom_zero hs h] at hsteps
  refine ⟨f, hrsp, hrbp, ?_⟩
  obtain ⟨b, item, rest, hat, -⟩ := hs.at_zero h.toRegular
  -- Nothing is live into the first line, so the registers may hold anything.
  have hlive : a.liveness.liveInAt 0 = [] := eq_nil_iff_forall_not_mem.2 fun r hr =>
    hs.not_liveInto_zero h hl (Liveness.mem_liveInAt.1 hr)
  have he : a.Entered 0 f (fun _ => 0) m' :=
    ⟨size_lines (a := a) ▸ hat.lt, hf, hsize, fun r hr => by
      rw [hlive] at hr
      exact absurd hr not_mem_nil⟩
  have hm := he.ends (fun i hi j hj => hs.lt_of_mem_succs hl hi hj)
    (hs.ends_lines h hl hends ht _)
  rw [codeFrom_zero hs h] at hm
  exact hm.prepend hsteps

end

end Allocated

end SsaCompiler
