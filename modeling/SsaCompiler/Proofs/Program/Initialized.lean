import SsaCompiler.Proofs.Graph.Available
import SsaCompiler.Proofs.Program.Success

/-!
# Registers are set before they are read

The graph of a function is complete, so nothing is live into its first line, and
control never runs off its lines. Put in terms of the lines that control comes
through (`Line.IsTrace`): **every register that a line reads was set by a line
before it** (`Function.registers_set_before_read`).
-/

namespace SsaCompiler

open Liveness (lineAt)

namespace Line

/-- **The lines that control comes through** from the first one on, the latest
first. -/
inductive IsTrace (lines : Array Line) : List Nat → Prop
  | first : IsTrace lines [0]
  | next {i j : Nat} {trace : List Nat} (h : IsTrace lines (i :: trace))
      (hj : j ∈ (lineAt lines i).succs) : IsTrace lines (j :: i :: trace)

variable {lines : Array Line} {i : Nat} {trace : List Nat} {r : VReg}

theorem IsTrace.lt (h : IsTrace lines (i :: trace)) (hsize : 0 < lines.size)
    (hs : ∀ i < lines.size, ∀ j ∈ (lineAt lines i).succs, j < lines.size) : i < lines.size := by
  generalize ht : i :: trace = all at h
  induction h generalizing i trace with
  | first => exact (List.cons.inj ht).1 ▸ hsize
  | next _ hj ih => exact (List.cons.inj ht).1 ▸ hs _ (ih rfl) _ hj

/-- **What is live into a line and was not set on the way is live into the first
line.** -/
theorem LiveInto.zero (hl : LiveInto lines r i) (h : IsTrace lines (i :: trace))
    (hsize : 0 < lines.size)
    (hs : ∀ i < lines.size, ∀ j ∈ (lineAt lines i).succs, j < lines.size)
    (hn : ∀ j ∈ trace, r ∉ (lineAt lines j).defs) : LiveInto lines r 0 := by
  generalize ht : i :: trace = all at h
  induction h generalizing i trace with
  | first => exact (List.cons.inj ht).1 ▸ hl
  | @next j k trace' h hj ih =>
    cases ht
    exact ih (.pass (h.lt hsize hs) hj (hn j (.head _)) hl)
      (fun m hm => hn m (.tail _ hm)) rfl

end Line

/-- **Every register is set before it is read.** A function that returns on all
paths has lines. No register is live into the first line, and control goes to
lines only. So on every way through the lines, each register that a line reads was
set by an earlier line of the way. -/
theorem Function.registers_set_before_read (f : Function) (hreturns : f.body.returns = true) :
    ∃ r schedule numbering lines, f.toGraph = .ok r ∧ Schedule.build r.graph = .ok schedule ∧
      Numbering.ofSchedule r.graph schedule = .ok numbering ∧
      Line.ofSchedule r.graph schedule numbering = .ok lines ∧ 0 < lines.size ∧
      (Liveness.solve lines).liveInAt 0 = [] ∧
      (∀ i < lines.size, ∀ j ∈ (lineAt lines i).succs, j < lines.size) ∧
      ∀ i trace, Line.IsTrace lines (i :: trace) → i < lines.size ∧
        ∀ register ∈ (lineAt lines i).uses, ∃ j ∈ trace, register ∈ (lineAt lines j).defs := by
  obtain ⟨s, flow, r, h⟩ := f.exists_translated
  obtain ⟨schedule, ends, lines, hbuild, hbuilt, hnumbering, hlines⟩ := h.exists_lines hreturns
  have hzero : ∀ register, ¬ Line.LiveInto lines register 0 := fun register =>
    hbuilt.not_liveInto_zero h.complete hlines
  have hsuccs : ∀ i < lines.size, ∀ j ∈ (lineAt lines i).succs, j < lines.size := fun i hi j hj =>
    hbuilt.lt_of_mem_succs hlines hi hj
  have hsize : 0 < lines.size := by
    obtain ⟨b, item, rest, hat, -⟩ := hbuilt.at_zero h.regular
    exact (Line.ofSchedule_eq_ok hlines).1 ▸ hat.lt
  refine ⟨r, schedule, _, lines, h.toGraph, hbuild, hnumbering, hlines, hsize,
    List.eq_nil_iff_forall_not_mem.2 fun register hmem => hzero register
      (Liveness.mem_liveInAt.1 hmem), hsuccs, fun i trace htrace => ?_⟩
  have hi := htrace.lt hsize hsuccs
  refine ⟨hi, fun register hregister => ?_⟩
  by_contra hnot
  exact hzero register (Line.LiveInto.zero (.use hi hregister) htrace hsize hsuccs
    fun j hj hdef => hnot ⟨j, hj, hdef⟩)

/-- A function that counts down in a loop. -/
def countingDown : Function :=
  ⟨"f", .seq (.declare "x" .int (some (.int 3))) (.seq
    (.loop (.binary (.compare .less) (.int 0) (.var "x"))
      (.assign "x" (some (.arith .sub)) (.int 1))) (.ret (.var "x")))⟩

/-- In its lines every register is set before it is read. -/
theorem countingDown_registers_set : countingDown.body.returns = true ∧
    ∃ r schedule numbering lines, countingDown.toGraph = .ok r ∧
      Schedule.build r.graph = .ok schedule ∧
      Numbering.ofSchedule r.graph schedule = .ok numbering ∧
      Line.ofSchedule r.graph schedule numbering = .ok lines ∧
      (Liveness.solve lines).liveInAt 0 = [] ∧
      ∀ i trace, Line.IsTrace lines (i :: trace) →
        ∀ register ∈ (lineAt lines i).uses, ∃ j ∈ trace, register ∈ (lineAt lines j).defs := by
  obtain ⟨r, schedule, numbering, lines, hr, hbuild, hnumbering, hlines, -, hzero, -, htraces⟩ :=
    countingDown.registers_set_before_read (by decide)
  exact ⟨by decide, r, schedule, numbering, lines, hr, hbuild, hnumbering, hlines, hzero,
    fun i trace htrace => (htraces i trace htrace).2⟩

end SsaCompiler
