import SsaCompiler.Proofs.Allocation
import SsaCompiler.Proofs.Line
import SsaCompiler.Proofs.Machine.Sequence

/-!
# Lines whose registers have places

A graph that went through scheduling, numbering and allocation is bundled
with what these stages guarantee (`Allocated`). A machine **holds** a set of
registers when each of them has its word in its place. A line that sets no
place but those of its own registers and the scratch registers hands over
to its successors: **what they need is either set by the line or still where
it was** (`Allocated.holds_of_differs`).
-/

namespace SsaCompiler

open List Liveness

open Liveness (lineAt)

variable {g : Graph} {k : Nat}

/-- **Each of some registers has its word in its place.** -/
def Allocation.Holds (a : Allocation) (live : List VReg) (file : RegisterFile) (m : Machine) :
    Prop :=
  ∀ r ∈ live, ∃ l, a.location? r = some l ∧ m.get l = file r

/-- Whether a node computes from two operands: a binary operation or a
comparison. -/
def Kind.isOperation : Kind → Bool
  | binary _ | compare _ => true
  | _ => false

/-- **A graph with places for the registers of its lines**, and what makes it
fit for emission. -/
structure Allocated where
  graph : Graph
  schedule : Schedule
  numbering : Numbering
  lines : Array Line
  registers : List Register
  built : ∃ ends, schedule.Built graph ends
  lines_eq : Line.ofSchedule graph schedule numbering = .ok lines
  nodup : registers.Nodup
  allocatable : registers ⊆ Register.allocatable
  /-- No operation that is scheduled computes an operand of its own. -/
  operand_ne : ∀ {n}, .node n ∈ schedule.items → (graph.kind n).isOperation = true →
    ∀ m ∈ graph.operands n, graph.producer m ≠ n
  /-- No two laid-out blocks have the same label. -/
  label_inj : ∀ {b b'}, b ∈ graph.layout → b' ∈ graph.layout →
    graph.label b = graph.label b' → b = b'
  /-- A block does not have the label of a comparison. -/
  label_ne : ∀ {b n op}, b ∈ graph.layout → graph.kind n = .compare op →
    graph.label b ≠ s!"{graph.name}_cmp{n}_true" ∧ graph.label b ≠ s!"{graph.name}_cmp{n}_end"
  /-- Nothing jumps to the start block. -/
  start_not_target : ∀ {n}, Graph.startBlock ∉ graph.targets n

theorem Graph.producer_of_not_isProj {n : NodeId} (h : (g.kind n).isProj = false) :
    g.producer n = n := by
  unfold producer
  cases g.size with
  | zero => rfl
  | succ size => rw [producerWithin, if_neg (by rw [h]; decide)]

/-- **Merges of a block have registers of their own.** -/
theorem Schedule.Built.nodup_registers {s : Schedule} {numbering : Numbering} {ends : List NodeId}
    {block edge : Nat} {copies : List (VReg × VReg)} (built : s.Built g ends)
    (h : List.Forall₂ (fun phi copy => (⟨g, s, numbering⟩ : Line.Context).register phi = .ok copy.1
      ∧ (⟨g, s, numbering⟩ : Line.Context).operand phi edge = .ok copy.2) (s.valuePhis block)
      copies) :
    (copies.map (·.1)).Nodup := by
  have self : ∀ phi ∈ s.valuePhis block, g.producer phi = phi := fun phi hp => by
    refine Graph.producer_of_not_isProj ?_
    have := (built.mem_valuePhis hp).2.1
    cases hk : g.kind phi <;> simp_all [Kind.isValuePhi, Kind.isProj]
  have nodup := built.nodup_valuePhis block
  generalize s.valuePhis block = phis at h self nodup
  induction h with
  | nil => exact nodup_nil
  | @cons phi copy phis copies hc hcs ih =>
    obtain ⟨hp, nodup⟩ := nodup_cons.1 nodup
    obtain ⟨hs, self⟩ := forall_mem_cons.1 self
    refine nodup_cons.2 ⟨fun hm => ?_, ih self nodup⟩
    -- another merge with the same register would be the same merge
    obtain ⟨other, ho, e⟩ := mem_map.1 hm
    obtain ⟨k, hk, rfl⟩ := getElem_of_mem ho
    have hk' : k < phis.length := hcs.length_eq ▸ hk
    obtain ⟨hreg, -⟩ := (List.forall₂_iff_get.1 hcs).2 k hk' hk
    have same := Line.Context.producer_eq_of_register hc.1 (e ▸ hreg)
    have : phi = phis[k] := hs.symm.trans (same.trans (self _ (getElem_mem hk')))
    exact hp (this ▸ getElem_mem hk')

namespace Placed

variable {p : Placed} {s : Schedule} {n : NodeId} {r : VReg} {l : Location}

/-- What the lines of a schedule are made from. -/
def context (p : Placed) (s : Schedule) : Line.Context :=
  ⟨p.graph, s, p.numbering⟩

/-- The place of a node is that of its register. -/
theorem location_of_register (hn : (p.context s).register n = .ok r)
    (hr : p.allocation.location? r = some l) : p.location n = .ok l := by
  refine Except.bind_eq_ok.2 ⟨r, hn, ?_⟩
  simp only [hr]

theorem operandLocation_of_operand (hn : (p.context s).operand n k = .ok r)
    (hr : p.allocation.location? r = some l) : p.operandLocation n k = .ok l := by
  obtain ⟨m, hm, hreg⟩ := Line.Context.operand_eq_ok.1 hn
  exact Except.bind_eq_ok.2 ⟨m, Failure.require_eq_ok.2 hm, location_of_register hreg hr⟩

end Placed

namespace Allocated

variable (a : Allocated)

/-- What the lines were made from. -/
def context : Line.Context :=
  ⟨a.graph, a.schedule, a.numbering⟩

def liveness : Liveness :=
  .solve a.lines

def allocation : Allocation :=
  .ofInterference a.registers (.ofLiveness a.liveness)

/-- The graph as it is emitted. -/
def placed : Placed :=
  ⟨a.graph, a.numbering, a.allocation⟩

/-- The place of a register that some line names. -/
def place (r : VReg) : Location :=
  (a.allocation.location? r).getD Instr.sourceScratch

variable {a} {i j : Nat} {r r' : VReg} {n : NodeId} {m m' : Machine} {f : Frame}
  {file file' : RegisterFile}

/-! ## Places of registers -/

/-- A register that a line names has its place. -/
theorem location?_eq (hi : i < a.lines.size)
    (hr : r ∈ (lineAt a.lines i).defs ∨ r ∈ (lineAt a.lines i).uses) :
    a.allocation.location? r = some (a.place r) := by
  obtain ⟨l, hl⟩ := Allocation.exists_location? (v := a.liveness) a.registers hi hr
  have hl : a.allocation.location? r = some l := hl
  rw [place, hl]
  rfl

theorem location?_eq_of_live (hr : r ∈ a.liveness.liveInAt i) :
    a.allocation.location? r = some (a.place r) := by
  obtain ⟨u, hu, hr⟩ := (mem_liveInAt.1 hr).exists_mem_uses
  exact location?_eq hu (.inr hr)

theorem assignable (h : a.allocation.location? r = some (a.place r)) :
    (a.place r).Assignable a.allocation.frameSize :=
  Allocation.assignable_of_location? a.allocatable h

/-- Registers that a line keeps apart have different places. -/
theorem place_ne (hi : i < a.lines.size) (h : a.liveness.KeepsApart i r r') (hne : r ≠ r')
    (hr : a.allocation.location? r = some (a.place r))
    (hr' : a.allocation.location? r' = some (a.place r')) : a.place r ≠ a.place r' :=
  Allocation.location?_ne a.nodup hi hne h hr hr'

theorem holds_iff : a.allocation.Holds (a.liveness.liveInAt i) file m
    ↔ ∀ r ∈ a.liveness.liveInAt i, m.get (a.place r) = file r := by
  refine forall₂_congr fun r hr => ?_
  rw [location?_eq_of_live hr]
  simp

theorem get_place (hi : i < a.lines.size)
    (h : a.allocation.Holds (a.liveness.liveInAt i) file m)
    (hr : r ∈ (lineAt a.lines i).uses) : m.get (a.place r) = file r :=
  holds_iff.1 h r (mem_liveInAt_of_mem_uses hi hr)

/-! ## From a line to its successors -/

/-- **A line hands over to its successors.** The places that may have changed
are those of the registers it sets, and scratch; those registers have their
new words, and all others their old ones. -/
theorem holds_of_differs {places : List Location} (hi : i < a.lines.size)
    (hj : j ∈ (lineAt a.lines i).succs)
    (h : a.allocation.Holds (a.liveness.liveInAt i) file m) (hf : f.size = a.allocation.frameSize)
    (differs : Machine.Differs f places m m')
    (hplaces : ∀ l ∈ places, l ∈ Instr.scratchPlaces ∨ ∃ d ∈ (lineAt a.lines i).defs, l = a.place d)
    (kept : ∀ r ∉ (lineAt a.lines i).defs, file' r = file r)
    (set : ∀ d ∈ (lineAt a.lines i).defs, m'.get (a.place d) = file' d) :
    a.allocation.Holds (a.liveness.liveInAt j) file' m' := by
  refine holds_iff.2 fun r hr => ?_
  by_cases hd : r ∈ (lineAt a.lines i).defs
  · exact set r hd
  have live := mem_liveInAt_of_mem_succs hi hj hr hd
  have hl := location?_eq_of_live live
  have inFrame : (a.place r).InFrame f.size := hf ▸ (assignable hl).inFrame
  rw [kept r hd, ← holds_iff.1 h r live]
  refine differs.keeps _ inFrame fun hp => ?_
  rcases hplaces _ hp with hs | ⟨d, hd', e⟩
  · exact Instr.not_mem_scratchPlaces (assignable hl) hs
  · -- the register is live behind the line, so it was kept apart from what the line sets
    have out : r ∈ a.liveness.liveOutAt i := mem_liveOutAt_of_mem_succs hj hr
    exact place_ne hi (.inr (.inr (.inl ⟨out, hd'⟩))) (fun e => hd (e ▸ hd')) hl
      (location?_eq hi (.inl hd')) e

theorem holds_of_succ (hi : i < a.lines.size) (hj : j ∈ (lineAt a.lines i).succs)
    (hd : (lineAt a.lines i).defs = [])
    (h : a.allocation.Holds (a.liveness.liveInAt i) file m) :
    a.allocation.Holds (a.liveness.liveInAt j) file m := by
  refine holds_iff.2 fun r hr => holds_iff.1 h r ?_
  exact mem_liveInAt_of_mem_succs hi hj hr (hd ▸ not_mem_nil)

theorem ne_start_of_mem_targets (a : Allocated) {block : NodeId}
    (h : block ∈ a.graph.targets n) : block ≠ Graph.startBlock := by
  rintro rfl
  exact a.start_not_target h

/-! ## Places of nodes -/

theorem location_eq (hn : a.context.register n = .ok r)
    (hr : a.allocation.location? r = some (a.place r)) :
    a.placed.location n = .ok (a.place r) :=
  Placed.location_of_register (p := a.placed) (s := a.schedule) hn hr

theorem operandLocation_eq (hn : a.context.operand n k = .ok r)
    (hr : a.allocation.location? r = some (a.place r)) :
    a.placed.operandLocation n k = .ok (a.place r) :=
  Placed.operandLocation_of_operand (p := a.placed) (s := a.schedule) hn hr

/-- **The result of an operation is kept apart from its operands'
registers**, because it is not an operand of itself. -/
theorem register_ne (hmem : .node n ∈ a.schedule.items) (ho : (a.graph.kind n).isOperation)
    (hn : a.context.register n = .ok r) (hop : a.context.operand n k = .ok r') : r ≠ r' := by
  rintro rfl
  obtain ⟨m, hm, hreg⟩ := Line.Context.operand_eq_ok.1 hop
  have same : a.graph.producer n = a.graph.producer m :=
    Line.Context.producer_eq_of_register hn hreg
  have self : a.graph.producer n = n := by
    refine Graph.producer_of_not_isProj ?_
    cases hk : a.graph.kind n <;> simp_all [Kind.isOperation, Kind.isProj]
  exact a.operand_ne hmem ho m (mem_of_getElem? hm) (same.symm.trans self)

end Allocated

end SsaCompiler
