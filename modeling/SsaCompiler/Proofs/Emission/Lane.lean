import SsaCompiler.Proofs.Emission.Labels
import SsaCompiler.Proofs.Emission.Simulation
import SsaCompiler.Proofs.Machine.Lane

/-!
# The lane of an item

The code of an item may write the places of the registers that the item defines, and
the registers that are never given to a value: this is its **lane** (`Placed.lane`). A
return also undoes the frame.

Code stays in its lane whatever the graph, the schedule and the numbering are, if values
live in allocatable registers and on the stack. Nothing is needed about which registers
are live: two values may share a place, the code of an item still leaves all other
places alone (`Placed.emitted_code_keeps_lanes`).
-/

namespace SsaCompiler

open List SsaCompiler.Except Instr

variable {i : Instr} {r : Register}

theorem Asm.instr_mem_map {code : List Instr} : Asm.instr i ∈ code.map .instr ↔ i ∈ code :=
  mem_map_of_injective fun _ _ => Asm.instr.inj

namespace Placed

variable {p : Placed} {s : Schedule} {item : Item} {n : NodeId} {l : Location} {code : List Asm}

/-- **The nodes whose registers an item defines.** -/
def defines (p : Placed) (s : Schedule) : Item → List NodeId
  | .node n => if (p.graph.kind n).holdsValue then [n] else []
  | .phiMoves target _ => s.valuePhis target

/-- The registers of the frame, if the item is a return. -/
def unframes (p : Placed) : Item → List Location
  | .node n => if p.graph.kind n = .ret then [.reg .rsp, .reg .rbp] else []
  | .phiMoves _ _ => []

/-- **The lane of an item**: the places of the registers it defines, and the registers
with a role of their own. A return also undoes the frame. -/
def lane (p : Placed) (s : Schedule) (item : Item) : List Location :=
  (p.defines s item).filterMap (fun n => (p.location n).toOption)
    ++ (Instr.scratchPlaces ++ p.unframes item)

theorem mem_defines (h : (p.graph.kind n).holdsValue) : n ∈ p.defines s (.node n) := by
  rw [defines, if_pos h]
  exact .head _

theorem defines_of_ret (h : p.graph.kind n = .ret) : p.defines s (.node n) = [] := by
  rw [defines, h]
  rfl

theorem unframes_of_ret (h : p.graph.kind n = .ret) :
    p.unframes (.node n) = [.reg .rsp, .reg .rbp] :=
  if_pos h

theorem unframes_of_ne (h : p.graph.kind n ≠ .ret) : p.unframes (.node n) = [] := if_neg h

/-! ## Places of values -/

theorem exists_location?_of_location (h : p.location n = .ok l) :
    ∃ r, p.allocation.location? r = some l := by
  obtain ⟨r, -, h⟩ := bind_eq_ok.1 h
  split at h
  · next place hp => exact ⟨r, Except.ok.inj h ▸ hp⟩
  · cases h

/-- A value is not kept in a register that has a role of its own. -/
theorem location_ne_reg (hregs : ∀ r ∈ p.allocation.registers, r.isAllocatable)
    (h : p.location n = .ok l) (hr : r.isAllocatable = false) : l ≠ .reg r := by
  rintro rfl
  obtain ⟨v, hv⟩ := exists_location?_of_location h
  rcases Allocation.cases_of_location? hv with hs | ⟨x, hx, he⟩
  · cases hs
  · cases he
    exact absurd (hregs _ hx) (by rw [hr]; decide)

theorem operandLocation_ne_reg (hregs : ∀ r ∈ p.allocation.registers, r.isAllocatable)
    {index : Nat} (h : p.operandLocation n index = .ok l) (hr : r.isAllocatable = false) :
    l ≠ .reg r := by
  obtain ⟨m, -, h⟩ := bind_eq_ok.1 h
  exact location_ne_reg hregs h hr

theorem mem_lane (hn : n ∈ p.defines s item) (h : p.location n = .ok l) : l ∈ p.lane s item :=
  mem_append_left _ (mem_filterMap.2 ⟨n, hn, toOption_eq_some.2 h⟩)

theorem scratchPlaces_subset_lane : Instr.scratchPlaces ⊆ p.lane s item := fun _ h =>
  mem_append_right _ (mem_append_left _ h)

theorem target_subset_lane (hn : n ∈ p.defines s item) (h : p.location n = .ok l) :
    l :: Instr.scratchPlaces ⊆ p.lane s item :=
  cons_subset.2 ⟨mem_lane hn h, scratchPlaces_subset_lane⟩

/-! ## The code of an item -/

theorem mem_comparison {op : CmpOp} {lhs rhs target : Location}
    (h : .instr i ∈ p.comparison n op lhs rhs target) :
    i = .cmpl (.loc rhs) lhs ∨ (∃ label, i = .jcc (Instr.condition op) label ∨ i = .jmp label)
      ∨ ∃ value, i ∈ Instr.const value target := by
  simp only [comparison, Instr.const, map_cons, map_nil,
    cons_append, nil_append, mem_cons, Asm.instr.injEq, not_mem_nil,
    reduceCtorEq, or_false, false_or] at h
  rcases h with rfl | rfl | rfl | rfl | rfl
  · exact .inl rfl
  · exact .inr (.inl ⟨_, .inl rfl⟩)
  · exact .inr (.inr ⟨0, .head _⟩)
  · exact .inr (.inl ⟨_, .inr rfl⟩)
  · exact .inr (.inr ⟨1, .head _⟩)

theorem confined_jump (places : List Location) (label : String) :
    (Instr.jmp label).Regular ∧ (Instr.jmp label).modifies ⊆ places :=
  ⟨⟨Nat.zero_le _, trivial⟩, nil_subset _⟩

/-- **The code of an item can be encoded and stays in its lane.** -/
theorem confined_item (hr : ∀ r ∈ p.allocation.registers, r.isAllocatable)
    (h : p.item s item = .ok code) :
    ∀ i, .instr i ∈ code → i.Regular ∧ i.modifies ⊆ p.lane s item := by
  -- code without labels is told by its instructions
  have plain : ∀ {instrs : List Instr}, Instr.Confined (p.lane s item) instrs →
      ∀ i, .instr i ∈ instrs.map Asm.instr → i.Regular ∧ i.modifies ⊆ p.lane s item :=
    fun hc i hi => hc i (Asm.instr_mem_map.1 hi)
  cases writes_of_item h with
  | @constInt n value target hk ht | @constBool n value target hk ht
  | @undefined n target hk ht =>
    have hn : n ∈ p.defines s (.node n) := mem_defines (hk ▸ rfl)
    exact plain ((confined_const _ target).mono fun l hl =>
      mem_singleton.1 hl ▸ mem_lane hn ht)
  | @binary n op lhs rhs target hk ht hlhs hrhs =>
    have hn : n ∈ p.defines s (.node n) := mem_defines (hk ▸ rfl)
    have hreserved : rhs ≠ .reg .rax ∧ rhs ≠ .reg .rdx :=
      ⟨operandLocation_ne_reg hr hrhs (by decide), operandLocation_ne_reg hr hrhs (by decide)⟩
    exact plain ((confined_binary op hreserved).mono (target_subset_lane hn ht))
  | @compare n op lhs rhs target hk ht hlhs hrhs =>
    have hn : n ∈ p.defines s (.node n) := mem_defines (hk ▸ rfl)
    intro i hi
    rcases mem_append.1 hi with hi | hi
    · refine plain ((confined_load rhs).mono fun l hl => scratchPlaces_subset_lane ?_) i hi
      rw [mem_singleton.1 hl]
      simp [Instr.scratchPlaces]
    · rcases mem_comparison hi with rfl | ⟨label, rfl | rfl⟩ | ⟨value, hi⟩
      · exact ⟨regular_cmpl (load_isStack rhs), nil_subset _⟩
      · exact ⟨⟨Nat.zero_le _, trivial⟩, nil_subset _⟩
      · exact confined_jump _ label
      · exact (confined_const value target).mono (fun l hl =>
          mem_singleton.1 hl ▸ mem_lane hn ht) i hi
  | jump hk => exact plain fun i hi => mem_singleton.1 hi ▸ confined_jump _ _
  | @condJump n ifTrue ifFalse place hk hp =>
    refine plain fun i hi => ?_
    rcases mem_cons.1 hi with rfl | hi
    · exact ⟨regular_cmpl_imm 0 place, nil_subset _⟩
    rcases mem_cons.1 hi with rfl | hi
    · exact ⟨⟨Nat.zero_le _, trivial⟩, nil_subset _⟩
    · exact mem_singleton.1 hi ▸ confined_jump _ _
  | @ret n place hk hp =>
    refine plain (confined_append.2 ⟨?_, ?_⟩)
    · refine (confined_copy_reg place rfl).mono fun l hl => scratchPlaces_subset_lane ?_
      rw [mem_singleton.1 hl]
      exact .head _
    · refine confined_epilogue.mono fun l hl => ?_
      exact mem_append_right _ (mem_append_right _ ((unframes_of_ret hk).symm ▸ hl))
  | @phiMoves target edge moves hmoves =>
    refine plain fun i hi => ?_
    obtain ⟨m, hm, hi⟩ := mem_flatMap.1 hi
    refine (confined_copy m.1 m.2).mono (cons_subset.2 ⟨?_, ?_⟩) i hi
    · rcases hmoves m hm with he | ⟨phi, hphi, hlocation⟩
      · exact he ▸ scratchPlaces_subset_lane (by simp [Instr.scratchPlaces])
      · have hd : phi ∈ p.defines s (.phiMoves target edge) := hphi
        exact mem_lane hd hlocation
    · refine cons_subset.2 ⟨scratchPlaces_subset_lane ?_, nil_subset _⟩
      simp [Instr.scratchPlaces]

/-- **A lane fixes its slots**: it leaves the stack pointer alone, or the stack. -/
theorem lane_fixed (hregs : ∀ r ∈ p.allocation.registers, r.isAllocatable) :
    .reg .rsp ∉ p.lane s item ∨ ∀ offset, .stack offset ∉ p.lane s item := by
  have hd : .reg .rsp ∉ (p.defines s item).filterMap (fun n => (p.location n).toOption) :=
    fun h => by
      obtain ⟨n, -, hn⟩ := mem_filterMap.1 h
      exact location_ne_reg hregs (toOption_eq_some.1 hn) (by decide) rfl
  have hs : .reg .rsp ∉ Instr.scratchPlaces := by decide
  cases item with
  | phiMoves target edge =>
    refine .inl fun h => ?_
    rcases mem_append.1 h with h | h
    · exact hd h
    · exact hs ((mem_append.1 h).resolve_right not_mem_nil)
  | node n =>
    by_cases hk : p.graph.kind n = .ret
    · refine .inr fun offset h => ?_
      rw [lane, defines_of_ret hk, unframes_of_ret hk] at h
      have hr : ∀ l ∈ Instr.scratchPlaces ++ [.reg .rsp, .reg .rbp], l.isStack = false := by
        decide
      exact absurd (hr _ h) Bool.noConfusion
    · refine .inl fun h => ?_
      rw [lane, unframes_of_ne hk] at h
      exact (mem_append.1 h).elim hd hs

/-! ## The code of a function -/

theorem regular_front (h : .instr i ∈ header p.graph.name ++ p.prologue) : i.Regular := by
  have hf : i ∈ [.call s!"_{p.graph.name}", .movq .rax .rdi, .movqImm 60 .rax, .syscall,
      .push .rbp, .movq .rsp .rbp, .subq p.allocation.frameSize .rsp] := by
    simp only [header, prologue] at h
    split at h <;> simp at h ⊢ <;> tauto
  simp only [mem_cons, not_mem_nil, or_false] at hf
  rcases hf with rfl | rfl | rfl | rfl | rfl | rfl | rfl <;>
    exact ⟨by simp [Instr.operands, Location.isStack], trivial⟩

theorem mem_blockCode {b : ScheduledBlock} (h : .instr i ∈ p.blockCode s b) :
    ∃ item ∈ b.items, .instr i ∈ p.itemCode s item := by
  rcases mem_append.1 h with h | h
  · unfold blockLabel at h
    split at h
    · cases h
    · cases mem_singleton.1 h
  · exact mem_flatMap.1 h

theorem itemCode_infix (front : List Asm) (h : item ∈ s.items) :
    p.itemCode s item <:+: front ++ s.blocks.flatMap (p.blockCode s) := by
  obtain ⟨b, hb, hitem⟩ := mem_flatMap.1 h
  have hinBlock : p.itemCode s item <:+: p.blockCode s b :=
    (infix_of_mem_flatten (mem_map_of_mem hitem)).trans (suffix_append _ _).isInfix
  have hi : p.blockCode s b <:+: s.blocks.flatMap (p.blockCode s) :=
    infix_of_mem_flatten (mem_map_of_mem hb)
  exact hinBlock.trans (hi.trans (suffix_append _ _).isInfix)

/-- **Emitted code can be encoded and stays in its lane.** Let values live in allocatable
registers and on the stack. Then no instruction of a function has two operands in
memory, arithmetic and shifts go to registers, and a divisor is in a register that does
not hold the dividend. The code of every item is a part of the code of the function. Its
instructions modify nothing outside the lane of the item; so any run through lines of
this code leaves all other registers, and all bytes that are not in a slot of the lane,
as they were. -/
theorem emitted_code_keeps_lanes
    (hregs : ∀ r ∈ p.allocation.registers, r.isAllocatable = true) (h : p.function s = .ok code) :
    (∀ i, .instr i ∈ code → i.Regular)
      ∧ ∀ item ∈ s.items, ∃ piece, p.item s item = .ok piece ∧ piece <:+: code
        ∧ (∀ i, .instr i ∈ piece → i.modifies ⊆ p.lane s item)
        ∧ ∀ program c d, Execution.StepsThrough program piece c d →
          Machine.Spares (p.lane s item) c.machine d.machine := by
  obtain ⟨hitems, rfl⟩ := function_eq_ok h
  have hconfined := fun item hitem => confined_item hregs (hitems item hitem)
  refine ⟨fun i hi => ?_, fun item hitem => ⟨_, hitems item hitem, itemCode_infix _ hitem,
    fun i hi => (hconfined item hitem i hi).2, fun program c d hsteps => ?_⟩⟩
  · rcases List.mem_append.1 hi with hi | hi
    · exact regular_front hi
    · obtain ⟨b, hb, hi⟩ := List.mem_flatMap.1 hi
      obtain ⟨item, hitem, hi⟩ := mem_blockCode hi
      exact (hconfined item (List.mem_flatMap.2 ⟨b, hb, hitem⟩) i hi).1
  · exact Execution.spares_of_stepsThrough hsteps (fun i hi => (hconfined item hitem i hi).2)
      (lane_fixed hregs)

/-- The values of `return 6 / 3 < 5`, with one register for them. -/
def quotientBelowPlaced : Placed where
  graph := quotientBelow
  numbering := ⟨[3, 4, 5, 8, 9]⟩
  allocation := .ofInterference [.rbx] (.ofLiveness (.solve quotientBelowLines))

/-- The division of `return 6 / 3 < 5` modifies its target and the scratch registers, but
not the slot of its divisor, and the return modifies no slot. -/
theorem quotientBelow_keeps_lanes : let p := quotientBelowPlaced
    ∃ code, p.function quotientBelowSchedule = .ok code
      ∧ (∀ r ∈ p.allocation.registers, r.isAllocatable = true)
      ∧ (∀ i, .instr i ∈ code → i.Regular)
      ∧ (∃ piece, p.item quotientBelowSchedule (.node 5) = .ok piece
        ∧ ∀ program c d, Execution.StepsThrough program piece c d →
          Machine.Spares (.reg .rbx :: Instr.scratchPlaces) c.machine d.machine)
      ∧ ∃ piece, p.item quotientBelowSchedule (.node 10) = .ok piece
        ∧ ∀ program c d, Execution.StepsThrough program piece c d →
          Machine.Spares (Instr.scratchPlaces ++ [.reg .rsp, .reg .rbp]) c.machine d.machine := by
  intro p
  have hregs : ∀ r ∈ p.allocation.registers, r.isAllocatable = true := by decide +kernel
  have hok : (p.function quotientBelowSchedule).toOption.isSome = true := by decide +kernel
  obtain ⟨code, hcode⟩ := Option.isSome_iff_exists.1 hok
  have hcode := Except.toOption_eq_some.1 hcode
  obtain ⟨hregular, hlanes⟩ := emitted_code_keeps_lanes hregs hcode
  obtain ⟨quotient, hquotient, -, -, hspares⟩ := hlanes (.node 5) (by decide)
  obtain ⟨result, hresult, -, -, hspares'⟩ := hlanes (.node 10) (by decide)
  have hlane : p.lane quotientBelowSchedule (.node 5) = .reg .rbx :: Instr.scratchPlaces := by
    decide +kernel
  have hlane' : p.lane quotientBelowSchedule (.node 10) =
      Instr.scratchPlaces ++ [.reg .rsp, .reg .rbp] := by decide +kernel
  exact ⟨code, hcode, hregs, hregular, ⟨quotient, hquotient, hlane ▸ hspares⟩,
    result, hresult, hlane' ▸ hspares'⟩

end Placed

end SsaCompiler
