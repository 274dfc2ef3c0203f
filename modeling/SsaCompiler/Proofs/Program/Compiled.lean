import SsaCompiler.Proofs.Emission.Run
import SsaCompiler.Proofs.Program.Effects
import SsaCompiler.Proofs.Program.Session

/-!
# Compiled programs do what their source says

All stages come together here. The run of a function is a run of its graph, also
after lowering (`Translated.ends`, `Translated.ends_lowered`). Every division is
scheduled (`Translated.mem_scheduled`), so the run of the graph is one of its lines
and then of its code (`Allocated.ends_code`). What emission asks of a graph holds of
the graph of every function that returns (`Translated.exists_allocated`).

So **a compiled program, entered at one of its functions, ends as the function does**
(`Compile.program_runs_as_source`). The code is run inside the program, where no label
is defined twice.
-/

namespace SsaCompiler

open List

variable {registers : List Register}

/-! ## What emission asks of a graph -/

section

variable {g : Graph} {dead : NodeId → Prop} {s : Schedule} {ends : List NodeId} {n m : NodeId}

namespace Schedule.Built

/-- **No node computes an operand of its own.** -/
theorem producer_ne (hs : s.Built g ends) (h : g.Complete dead) (hn : n ∈ s.scheduled g)
    (hphi : (g.kind n).isPhi = false) (hb : (g.kind n).isBlock = false)
    (hm : m ∈ g.operands n) : g.producer m ≠ n := by
  rintro rfl
  have hmem := hs.mem_scheduled_of_mem_operands h hn hm
  have hr := (h.reaches_of_mem_layout (hs.selected h hn).home).2.1
  have hc := Graph.not_transGen_self (h.strict.order _ hr)
  rcases h.producer_eq_or (hs.selected h hmem) (mem_scheduled_iff.1 hmem).1 with
    he | ⟨hops, hp, hh⟩
  · rw [he] at hm hphi hb hc
    exact hc (.single ⟨hm, rfl, hphi, hb⟩)
  · obtain ⟨channel, hk⟩ := Kind.exists_eq_proj hp
    refine hc (.head (b := m) ⟨hops ▸ mem_singleton_self _, hh, ?_, ?_⟩
      (.single ⟨hm, hh.symm, hphi, hb⟩)) <;> rw [hk] <;> rfl

theorem mem_scheduled_of_mem_items (hs : s.Built g ends) (h : g.Complete dead)
    (hn : .node n ∈ s.items) : n ∈ s.scheduled g := by
  obtain ⟨b, hb, hn⟩ := mem_flatMap.1 hn
  obtain ⟨-, t, ht, hi⟩ := hs.of_mem_blocks hb
  rw [hi, mem_append, mem_singleton] at hn
  rcases hn with hn | he
  · rcases of_mem_body hn with ⟨_, he, hn, -⟩ | hc
    · exact Item.node.inj he ▸ hn
    · cases node?_copiesIn hc
  · rw [Item.node.inj he]
    exact hs.mem_scheduled_of_mem_ends h ((mem_ends hs.terminators).2
      ⟨b.block, hs.map_block ▸ mem_map_of_mem hb, ht⟩)

end Schedule.Built

theorem Graph.Regular.startBlock_not_mem_targets (h : g.Regular) (n : NodeId) :
    Graph.startBlock ∉ g.targets n := fun hm => by
  have he := h.mem_preds (Kind.isTerminator_of_mem_targets hm)
    (Kind.mem_exits_of_mem_targets hm)
  rw [Graph.preds, h.first] at he
  cases he

/-- **Blocks have labels of their own**, different from those of comparisons. -/
theorem Graph.Labelled.label_inj {names : NodeId → LocalName} (h : g.Labelled names)
    (hg : g.Regular) {b : NodeId} (hb : b ∈ g.layout) :
    (∀ b' ∈ g.layout, g.label b = g.label b' → b = b') ∧
      ∀ n : NodeId, g.label b ≠ s!"{g.name}_cmp{n}_true" ∧ g.label b ≠ s!"{g.name}_cmp{n}_end" := by
  obtain ⟨hblock, -, hne⟩ := hg.reaches_of_mem_layout hb
  have hk := h.known b hblock hne
  obtain ⟨role, earlier, hn, -⟩ := h.counted b hblock
  rw [h.label_eq hg hblock]
  refine ⟨fun b' hb' he => ?_, fun n => ⟨fun he => ?_, fun he => ?_⟩⟩
  · obtain ⟨hblock', -, hne'⟩ := hg.reaches_of_mem_layout hb'
    rw [h.label_eq hg hblock'] at he
    exact h.inj b b' hblock hblock' (LocalName.text_inj hk (h.known b' hblock' hne') he).2
  · have he := (LocalName.text_inj hk (show (LocalName.yes n).Known from trivial) he).2
    cases hn.symm.trans he
  · have he := (LocalName.text_inj hk (show (LocalName.done n).Known from trivial) he).2
    cases hn.symm.trans he

end

namespace Translated

variable {f : Function} {s : Stage} {flow : Flow} {r : FunctionGraph}

/-- **The graph of a function that returns is fit for emission**, with any machine
registers. -/
theorem exists_allocated (h : Translated f s flow r) (hreturns : f.body.returns)
    (nodup : registers.Nodup) (allocatable : registers ⊆ Register.allocatable) :
    ∃ (a : Allocated) (ends : List NodeId), a.graph = r.graph ∧ a.schedule.Built a.graph ends ∧
      a.numbering = a.schedule.numbering a.graph ∧ f.code registers = .ok a.code := by
  obtain ⟨schedule, ends, lines, hbuild, hbuilt, hnumbering, hl⟩ := h.exists_lines hreturns
  obtain ⟨names, hnames⟩ := h.labelled
  have hr := h.regular
  let a : Allocated :=
    { graph := r.graph, schedule, numbering := schedule.numbering r.graph, lines, registers
      built := ⟨ends, hbuilt⟩
      lines_eq := hl
      nodup, allocatable
      operand_ne := fun {n} hn ho m hm => hbuilt.producer_ne h.complete
        (hbuilt.mem_scheduled_of_mem_items h.complete hn)
        (by cases hk : r.graph.kind n <;> rw [hk] at ho <;> first | rfl | cases ho)
        (by cases hk : r.graph.kind n <;> rw [hk] at ho <;> first | rfl | cases ho)
        hm
      label_inj := fun hb hb' => (hnames.label_inj hr hb).1 _ hb'
      label_ne := fun hb _ => (hnames.label_inj hr hb).2 _
      start_not_target := hr.startBlock_not_mem_targets _ }
  refine ⟨a, ends, rfl, hbuilt, rfl, ?_⟩
  exact (Function.code_eq h.toGraph hbuild hnumbering hl registers).trans
    (Except.mapError_eq_ok.2 a.function_eq)

end Translated

/-! ## Runs of functions -/

/-- The bytes that a line of assembly reserves on the stack. -/
def Asm.reserved? : Asm → Option Nat
  | instr (.subq bytes .rsp) => some bytes
  | _ => none

/-- **The size of the frame** that code sets up. -/
def Asm.frameSize (code : List Asm) : Nat :=
  (code.findSome? reserved?).getD 0

theorem Allocated.frameSize_le (a : Allocated) : a.allocation.frameSize ≤ Asm.frameSize a.body := by
  show a.placed.allocation.frameSize ≤ _
  unfold Allocated.body Placed.prologue
  by_cases hz : a.placed.allocation.frameSize = 0
  · rw [hz]
    exact Nat.zero_le _
  · simp only [if_neg hz]
    exact le_rfl

/-- **Code ends as a function does** when it is run from a machine on: it comes to a
return with the result in its register and the two pointers as they were, or to a
division that traps. -/
def Execution.Ends (program : List Asm) (start : Execution) : Stmt.Outcome → Prop
  | .continues _ => False
  | .returns w => ∃ e, Steps program start e ∧ e.Returns ∧ e.machine.get (.reg .rax) = w ∧
      e.machine.regs .rsp = start.machine.regs .rsp ∧ e.machine.regs .rbp = start.machine.regs .rbp
  | .traps => ∃ e, Steps program start e ∧ e.Traps

/-- Code ends inside a program as it does alone. -/
theorem Execution.Ends.within {code before after rest : List Asm} {m : Machine}
    {outcome : Stmt.Outcome} (hn : (Asm.labels (before ++ code ++ after)).Nodup)
    (h : Ends code ⟨m, rest⟩ outcome) : Ends (before ++ code ++ after) ⟨m, rest ++ after⟩ outcome := by
  cases outcome with
  | continues env => exact h
  | returns w =>
    obtain ⟨e, hs, hr, hrest⟩ := h
    exact ⟨_, hs.within hn, hr.within, hrest⟩
  | traps =>
    obtain ⟨e, hs, ht⟩ := h
    exact ⟨_, hs.within hn, ht.within⟩

/-- **The code of a function ends as the function does**, from any machine whose stack
has room for the frame. -/
theorem Function.exists_body {f : Function} (hr : f.body.returns) (hty : f.WellTyped)
    (nodup : registers.Nodup) (allocatable : registers ⊆ Register.allocatable) :
    ∃ body, f.code registers = .ok (Placed.header f.name ++ body) ∧
      ∀ m : Machine, Asm.frameSize body + 8 ≤ 2 ^ 64 → ∀ outcome, f.Evaluates outcome →
        Execution.Ends (Placed.header f.name ++ body) ⟨m, body⟩ outcome := by
  obtain ⟨s, flow, r, h⟩ := f.exists_translated
  obtain ⟨a, ends, hg, hb, hn, hcode⟩ := h.exists_allocated hr nodup allocatable
  obtain ⟨hret, htrap, hgoesOn⟩ := h.ends hty hr
  have hname : a.graph.name = f.name := by rw [hg, h.name_eq]
  have hc := h.complete
  rw [← hg] at hc
  have ht : ∀ d, (a.graph.kind d).mayTrap = true → a.graph.blockOf d ∈ a.graph.layout →
      d ∈ a.schedule.scheduled a.graph := fun d hd _ => by
    rw [hg] at hb hd ⊢
    exact h.mem_scheduled hr hb hd
  rw [Allocated.code_eq, hname] at hcode
  refine ⟨a.body, hcode, fun m hroom outcome hrun => ?_⟩
  have hm : ∀ word, s.graph.Ends s.graph.Sensible word → _ := fun word he =>
    a.ends_code hb hc hn ht (hg ▸ h.ends_lowered he) m
      ((Nat.add_le_add_right a.frameSize_le 8).trans hroom)
  cases outcome with
  | continues env => exact hgoesOn env hrun
  | returns w =>
    obtain ⟨frame, hrsp, hrbp, e, hs, hr, hw, hrsp', hrbp'⟩ := hm _ (hret w hrun)
    exact ⟨e, hs, hr, hw, hrsp'.trans hrsp, hrbp'.trans hrbp⟩
  | traps =>
    obtain ⟨frame, -, -, e, hs, ht⟩ := hm _ (htrap hrun)
    exact ⟨e, hs, ht⟩

/-! ## Runs of programs -/

namespace Compile

/-- **A program that is compiled runs as its source says.** Take any duplicate-free
list of allocatable registers, and functions with different names that return on
all paths. They are compiled. In the code of the program, enter the body of a
function that is well typed, in any machine whose stack has room for the frame. If
the function returns a word, control comes to a return with the word in its
register and the stack and frame pointers as they were; if the function traps,
control comes to a division that traps. -/
theorem program_runs_as_source {registers : List Register} {p : Program} (nodup : registers.Nodup)
    (allocatable : registers ⊆ Register.allocatable) (hnames : (p.map (·.name)).Nodup)
    (hreturns : ∀ f ∈ p, f.body.returns = true) :
    ∃ (codes : List (List Asm)) (t : Session), runIn {} (program ⟨registers, none⟩ p) =
        (.ok (".text\n" ++ String.join (codes.map fun code => "\n" ++ Asm.render code)), t) ∧
      List.Forall₂ (fun f code => Function.code registers f = .ok code) p codes ∧
      ∀ f ∈ p, f.WellTyped → ∃ before body after,
        codes.flatten = before ++ (Placed.header f.name ++ body) ++ after ∧
        f.code registers = .ok (Placed.header f.name ++ body) ∧
        ∀ m : Machine, Asm.frameSize body + 8 ≤ 2 ^ 64 → ∀ outcome, f.Evaluates outcome →
          Execution.Ends codes.flatten ⟨m, body ++ after⟩ outcome := by
  have hall : p.findIdx (fun f => !f.body.returns) = p.length :=
    List.findIdx_eq_length.2 fun f hf => by rw [hreturns f hf]; rfl
  obtain ⟨done, hdone, hcompiled, hrest⟩ := exists_runIn_program
    (fun h => absurd (allocatable h) (by decide)) p hall.symm
  rw [List.take_length] at hdone
  obtain ⟨-, t, hrun, -⟩ := hrest.resolve_right fun hfails => by
    obtain ⟨f, -, -, -, hat, -⟩ := hfails
    rw [List.getElem?_length] at hat
    cases hat
  have hcodes : List.Forall₂ (fun f code => Function.code registers f = .ok code) p
      (done.map (·.2.code)) := by
    rw [← hdone, List.forall₂_map_left_iff, List.forall₂_map_right_iff]
    exact List.forall₂_same.2 fun x hx => Function.code_of_compiled (hcompiled x hx)
  have hlabels := nodup_labels hnames hcodes
  rw [← Asm.labels_flatMap, List.flatMap_id'] at hlabels
  refine ⟨done.map (·.2.code), t, ?_, hcodes, fun f hf hty => ?_⟩
  · rw [hrun, List.map_map]
    rfl
  · obtain ⟨body, hcode, hends⟩ := Function.exists_body (hreturns f hf) hty nodup allocatable
    rw [← hdone] at hf
    obtain ⟨x, hx, rfl⟩ := List.mem_map.1 hf
    have hbody : x.2.code = Placed.header x.1.name ++ body :=
      Except.ok.inj ((Function.code_of_compiled (hcompiled x hx)).symm.trans hcode)
    obtain ⟨first, others, hsplit⟩ := List.append_of_mem hx
    have hflat : (done.map (·.2.code)).flatten = (first.map (·.2.code)).flatten ++
        (Placed.header x.1.name ++ body) ++ (others.map (·.2.code)).flatten := by
      rw [hsplit, List.map_append, List.flatten_append, List.map_cons, List.flatten_cons, hbody,
        ← List.append_assoc (first.map _).flatten]
    rw [hflat] at hlabels ⊢
    exact ⟨_, body, _, rfl, hcode, fun m hroom outcome heval =>
      (hends m hroom outcome heval).within hlabels⟩

/-- A function that counts how often a number can be divided by three. -/
def thirds : Function :=
  ⟨"f", .seq (.declare "x" .int (some (.int 100))) (.seq (.declare "n" .int none)
    (.seq (.loop (.binary (.compare .less) (.int 0) (.var "x"))
      (.seq (.assign "x" (some (.arith .div)) (.int 3)) (.assign "n" (some (.arith .add)) (.int 1))))
    (.ret (.var "n"))))⟩

/-- A function that divides by zero and does not use the result. -/
def dividing : Function :=
  ⟨"g", .seq (.declare "x" .int (some (.binary (.arith .div) (.int 1) (.int 0)))) (.ret (.int 0))⟩

/-- Compiled together without any machine registers, the one returns five and the
other traps. -/
theorem thirds_returns_dividing_traps : ∃ (codes : List (List Asm)) (t : Session),
    runIn {} (program ⟨[], none⟩ [thirds, dividing]) =
        (.ok (".text\n" ++ String.join (codes.map fun code => "\n" ++ Asm.render code)), t) ∧
      (∃ before body after, codes.flatten = before ++ (Placed.header "f" ++ body) ++ after ∧
        ∀ m : Machine, Asm.frameSize body + 8 ≤ 2 ^ 64 →
          Execution.Ends codes.flatten ⟨m, body ++ after⟩ (.returns 5)) ∧
      ∃ before body after, codes.flatten = before ++ (Placed.header "g" ++ body) ++ after ∧
        ∀ m : Machine, Asm.frameSize body + 8 ≤ 2 ^ 64 →
          Execution.Ends codes.flatten ⟨m, body ++ after⟩ .traps := by
  obtain ⟨codes, t, hrun, -, hends⟩ := program_runs_as_source (p := [thirds, dividing])
    List.nodup_nil (List.nil_subset _) (by decide) (by decide)
  have hthirds : thirds.WellTyped := ⟨fun _ => .int, ⟨rfl, .int _⟩, rfl,
    ⟨.binary (.compare ..) (.int _) (.var _), ⟨.int, .arith _, .int _⟩, .int, .arith _, .int _⟩,
    .int, .var _⟩
  have hdividing : dividing.WellTyped :=
    ⟨fun _ => .int, ⟨rfl, .binary (.arith _) (.int _) (.int _)⟩, .int, .int _⟩
  obtain ⟨before, body, after, hcode, -, hf⟩ := hends thirds (by decide) hthirds
  obtain ⟨before', body', after', hcode', -, hg⟩ := hends dividing (by decide) hdividing
  exact ⟨codes, t, hrun, ⟨before, body, after, hcode, fun m hroom => hf m hroom _ ⟨9, rfl⟩⟩,
    before', body', after', hcode', fun m hroom => hg m hroom _ ⟨0, rfl⟩⟩

end Compile

end SsaCompiler
