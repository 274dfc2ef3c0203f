import SsaCompiler.Proofs.Emission.Layout

/-!
# Emitted code does what the lines do

The code of a function simulates the program over virtual registers, line
by line: from a machine in which every register live into a line has its
word in its place, the code of the line comes to the code of the line that
follows, with the registers live into that line in theirs.
-/

namespace SsaCompiler

open List

open Liveness (lineAt)

namespace Allocated

variable {a : Allocated} {i : Nat} {f : Frame} {file : RegisterFile} {m : Machine}

theorem endsBlock_of_last {b : ScheduledBlock} {k : Nat} (hb : b ∈ a.schedule.blocks)
    (hk : k < b.items.length) (last : b.items.length ≤ k + 1) {next : Nat} {l : Line}
    (hl : a.context.line b.items[k] next = .ok l) : l.op.endsBlock := by
  obtain ⟨ends, built⟩ := a.built
  obtain ⟨-, t, ht, hi⟩ := built.of_mem_blocks hb
  have hlen : b.items.length = (a.schedule.body a.graph b.block).length + 1 := by
    rw [hi, length_append]
    rfl
  have item : b.items[k] = .node t := by
    obtain rfl : k = (a.schedule.body a.graph b.block).length := by omega
    simp only [hi, getElem_concat_length]
  have terminator := (Graph.terminator?_eq_some ht).1
  rw [item] at hl
  cases Line.Context.nodeLine_eq_ok hl with
  | jump | condJump | ret => rfl
  | load hk => cases hk.symm.trans (Kind.constant?_of_isTerminator terminator)
  | binary hk | compare hk => cases hk ▸ terminator

/-- **The code from a line on** begins with the code of the line's item, which
is followed by the code of the next line unless the line ends a block. -/
theorem codeFrom_eq (hi : i < a.schedule.items.length) : ∃ rest, a.placed.codeFrom a.schedule i
        = a.placed.itemCode a.schedule a.schedule.items[i] ++ rest
      ∧ a.placed.codeFrom a.schedule i <:+ a.code
      ∧ ((lineAt a.lines i).op.endsBlock = false →
          a.placed.codeFrom a.schedule (i + 1) = rest) := by
  obtain ⟨before, b, after, k, hk, blocks, index, item⟩ := exists_position hi
  have at_k := codeFromIn_append (a := a) before after hk
  rw [← blocks, ← index] at at_k
  have item : a.schedule.items[i] = b.items[k] := item
  refine ⟨(b.items.drop (k + 1)).flatMap (a.placed.itemCode a.schedule)
    ++ after.flatMap (a.placed.blockCode a.schedule), ?_, ?_, fun falls => ?_⟩
  · rw [Placed.codeFrom, at_k, item, drop_eq_getElem_cons hk, flatMap_cons, append_assoc]
  · -- what stands before it: the frame, the blocks before, and the items before in its block
    refine ⟨Placed.header a.graph.name ++ a.placed.prologue
      ++ before.flatMap (a.placed.blockCode a.schedule)
      ++ (a.placed.blockLabel b ++ (b.items.take k).flatMap (a.placed.itemCode a.schedule)), ?_⟩
    rw [Placed.codeFrom, at_k, code, blocks]
    have split : b.items.flatMap (a.placed.itemCode a.schedule)
        = (b.items.take k).flatMap (a.placed.itemCode a.schedule)
          ++ (b.items.drop k).flatMap (a.placed.itemCode a.schedule) := by
      rw [← flatMap_append, take_append_drop]
    simp only [flatMap_append, flatMap_cons, Placed.blockCode, split, append_assoc]
  · have hk' : k + 1 < b.items.length := by
      by_contra h
      have := endsBlock_of_last (a := a) (by rw [blocks]; simp) hk (not_lt.1 h)
        (item ▸ line_eq hi)
      exact Bool.false_ne_true (falls.symm.trans this)
    have next := codeFromIn_append (a := a) before after hk'
    rwa [← blocks, ← Nat.add_assoc, ← index] at next

/-- **The code of a line does what the line does.** -/
theorem simulates (h : a.Entered i f file m) : ∃ o, (lineAt a.lines i).step file = some o
      ∧ a.Meets f a.code (a.placed.codeFrom a.schedule)
          ⟨m, a.placed.codeFrom a.schedule i⟩ o := by
  have hi : i < a.schedule.items.length := size_lines (a := a) ▸ h.lt
  obtain ⟨rest, code, suffix, falls⟩ := codeFrom_eq hi
  rw [code] at suffix ⊢
  exact (item_eq hi).2 h a.nodup_labels suffix falls fun _ _ => target_label

end Allocated

/-- **Emitted code simulates the program over virtual registers.** Take a graph
whose laid-out blocks have labels of their own, different from those of its
comparisons, in which nothing jumps to the start block and no operation is
its own operand, and which can be scheduled and, with some numbering, written as lines. With
places from any duplicate-free list of allocatable registers it is emitted,
and from any state in which a line is entered with its live registers in
their places, the code of the line ends as the line does. -/
theorem emitted_code_simulates_lines {g : Graph} {s : Schedule} {numbering : Numbering}
    {lines : Array Line} {registers : List Register}
    (labels : ∀ b ∈ g.layout, ∀ b' ∈ g.layout, g.label b = g.label b' → b = b')
    (compareLabels : ∀ b ∈ g.layout, ∀ n op, g.kind n = .compare op →
      g.label b ≠ s!"{g.name}_cmp{n}_true" ∧ g.label b ≠ s!"{g.name}_cmp{n}_end")
    (start : ∀ n, Graph.startBlock ∉ g.targets n)
    (operands : ∀ n, (g.kind n).isOperation = true → ∀ m ∈ g.operands n, g.producer m ≠ n)
    (scheduled : Schedule.build g = .ok s)
    (written : Line.ofSchedule g s numbering = .ok lines)
    (nodup : registers.Nodup) (allocatable : registers ⊆ Register.allocatable) :
    let liveness := Liveness.solve lines
    let allocation := Allocation.ofInterference registers (.ofLiveness liveness)
    let placed : Placed := ⟨g, numbering, allocation⟩
    ∃ code, placed.function s = .ok code
      ∧ ∀ i < lines.size, ∀ (f : Frame) (file : RegisterFile) (m : Machine),
          f.size = allocation.frameSize → m.Framed f →
          allocation.Holds (liveness.liveInAt i) file m →
          ∃ o, (lineAt lines i).step file = some o
            ∧ placed.Meets liveness.liveInAt f code (placed.codeFrom s)
                ⟨m, placed.codeFrom s i⟩ o := by
  let a : Allocated :=
    { graph := g, schedule := s, numbering, lines, registers
      built := Schedule.build_eq_ok scheduled
      lines_eq := written
      nodup, allocatable
      operand_ne := fun _ h => operands _ h
      label_inj := fun hb hb' => labels _ hb _ hb'
      label_ne := fun hb hk => compareLabels _ hb _ _ hk
      start_not_target := start _ }
  exact ⟨a.code, a.function_eq, fun i hi f file m size framed holds =>
    a.simulates ⟨hi, framed, size, holds⟩⟩

/-- The graph of `return 6 / 3 < 5`. -/
def quotientBelow : Graph where
  name := "f"
  nodes := #[⟨.block "f_start", 0, [], []⟩, ⟨.start, 0, [], [5]⟩, ⟨.block "f_end", 2, [10], []⟩,
    ⟨.constInt 6, 0, [], [5]⟩, ⟨.constInt 3, 0, [], [5]⟩,
    ⟨.binary (.arith .div), 0, [3, 4, 1], [6, 7]⟩, ⟨.proj .value, 0, [5], [9]⟩,
    ⟨.proj .effect, 0, [5], [10]⟩, ⟨.constInt 5, 0, [], [9]⟩,
    ⟨.compare .less, 0, [6, 8], [10]⟩, ⟨.ret, 0, [7, 9], [2]⟩]
  roles := ["end", "start"]

/-- The schedule of `return 6 / 3 < 5`: one block. -/
def quotientBelowSchedule : Schedule where
  blocks := [⟨0, [], [.node 3, .node 4, .node 5, .node 8, .node 9, .node 10]⟩]
  postorder := [0, 3, 4, 1, 5, 7, 6, 8, 9, 10]

/-- The lines of `return 6 / 3 < 5`. -/
def quotientBelowLines : Array Line :=
  #[{ item := .node 3, op := .load 6, defs := [0], succs := [1] },
    { item := .node 4, op := .load 3, defs := [1], succs := [2] },
    { item := .node 5, op := .binary (.arith .div), defs := [2], uses := [0, 1], succs := [3] },
    { item := .node 8, op := .load 5, defs := [3], succs := [4] },
    { item := .node 9, op := .compare .less, defs := [4], uses := [2, 3], succs := [5] },
    { item := .node 10, op := .ret, uses := [4] }]

/-- A property of the nodes of a graph holds of all numbers if it holds of
the nodes and of an isolated node. -/
theorem Graph.forall_node {g : Graph} {P : NodeId → Node → Prop}
    (h : ∀ n < g.size, P n (g.node n)) (hd : ∀ n, P n default) : ∀ n, P n (g.node n) := by
  intro n
  by_cases hn : n < g.size
  · exact h n hn
  · have : g.node n = default := dif_neg hn
    exact this ▸ hd n

/-- With all values on the stack, the code of `return 6 / 3 < 5` simulates its
six lines. -/
theorem emitted_code_simulates_quotientBelow :
    Schedule.build quotientBelow = .ok quotientBelowSchedule
      ∧ Line.ofSchedule quotientBelow quotientBelowSchedule ⟨[3, 4, 5, 8, 9]⟩
          = .ok quotientBelowLines
      ∧ let liveness := Liveness.solve quotientBelowLines
        let allocation := Allocation.ofInterference [] (.ofLiveness liveness)
        let placed : Placed := ⟨quotientBelow, ⟨[3, 4, 5, 8, 9]⟩, allocation⟩
        ∃ code, placed.function quotientBelowSchedule = .ok code
          ∧ ∀ i < quotientBelowLines.size, ∀ (f : Frame) (file : RegisterFile) (m : Machine),
              f.size = allocation.frameSize → m.Framed f →
              allocation.Holds (liveness.liveInAt i) file m →
              ∃ o, (lineAt quotientBelowLines i).step file = some o
                ∧ placed.Meets liveness.liveInAt f code (placed.codeFrom quotientBelowSchedule)
                    ⟨m, placed.codeFrom quotientBelowSchedule i⟩ o := by
  have scheduled : Schedule.build quotientBelow = .ok quotientBelowSchedule := by rfl
  have written : Line.ofSchedule quotientBelow quotientBelowSchedule ⟨[3, 4, 5, 8, 9]⟩
      = .ok quotientBelowLines := by rfl
  have layout : quotientBelow.layout = [0] := by decide +kernel
  have operations : ∀ n, (quotientBelow.kind n).isOperation = true → n = 5 ∨ n = 9 :=
    Graph.forall_node (P := fun n node => node.kind.isOperation = true → n = 5 ∨ n = 9)
      (by decide) (fun _ => nofun)
  have targets : ∀ n, quotientBelow.targets n = [] :=
    Graph.forall_node (P := fun _ node => node.kind.targets = []) (by decide) (fun _ => rfl)
  refine ⟨scheduled, written, emitted_code_simulates_lines ?_ ?_ ?_ ?_ scheduled written
    List.nodup_nil (List.nil_subset _)⟩
  · rw [layout]
    decide
  · rw [layout]
    intro b hb n op hk
    obtain rfl := List.mem_singleton.1 hb
    rcases operations n (by rw [hk]; rfl) with rfl | rfl
    · exact absurd hk nofun
    · decide
  · intro n
    rw [targets n]
    exact List.not_mem_nil
  · intro n hn
    rcases operations n hn with rfl | rfl <;> decide

end SsaCompiler
