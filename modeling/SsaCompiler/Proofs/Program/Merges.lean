import SsaCompiler.Proofs.Program.Strict

/-!
# Merges in the graph of a function

When the walk over a body is over, every merge in use has two different operands
other than itself. Lowering the conditional values afterwards may put the same
node in the place of two operands, and nobody looks at the merge again. So **a
merge of the finished graph may be trivial, but only where it merged a conditional
value** (`Function.trivial_merges_come_from_conditionals`).
-/

namespace SsaCompiler

open List Builder

namespace Graph

/-- **A merge of two nodes**: it has two different operands other than itself. -/
def MergesTwo (g : Graph) (n : NodeId) : Prop :=
  ∃ x ∈ g.operands n, ∃ y ∈ g.operands n, x ≠ y ∧ x ≠ n ∧ y ≠ n

/-- **What returns depend on**, apart from the end block, the end of a laid-out
block leads to. -/
theorem Complete.exists_end_of_mem_reachable {g : Graph} {dead : NodeId → Prop} {n : NodeId}
    (h : g.Complete dead) (hf : (g.kind endBlock).isBlock) (hn : n ∈ g.reachable)
    (hne : n ≠ endBlock) : ∃ t, (g.kind t).isTerminator ∧ g.blockOf t ∈ g.layout ∧
      Walk.Reach g.next t n := by
  obtain ⟨r, hr, hreach⟩ := Walk.reach_of_mem_postorder hn
  rw [mem_singleton.1 hr] at hreach
  rcases Relation.ReflTransGen.cases_head hreach with he | ⟨jump, hj, hreach⟩
  · exact absurd he.symm hne
  · unfold next at hj
    rw [if_pos (h.self endBlock hf)] at hj
    have ht := h.jumps endBlock hf jump hj
    have hlt := lt_of_isTerminator ht
    exact ⟨jump, ht, h.mem_layout_of_reaches (h.home jump hlt) (h.reaches jump ht)
      (h.final jump ht), hreach⟩

/-- **A merge that returns depend on is in use**, in a block that is laid out. -/
theorem Complete.selected_of_mem_reachable {g : Graph} {dead : NodeId → Prop} {n : NodeId}
    (h : g.Complete dead) (hf : (g.kind endBlock).isBlock) (hn : n ∈ g.reachable)
    (hphi : (g.kind n).isPhi) : g.Selected dead n := by
  have hnot := Kind.isBlock_eq_false_of_isPhi hphi
  obtain ⟨t, ht, hh, hr⟩ := h.exists_end_of_mem_reachable hf hn fun he => by
    rw [he, hf] at hnot
    cases hnot
  exact h.selected_of_reach (h.selected_terminator ht hh) hr

end Graph

namespace Translated

variable {f : Function} {s : Stage} {flow : Flow} {r : FunctionGraph} {n : NodeId}

/-- **A merge in use merged two nodes when the walk was over.** -/
theorem mergesTwo (h : Translated f s flow r) (hp : (s.graph.kind n).isPhi)
    (hs : s.Stands n) (hne : s.graph.blockOf n ≠ Graph.endBlock) : s.graph.MergesTwo n := by
  have hi := h.wired.toIdle
  have hb := h.wired.wf.home n (lt_of_isPhi hp)
  rcases hi.settled.merging n hp hs not_mem_nil with ⟨q, hq, rfl⟩ | htwo
  · have hw := hi.settled.waiting q hq
    rw [← (h.wired.wf.waiting q hq).2.2.1, h.isSealed hb hne] at hw
    cases hw
  · exact exists_ne_of_two_le_merged htwo

/-- **Lowering changes the operands of a merge only where they are conditional
values.** -/
theorem operands_merge (h : Translated f s flow r) (hp : (s.graph.kind n).isPhi) :
    List.Forall₂ (fun a a' => s.graph.kind a ≠ .condValue → a' = a) (s.graph.operands n)
        (r.graph.operands n) ∧
      ((∀ a ∈ s.graph.operands n, s.graph.kind a ≠ .condValue) →
        r.graph.operands n = s.graph.operands n) := by
  obtain ⟨σ, hσ, hr⟩ := h.draft_extends.resolved
  rw [h.lowered, hr n (lt_of_isPhi hp) fun hk => absurd (hk ▸ hp) nofun, List.forall₂_map_right_iff]
  refine ⟨List.forall₂_same.2 fun a _ => hσ a, fun hn => ?_⟩
  exact (map_congr_left fun a ha => hσ a (hn a ha)).trans (map_id _)

end Translated

/-- **A trivial merge comes from a conditional value.** Every merge that the
returns of a function depend on had two different operands other than itself when
the walk over the body was over. It still has the operands it had, except for
conditional values. So it still merges two nodes unless one of its operands was a
conditional value. -/
theorem Function.trivial_merges_come_from_conditionals (f : Function) :
    ∃ flow b r, f.body.build (Builder.init f.name true) = .ok (flow, b) ∧ f.toGraph = .ok r ∧
      ∀ n ∈ r.graph.reachable, (r.graph.kind n).isPhi = true → b.graph.MergesTwo n ∧
        List.Forall₂ (fun a a' => b.graph.kind a ≠ .condValue → a' = a) (b.graph.operands n)
          (r.graph.operands n) ∧
        (r.graph.MergesTwo n ∨ ∃ a ∈ b.graph.operands n, b.graph.kind a = .condValue) := by
  obtain ⟨s, flow, r, h⟩ := f.exists_translated
  refine ⟨flow, s.toBuilder, r, h.walks.build_eq, h.toGraph, fun n hn hphi => ?_⟩
  have hselected := h.complete.selected_of_mem_reachable
    ((h.isBlock_eq _).trans h.wired.final) hn hphi
  obtain ⟨-, hphi, hblock, -⟩ := h.merge_eq hphi
  have hstands := not_not.1 (not_or.1 hselected.live).1
  have htwo : s.graph.MergesTwo n := h.mergesTwo hphi hstands
    (hblock ▸ (h.complete.reaches_of_mem_layout hselected.home).2.2)
  obtain ⟨hops, hsame⟩ := h.operands_merge hphi
  refine ⟨htwo, hops, ?_⟩
  by_cases hcond : ∃ a ∈ s.graph.operands n, s.graph.kind a = .condValue
  · exact .inr hcond
  · refine .inl ?_
    unfold Graph.MergesTwo
    rw [hsame fun a ha hk => hcond ⟨a, ha, hk⟩]
    exact htwo

/-- A function whose only assignment chooses between two numbers by a known
condition. -/
def decidedChoice : Function :=
  ⟨"f", .seq (.declare "x" .int (some (.int 1))) (.seq (.ifThen (.bool true)
    (.assign "x" none (.cond (.bool true) (.int 1) (.int 2)))) (.ret (.var "x")))⟩

/-- Its merge has the same number twice in the end. -/
theorem decidedChoice_keeps_trivial_merge : ∃ r, decidedChoice.toGraph = .ok r ∧
    14 ∈ r.graph.reachable ∧ (r.graph.kind 14).isPhi = true ∧ r.graph.operands 14 = [4, 4] ∧
    ¬ r.graph.MergesTwo 14 := by
  have hrun : decidedChoice.toGraph.toOption.map (fun r => (r.graph.reachable.contains 14,
      (r.graph.kind 14).isPhi, r.graph.operands 14)) = some (true, true, [4, 4]) := by decide +kernel
  obtain ⟨r, hr, heq⟩ := Option.map_eq_some_iff.1 hrun
  simp only [Prod.mk.injEq] at heq
  obtain ⟨hmem, hphi, hops⟩ := heq
  refine ⟨r, Except.toOption_eq_some.1 hr, List.contains_iff_mem.1 hmem, hphi, hops, ?_⟩
  unfold Graph.MergesTwo
  rw [hops]
  decide

end SsaCompiler
