import SsaCompiler.Proofs.Graph.Assignment
import SsaCompiler.Proofs.Program.Strict

/-!
# Lowering the conditional values of a function

The walk over a function body, with or without sharing, leaves a strict graph. So
lowering takes all its conditional values out of use, and **an assignment of words
that solves the equations of the graph extends to the lowered graph**: the nodes
that lowering adds solve theirs, and an operand that was replaced has the word that
it had (`Stmt.lowering_keeps_words`).
-/

namespace SsaCompiler

open Stage

/-- **Lowering removes every conditional value and keeps every word.** The walk over
a body, with or without sharing, ends with a graph `g`. In the lowered graph `g'` no
operand is a conditional value, and conditional values have no operands. Let the
nodes of `g` be marked as integers and truth values, and let `V` solve the equations
of `g` with words 0 and 1 for truth values. Then `V` extends to the nodes of `g'`
such that all their equations hold, and every operand has the word it had. -/
theorem Stmt.lowering_keeps_words (body : Stmt) (name : String) (sharing : Bool) :
    ∃ flow b, body.build (.init name sharing) = .ok (flow, b) ∧ let g := b.finish.graph
      let g' := b.finish.lowerConditionals.2.graph
      (g.size ≤ g'.size ∧ ∀ n < g.size, g'.kind n = g.kind n ∧ g'.blockOf n = g.blockOf n) ∧
      (∀ n, ∀ a ∈ g'.operands n, g'.kind a ≠ .condValue) ∧
      (∀ n, g'.kind n = .condValue → g'.operands n = []) ∧
      ∀ mark V, g.Marks mark → g.FitsMarks mark V → g.Solves V →
        ∃ W, (∀ n < g.size, W n = V n) ∧ g'.Solves W ∧
          ∀ n < g.size, g.kind n ≠ .condValue → (g'.operands n).map W = (g.operands n).map V := by
  obtain ⟨flow, s, hwalks⟩ := body.exists_walks (site_first name sharing)
  refine ⟨flow, s.toBuilder, hwalks.build_eq, ?_⟩
  have hwired := hwalks.walked.wired
  have hwf := hwired.wf
  have hstrict := hwalks.right_plan.strict hwired (d := s.toBuilder.finish)
    (Builder.graph_finish _) (Builder.known_finish _)
  have hentry : (s.toBuilder.finish.graph.kind Graph.startBlock).isBlock = true := by
    rw [Builder.graph_finish]
    exact hwf.entry
  have hhome : ∀ n < s.toBuilder.finish.graph.size,
      (s.toBuilder.finish.graph.kind (s.toBuilder.finish.graph.blockOf n)).isBlock = true := by
    rw [Builder.graph_finish]
    exact hwf.home
  obtain ⟨done, hdone, hlowering⟩ := hstrict.exists_lowering hentry hhome
  have hkind : ∀ n, s.toBuilder.finish.lowerConditionals.2.graph.kind n = .condValue → n ∈ done := by
    intro n hn
    refine (hdone n).2 ?_
    by_cases hlt : n < s.toBuilder.finish.graph.size
    · exact (hlowering.grown.kind n hlt).symm.trans hn
    · have hformula := hlowering.grown.fresh n (Nat.le_of_not_lt hlt)
      rw [hn] at hformula
      exact absurd hformula nofun
  refine ⟨⟨hlowering.grown.size_le, fun n hn => ⟨hlowering.grown.kind n hn,
    hlowering.grown.blockOf n hn⟩⟩, fun n a ha hcond => ?_, fun n hn => hlowering.bare n (hkind n hn),
    fun mark V hmark hfits hV => ?_⟩
  · exact hlowering.strict.live n a ha (.inr (hkind a hcond))
  · obtain ⟨done, W, σ, hdone, htracks⟩ := hstrict.exists_tracks hentry hhome hmark hfits hV
    refine ⟨W, htracks.old, htracks.solves, fun n hn hne => ?_⟩
    rw [htracks.operands n hn fun hmem => hne ((hdone n).1 hmem), List.map_map]
    exact List.map_congr_left fun a ha => htracks.value a (hstrict.coherent.closed n a ha)

/-- `return x < 5 ? 7 : 9`, with 0 for `x`: the graph has a marking and an assignment
that solves its equations, and so has the lowered graph. -/
theorem Stmt.choice_keeps_words : let mark : NodeId → Ty := fun n => if n = 7 then .bool else .int
    let V : NodeId → Word := fun n => [0, 0, 0, 0, 0, 0, 5, 1, 7, 9, 7].getD n 0
    ∃ flow b, (ret (.cond (.binary (.compare .less) (.var "x") (.int 5)) (.int 7) (.int 9))).build
        (.init "f" true) = .ok (flow, b) ∧
      (b.finish.graph.Marks mark ∧ b.finish.graph.FitsMarks mark V ∧ b.finish.graph.Solves V) ∧
      ∃ W, (∀ n < b.finish.graph.size, W n = V n) ∧
        b.finish.lowerConditionals.2.graph.Solves W := by
  intro mark V
  obtain ⟨flow, b, hbuild, -, -, -, hwords⟩ := lowering_keeps_words
    (ret (.cond (.binary (.compare .less) (.var "x") (.int 5)) (.int 7) (.int 9))) "f" true
  have hsolved : ((ret (.cond (.binary (.compare .less) (.var "x") (.int 5)) (.int 7)
      (.int 9))).build (.init "f" true)).toOption.any (fun built =>
        let g := built.2.finish.graph
        decide (g.Marks mark ∧ g.FitsMarks mark V ∧ g.Solves V)) = true := by
    decide +kernel
  rw [hbuild] at hsolved
  obtain ⟨hmark, hfits, hV⟩ := of_decide_eq_true hsolved
  obtain ⟨W, hold, hW, -⟩ := hwords mark V hmark hfits hV
  exact ⟨flow, b, hbuild, ⟨hmark, hfits, hV⟩, W, hold, hW⟩

end SsaCompiler
