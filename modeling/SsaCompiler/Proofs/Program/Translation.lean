import SsaCompiler.Proofs.Graph.Lowering
import SsaCompiler.Proofs.Program.Walk

/-!
# The graph of a function

The translation of a function begins at a site, so **it always comes to an
end** (`Function.exists_translated`). `Translated` records what the walk leaves
and how the graph of the function comes from it by lowering.

No merge waits in a sealed block, and a merge that a sealed block keeps has one
operand for every predecessor, so **sealing loses no merge**.
-/

namespace SsaCompiler

open Builder

variable {n : NodeId}

namespace Stage

/-- **The translation of a body begins at a site.** -/
theorem site_first (name : String) (sharing : Bool) : (first name sharing).Site where
  toOngoing := ongoing_init true name sharing
  entry := rfl
  start := rfl
  isBlock := fun n hn => by
    have hn : [Graph.startBlock].contains n = true := hn
    obtain rfl : n = Graph.startBlock := by simpa using hn
    rfl
  final := rfl
  finalOpen := rfl
  self := fun n hn => by rcases n with _ | _ | _ | _ | n <;> first | rfl | cases hn
  single := fun m n hm => by rcases m with _ | _ | _ | _ | m <;> cases hm
  targets := fun n hn => by rcases n with _ | _ | _ | _ | m <;> cases hn
  edges := fun _ _ n hn => by rcases n with _ | _ | _ | _ | m <;> cases hn
  reaches := fun n hn => by rcases n with _ | _ | _ | _ | m <;> cases hn
  branches := fun n _ _ hn => by rcases n with _ | _ | _ | _ | m <;> cases hn
  standing := fun _ _ _ => rfl
  isOpen := open_started name sharing _
  reached := ⟨[], .nil, rfl⟩
  notFinal := nofun

end Stage

theorem Builder.graph_finish (b : Builder) : b.finish.graph = b.graph := by
  unfold Builder.finish
  split <;> rfl

theorem Builder.known_finish (b : Builder) : b.finish.known = b.known := by
  unfold Builder.finish
  split <;> rfl

/-- **A function and its graph**, with the last stage of the walk. -/
structure Translated (f : Function) (s : Stage) (flow : Flow) (r : FunctionGraph) : Prop where
  walks : f.body.Walks (Stage.first f.name true) flow s
  toGraph : f.toGraph = .ok r
  lowered : r.graph = s.toBuilder.finish.lowerConditionals.2.graph

/-- Every function has a graph. -/
theorem Function.exists_translated (f : Function) : ∃ s flow r, Translated f s flow r := by
  obtain ⟨flow, s, hw⟩ := f.body.exists_walks (Stage.site_first f.name true)
  exact ⟨s, flow, _, hw, Except.bind_eq_ok.2 ⟨_, hw.build_eq, rfl⟩, rfl⟩

namespace Translated

variable {f : Function} {s : Stage} {flow : Flow} {r : FunctionGraph}

section

variable (h : Translated f s flow r)

include h

theorem walked : Walked (Stage.first f.name true) flow s := h.walks.walked

theorem wired : s.Wired := h.walked.wired

theorem draft_extends : s.finish.lowerConditionals.2.Extends s.graph := by
  have hwf := h.wired.wf
  have hextends := Draft.extends_lowerConditionals (d := s.finish)
  rw [graph_finish, known_finish] at hextends
  exact hextends hwf.coherent hwf.entry hwf.home fun e he => (hwf.table e he).1

/-- **A merge comes from the last stage**, and neither it nor its block gets or
loses operands. -/
theorem merge_eq (hp : (r.graph.kind n).isPhi) :
    n < s.graph.size ∧ (s.graph.kind n).isPhi ∧ r.graph.blockOf n = s.graph.blockOf n ∧
      (r.graph.operands n).length = (s.graph.operands n).length ∧
      (r.graph.operands (s.graph.blockOf n)).length =
        (s.graph.operands (s.graph.blockOf n)).length := by
  have he := h.draft_extends
  have hwf := h.wired.wf
  rw [h.lowered] at hp ⊢
  have hlt : n < s.graph.size := by
    by_contra hle
    exact absurd ((Kind.isPhi_eq_false_of_isFormula (he.fresh n (not_lt.1 hle))).symm.trans
      hp) nofun
  rw [he.kind n hlt] at hp
  obtain ⟨σ, -, hr⟩ := he.resolved
  have hl : ∀ m < s.graph.size, s.graph.kind m ≠ .condValue →
      (s.finish.lowerConditionals.2.graph.operands m).length =
        (s.graph.operands m).length := fun m hm hk => by
    rw [hr m hm hk, List.length_map]
  have hb := hwf.home n hlt
  exact ⟨hlt, hp, he.blockOf n hlt, hl n hlt fun hk => absurd (hk ▸ hp) nofun,
    hl _ (lt_of_isBlock hb) fun hk => absurd (hk ▸ hb) nofun⟩

/-- A merge that has operands has one for every predecessor of its block. -/
theorem length_operands (hp : (r.graph.kind n).isPhi) (hops : r.graph.operands n ≠ []) :
    (r.graph.operands n).length = (r.graph.operands (r.graph.blockOf n)).length := by
  obtain ⟨-, hp, hb, hl, hlen'⟩ := h.merge_eq hp
  rw [hb, hl, hlen']
  refine h.wired.length_operands hp fun he => hops ?_
  exact List.length_eq_zero_iff.1 (hl.trans (congrArg List.length he))

end

end Translated

namespace Builder

variable {b : Builder} {name : String} {sharing : Bool}

/-- **Sealing loses no merge.** In a run that adds no predecessor to a sealed
block, merges wait in unsealed blocks only. Right after a block is sealed
nothing waits in it, and from then on every merge in it that is not retired has
one operand for every predecessor. So in the graph of a function every merge
that has operands has one for every predecessor of its block. -/
theorem Run.sealing_loses_no_merge (h : Run true (init name sharing) b) (f : Function) :
    (∀ q ∈ b.placeholders, b.isSealed q.block = false) ∧
    (∀ block c, (b.graph.kind block).isBlock = true → b.sealBlock block = .ok c →
      (∀ q ∈ c.placeholders, q.block ≠ block) ∧
      ∀ d, Run true c d → ∀ n, (d.graph.kind n).isPhi = true → d.graph.blockOf n = block →
        d.forwarded.lookup n = none →
        (d.graph.operands n).length = (d.graph.operands block).length) ∧
    ∃ r, f.toGraph = .ok r ∧ ∀ n, (r.graph.kind n).isPhi = true → r.graph.operands n ≠ [] →
      (r.graph.operands n).length = (r.graph.operands (r.graph.blockOf n)).length := by
  have hongoing := h.ongoing
  refine ⟨hongoing.settled.waiting, fun block c hblock hseal => ?_, ?_⟩
  · have hongoing' : Ongoing true c := Moves.ongoing (.single (.seals hblock hseal)) hongoing
    have hsealed : c.isSealed block = true := by
      obtain ⟨e, -, rfl⟩ := sealBlock_spec hongoing.wf hseal
      exact (isSealed_mark e block block).2 (.inl rfl)
    refine ⟨fun q hq he => ?_, fun d hd n hphi hhome hstands => ?_⟩
    · exact absurd ((he ▸ hsealed).symm.trans (hongoing'.settled.waiting q hq)) nofun
    · have hmoves := hd.moves hongoing'
      subst hhome
      exact (hmoves.ongoing hongoing').toIdle.full_of_isSealed hphi hstands
        (hmoves.isSealed hongoing'.wf hsealed).1
  · obtain ⟨s, flow, r, hr⟩ := f.exists_translated
    exact ⟨r, hr.toGraph, fun n hphi hops => hr.length_operands hphi hops⟩

/-- A loop that changes a variable it has read before. -/
def countingRequests : List Request :=
  [.newBlock "header", .jump 4, .enter 4, .read (.var "x") 4, .constInt 1, .write (.var "x") 4 7,
    .jump 4]

/-- The merge of such a loop waits until the header is sealed, and then has both
of its operands. -/
theorem counting_loop_loses_no_merge : ∃ b c, Run true (init "f" true) b ∧
    b.sealBlock 4 = .ok c ∧ b.placeholders = [⟨4, .var "x", 6⟩] ∧ c.placeholders = [] ∧
    c.forwarded.lookup 6 = none ∧
    (c.graph.operands 6).length = (c.graph.operands 4).length := by
  have hrun : ((countingRequests.foldlM (ask? true) (init "f" true)).bind fun b =>
      (b.sealBlock 4).toOption.map fun c => (b.placeholders, c.placeholders,
        c.forwarded.lookup 6, (b.graph.kind 4).isBlock, (c.graph.kind 6).isPhi,
        c.graph.blockOf 6)) =
      some ([⟨4, .var "x", 6⟩], [], none, true, true, 4) := by decide +kernel
  obtain ⟨b, hb, hrun⟩ := Option.bind_eq_some_iff.1 hrun
  obtain ⟨c, hc, heq⟩ := Option.map_eq_some_iff.1 hrun
  simp only [Prod.mk.injEq] at heq
  obtain ⟨hwaiting, hnone, hstands, hblock, hphi, hhome⟩ := heq
  have hb := Run.refl.of_foldlM hb
  have hc := Except.toOption_eq_some.1 hc
  exact ⟨b, c, hb, hc, hwaiting, hnone, hstands,
    ((hb.sealing_loses_no_merge ⟨"f", .skip⟩).2.1 4 c hblock hc).2 c .refl 6 hphi hhome hstands⟩

end Builder

end SsaCompiler
