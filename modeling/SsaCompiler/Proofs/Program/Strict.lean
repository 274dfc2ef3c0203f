import SsaCompiler.Proofs.Graph.Selection
import SsaCompiler.Proofs.Program.Regular
import SsaCompiler.Proofs.Program.Sound

/-!
# The graph of a function is strict

What the last stage of a walk has recorded is right, so its graph is strict: an
operand is a merge, an undefined value or an older node, and no circle goes
through older nodes only. A key of the value table names the operands of its node
unless one of them was retired (`Stage.Right.strict`). Lowering keeps this, and
**the graph of a function is strict along its own control flow**
(`Translated.strict`). It is complete, so whatever its blocks need can be
scheduled (`Translated.complete`).
-/

namespace SsaCompiler

open List Builder

variable {index : Nat} {a : NodeId}

namespace Stage

variable {s : Stage} {n : NodeId}

/-- **Nodes of a block do not use each other in a circle.** -/
theorem Right.acc_precedes (h : s.Right s.plan) (n : NodeId)
    (hr : s.graph.Reaches (s.graph.blockOf n)) : Acc s.graph.Precedes n := by
  induction n using Nat.strong_induction_on with
  | _ n ih =>
    refine ⟨n, fun a ha => ?_⟩
    have hlt : n < s.graph.size := Graph.lt_of_mem_operands ha.mem
    have huse := h.sound.uses n hlt ha.isPhi ha.isBlock a ha.mem
    rcases huse.before hr ha.block with hp | hl | hlt
    · have hp : (s.graph.kind a).isPhi = true := by
        by_contra hnot
        exact hp (if_neg hnot)
      exact ⟨a, fun c hc => absurd (hp.symm.trans hc.isPhi) nofun⟩
    · have hnil := (h.formed a).bare hl
      exact ⟨a, fun c hc => absurd (hnil ▸ hc.mem) not_mem_nil⟩
    · exact ih a hlt (ha.block.symm ▸ hr)

theorem Wired.exists_pred (hs : s.Wired) (hphi : (s.graph.kind n).isPhi)
    (ha : (s.graph.operands n)[index]? = some a) :
    ∃ pred, (s.graph.preds (s.graph.blockOf n))[index]? = some pred := by
  have hlt := (List.getElem?_eq_some_iff.1 ha).1
  have hne : s.graph.operands n ≠ [] := List.ne_nil_of_mem (List.mem_of_getElem? ha)
  rw [hs.toOngoing.toIdle.length_operands hphi hne] at hlt
  exact ⟨_, List.getElem?_eq_getElem ((List.length_map _).symm ▸ hlt)⟩

/-- **An operand is what its user asks for.** -/
theorem Right.typed (h : s.Right s.plan) (hs : s.Wired)
    (ha : (s.graph.operands n)[index]? = some a) {channel : Channel}
    (hc : channel ∈ (s.graph.kind n).takes index) : s.graph.Fits channel a := by
  have hfits : s.plan.Fits channel a → s.graph.Fits channel a := by
    cases channel <;> exact id
  refine hfits ?_
  have hlt := Graph.lt_of_mem_operands (mem_of_getElem? ha)
  by_cases hphi : (s.graph.kind n).isPhi = true
  · obtain ⟨slot, hk, hslot, -⟩ := hs.wf.marked n hphi
    obtain ⟨pred, hp⟩ := hs.exists_pred hphi ha
    have hf := (h.sound.feeds n hphi index a ha pred hp).2 slot
      (hs.agrees_plan.merge n slot hphi hslot)
    rw [hk] at hc
    exact Option.some.inj hc ▸ hf.1
  · exact h.sound.typed n hlt (Bool.eq_false_iff.2 hphi) index a ha channel hc

/-- **The graph of a stage that is right is strict.** -/
theorem Right.strict (h : s.Right s.plan) (hs : s.Wired) {d : Draft} (hg : d.graph = s.graph)
    (hk : d.known = s.known) : d.Strict s.graph fun n => ¬ s.Stands n := by
  have hwf := hs.wf
  refine ⟨?_, hg ▸ hwf.coherent, ?_, ?_, ?_, ?_, ?_⟩ <;> rw [hg]
  · refine ⟨fun n a ha => not_not.2 (hs.standing n a ha), h.formed,
      fun n index a ha channel hc => h.typed hs ha hc, fun n hphi hb a ha => ?_,
      fun n hphi index a ha pred hp => (h.sound.feeds n hphi index a ha pred hp).1,
      h.acc_precedes⟩
    exact (h.sound.uses n (Graph.lt_of_mem_operands ha) hphi hb a ha).dom
  · exact hwf.jumps
  · intro n hn
    obtain ⟨value, hv⟩ := Option.ne_none_iff_exists'.1 hn
    exact .inl (hwf.retired _ (mem_of_lookup_eq_some hv)).1
  · intro n hn
    exact h.reached n (congrArg Kind.isComputation hn)
  · intro e he
    rw [hk] at he
    obtain ⟨hlt, hkind, -⟩ := hwf.table e he
    exact ⟨hlt, hkind, (hwf.shared e he).1⟩
  · intro e he _ hl
    rw [hk] at he
    exact hwf.valueKey_of_stands he fun a ha => not_not.1 (hl a ha)

end Stage

namespace Translated

variable {f : Function} {s : Stage} {flow : Flow} {r : FunctionGraph}

theorem right (h : Translated f s flow r) : s.Right s.plan := h.walks.right_plan

/-- **The graph of a function is strict.** No operand is a retired merge or a
conditional value. -/
theorem strict (h : Translated f s flow r) :
    r.graph.Strict r.graph fun n => ¬ s.Stands n ∨ s.graph.kind n = .condValue := by
  have hwf := h.wired.wf
  have hs := (h.right.strict h.wired (d := s.finish) (graph_finish _)
    (known_finish _)).lowerConditionals
  rw [graph_finish] at hs
  replace hs := (hs hwf.entry hwf.home).toStrict
  rw [← h.lowered] at hs
  have hh : ∀ {n a}, a ∈ r.graph.operands n → (s.graph.kind (r.graph.blockOf n)).isBlock = true :=
    fun {n a} ha => h.isBlock_eq _ ▸ h.regular.home n (Graph.lt_of_mem_operands ha)
  refine ⟨hs.live, hs.formed, hs.typed, fun n hphi hb a ha =>
    h.dominates (hh ha) (hs.uses n hphi hb a ha),
    fun n hphi index a ha pred hp => ?_, fun n hr => ?_⟩
  · rw [h.preds_eq (hh (mem_of_getElem? ha))] at hp
    exact h.dominates (h.isBlock_pred hp) (hs.merges n hphi index a ha pred hp)
  · refine ⟨n, fun a ha => (hs.order n ?_).inv ha⟩
    exact (h.reaches_iff (hh ha.mem)).1 hr

/-- All blocks but the end block are sealed in the end. -/
theorem isSealed (h : Translated f s flow r) {block : NodeId}
    (hb : (s.graph.kind block).isBlock) (hne : block ≠ Graph.endBlock) :
    s.isSealed block := by
  rcases h.eq_startBlock_or hb hne with rfl | hnew
  · exact h.wired.start
  · exact (h.walked.sealsBut block hnew hb).resolve_right id

/-- **The graph of a function is complete.** -/
theorem complete (h : Translated f s flow r) :
    r.graph.Complete fun n => ¬ s.Stands n ∨ s.graph.kind n = .condValue := by
  refine ⟨h.regular, h.strict, fun n hn => ?_, fun n hn => ?_, fun n hp hl hne => ?_,
    fun n hp hl he => ?_⟩
  · rcases hn with hr | hc
    · obtain ⟨value, hv⟩ := Option.ne_none_iff_exists'.1 hr
      have hp := (h.wired.wf.retired _ (mem_of_lookup_eq_some hv)).1
      exact .inl (by rw [h.kind_eq (lt_of_isPhi hp)]; exact hp)
    · exact .inr ((h.kind_eq (Draft.lt_size_of_condValue hc)).trans hc)
  · exact .inr ((h.kind_eq_of_not_isFormula (by rw [hn]; rfl)).2.symm.trans hn)
  · obtain ⟨hlt, hp, hb, hlen, hlen'⟩ := h.merge_eq hp
    rw [hb] at hne ⊢
    rw [hlen, hlen']
    exact h.wired.full_of_isSealed hp (not_not.1 (not_or.1 hl).1)
      (h.isSealed (h.wired.wf.home n hlt) hne)
  · obtain ⟨-, hp, hb, -⟩ := h.merge_eq hp
    have hs := not_not.1 (not_or.1 hl).1
    exact absurd (h.right.sound.start n hp (hb.symm.trans he) hs) not_mem_nil

end Translated

end SsaCompiler
