import SsaCompiler.Proofs.Program.Divisions
import SsaCompiler.Proofs.Program.Simulation

/-!
# Every division is scheduled

A schedule holds what the ends of blocks lead to. The effect that a return takes
leads back along the thread of effects, and so **to all divisions on every path to
the return** (`Translated.reach_division`). From every block that is laid out a path
leads on to a return. *So no division is dropped*, whether its result is used or not
(`Translated.mem_scheduled`).
-/

namespace SsaCompiler

open List Graph Builder
open Graph (startBlock endBlock)

open Stage

variable {start finish origin : Origin} {ds : List NodeId}

theorem Graph.Threads.kind_eq {g : Graph} {path : Path} (h : g.Threads path start ds finish)
    (hs : g.kind start.1 = .proj .effect) :
    g.kind finish.1 = .proj .effect := by
  induction h with
  | nil => exact hs
  | cons _ _ hk _ _ ih => exact ih hk

namespace Translated

variable {f : Function} {s : Stage} {flow : Flow} {r : FunctionGraph} {path : Path}
  {n d root : NodeId} (h : Translated f s flow r)

include h

/-- Lowering leaves an operand alone that comes from an effect. -/
theorem mem_operands_of_chase {a : NodeId} (hn : s.graph.kind n ≠ .condValue)
    (ha : a ∈ s.graph.operands n) (hc : s.graph.chase path a = some origin)
    (hkind : s.graph.kind origin.1 = .proj .effect) : a ∈ r.graph.operands n := by
  obtain ⟨ρ, hf, hops, -, -⟩ := h.exists_lowering
  have hs : ρ a = a := hf a fun hk => by
    rw [fst_of_chase hc (by rw [hk]; rfl), hk] at hkind
    cases hkind
  rw [hops n (lt_of_mem_operands ha) hn]
  exact mem_map.2 ⟨a, ha, hs⟩

/-- **What an effect comes from is needed** where the effect is. -/
theorem reach_of_chase (hc : s.graph.chase path n = some origin)
    (hkind : s.graph.kind origin.1 = .proj .effect) : Walk.Reach r.graph.next n origin.1 := by
  induction path generalizing n with
  | nil =>
    unfold Graph.chase at hc
    split at hc
    · cases hc
    · cases hc
      exact .refl
  | cons edge path ih =>
    unfold Graph.chase at hc
    split at hc
    · exact ih hc
    · split at hc
      · rename_i hp
        obtain ⟨a, ha, hc⟩ := Option.bind_eq_some_iff.1 hc
        exact .head (mem_next (h.mem_operands_of_chase
          (fun hk => by rw [hk] at hp; cases hp) (mem_of_getElem? ha) hc hkind)) (ih hc)
      · cases hc
        exact .refl

/-- **A thread of effects is needed from its end back.** -/
theorem reach_of_threads (hthreads : s.graph.Threads path start ds finish)
    (hs : s.graph.kind start.1 = .proj .effect) (ht : ∀ d ∈ ds, (s.graph.kind d).mayTrap)
    (hr : Walk.Reach r.graph.next root finish.1) :
    Walk.Reach r.graph.next root start.1 ∧ ∀ d ∈ ds, Walk.Reach r.graph.next root d := by
  induction hthreads with
  | nil => exact ⟨hr, forall_mem_nil _⟩
  | @cons start finish d effect rest he hc hkind hproj _ ih =>
    obtain ⟨hn, hrest⟩ := ih hkind (fun d hd => ht d (.tail _ hd)) hr
    have htrap := ht d (.head _)
    have hp : s.graph.kind d ≠ .condValue := fun hk => by
      rw [hk] at htrap
      cases htrap
    -- From the effect to its division, and from there to the effect it takes.
    have hd : Walk.Reach r.graph.next root d := by
      obtain ⟨ρ, hf, hops, -, -⟩ := h.exists_lowering
      have hlt := lt_of_mem_operands (hproj.symm ▸ mem_singleton_self d)
      refine hn.tail (mem_next ?_)
      rw [hops _ hlt (by rw [hkind]; exact nofun), hproj, map_singleton, hf d hp]
      exact .head _
    refine ⟨(hd.tail (mem_next (h.mem_operands_of_chase hp (mem_of_getElem? he)
      hc hs))).trans (h.reach_of_chase hc hs), fun d' hd' => ?_⟩
    rcases mem_cons.1 hd' with rfl | hd'
    · exact hd
    · exact hrest d' hd'

theorem kind_reaching (hp : s.Route path) : s.graph.kind (s.plan.entering path).1 = .proj .effect ∧
      s.graph.kind (s.plan.reaching path .effect).1 = .proj .effect := by
  have ha : ∀ path, s.Route path → s.graph.kind (s.plan.entering path).1 = .proj .effect →
      s.graph.kind (s.plan.reaching path .effect).1 = .proj .effect := fun path hp he => by
    rw [Blueprint.reaching_eq]
    exact (h.ledger.threads path hp).kind_eq he
  induction path with
  | nil =>
    have hf : s.graph.kind Graph.firstEffect = .proj .effect :=
      h.walks.tends.grows.kind Graph.firstEffect (show 3 < 4 from by decide)
    exact ⟨hf, ha [] hp hf⟩
  | cons edge path ih =>
    have he := (ih (hp.tail h.finished)).2
    exact ⟨he, ha _ hp he⟩

/-- **All divisions on a path are needed** where the effect that reaches its end is. -/
theorem reach_division (hp : s.Route path)
    (hr : Walk.Reach r.graph.next root (s.plan.reaching path .effect).1)
    (ht : (s.graph.kind d).mayTrap) (hv : Path.Visits path (s.graph.blockOf d)) :
    Walk.Reach r.graph.next root d := by
  -- One block back at a time.
  have hb : ∀ path, s.Route path → Walk.Reach r.graph.next root (s.plan.reaching path .effect).1 →
      Walk.Reach r.graph.next root (s.plan.entering path).1 ∧
        (s.graph.blockOf d = Path.last path → Walk.Reach r.graph.next root d) := by
    intro path hp hr
    rw [Blueprint.reaching_eq] at hr
    obtain ⟨he, hall⟩ := h.reach_of_threads (h.ledger.threads path hp)
      (h.kind_reaching hp).1 (fun d hd => (mem_made.1 (mem_of_mem_filter hd)).2) hr
    refine ⟨he, fun hl => hall d (mem_filter.2 ⟨mem_made.2 ⟨?_, ht⟩, decide_eq_true hl⟩)⟩
    by_contra hle
    rw [kind_of_size_le _ (not_lt.1 hle)] at ht
    cases ht
  induction path with
  | nil => exact (hb [] hp hr).2 hv
  | cons edge path ih =>
    obtain ⟨he, hh⟩ := hb _ hp hr
    rcases hv with hl | hv
    · exact hh hl
    · exact ih (hp.tail h.finished) he hv

/-- **From every block control comes on to a return**, if the body returns. -/
theorem exists_return (hr : f.body.returns) (hp : s.Route path) :
    ∃ path' jump, path <:+ path' ∧ s.Route path' ∧ s.graph.kind jump = .ret ∧
      s.graph.blockOf jump = Path.last path' := by
  have hf := h.walks.flow_eq
  rw [hr] at hf
  have hl : s.graph.Leads (Path.last path) endBlock := by
    rcases h.walked.onward _ (h.eq_startBlock_or hp.isBlock hp.notFinal) hp.isBlock with
      ⟨hnil, hnot⟩ | ⟨goal, hg, hl⟩
    · exact absurd (Path.visits_last path) (hp.isPath.not_visits hnil hnot)
    · rcases hg with ⟨he, -⟩ | rfl
      · cases hf.symm.trans he
      · exact hl
  generalize hn : Path.last path = n at hl
  induction hl using Relation.ReflTransGen.head_induction_on generalizing path with
  | refl => exact absurd hn hp.notFinal
  | @head n next hedge _ ih =>
    obtain ⟨hnext, hm⟩ := hedge
    obtain ⟨jump, hj, hh⟩ := mem_map.1 hm
    by_cases hend : next = endBlock
    · -- Only a return leads to the end.
      subst hend
      have ht := h.wired.wf.jumps _ hnext jump hj
      have hexit : endBlock ∈ (s.graph.kind jump).exits := by
        rw [← count_pos_iff, ← h.wired.edges _ hnext jump ht]
        exact count_pos_iff.2 hj
      have hnot := h.endBlock_not_mem_targets jump
      refine ⟨path, jump, suffix_refl _, hp, ?_, hh.trans hn.symm⟩
      unfold Graph.targets at hnot
      cases hk : s.graph.kind jump with
      | ret => rfl
      | _ =>
        rw [hk] at hexit hnot
        exact absurd hexit hnot
    · obtain ⟨index, hi⟩ := mem_iff_getElem?.1 hm
      have hp' : s.Route ((next, index) :: path) :=
        ⟨.cons hp.isPath (hn.symm ▸ hi), hnext, hend⟩
      obtain ⟨path', jump, hs, hrest⟩ := ih hp' rfl
      exact ⟨path', jump, (suffix_cons _ _).trans hs, hrest⟩

/-- **Control comes to every division.** -/
theorem exists_route (ht : (s.graph.kind d).mayTrap) :
    ∃ path, s.Route path ∧ Path.last path = s.graph.blockOf d := by
  have hlt : d < s.graph.size := by
    by_contra hle
    rw [kind_of_size_le _ (not_lt.1 hle)] at ht
    cases ht
  obtain ⟨path, hp, hl⟩ := h.right.reached d (Kind.isComputation_of_mayTrap ht)
  refine ⟨path, ⟨hp, hl ▸ h.wired.wf.home d hlt, hl ▸ ?_⟩, hl⟩
  have hle : (first f.name true).graph.size ≤ d := by
    by_contra hlt
    rw [h.tends.grows.kind d (Nat.lt_of_not_le hlt)] at ht
    rcases d with _ | _ | _ | _ | d <;> cases ht
  rcases h.tends.traps d hle ht with he | hle
  · rw [he]
    exact nofun
  · exact Nat.ne_of_gt ((by decide : endBlock < 4).trans_le hle)

/-- **Every division is scheduled.** -/
theorem mem_scheduled {schedule : Schedule} {ends : List NodeId} (hr : f.body.returns)
    (hs : schedule.Built r.graph ends) (ht : (r.graph.kind d).mayTrap) :
    d ∈ schedule.scheduled r.graph := by
  obtain ⟨hlt, hk⟩ := h.kind_eq_of_mayTrap ht
  rw [hk] at ht
  obtain ⟨path, hp, hl⟩ := h.exists_route ht
  obtain ⟨path', jump, hsuffix, hp', hret, hh⟩ := h.exists_return hr hp
  obtain ⟨effect, he, hc⟩ := h.ledger.returns jump
    (lt_of_isTerminator (by rw [hret]; rfl)) hret path' hp' hh.symm
  -- The return takes the effect that reaches it.
  have hroot : Walk.Reach r.graph.next jump (s.plan.reaching path' .effect).1 := by
    have hk := (h.kind_reaching hp').2
    exact .head (mem_next (h.mem_operands_of_chase (by rw [hret]; exact nofun)
      (mem_of_getElem? he) hc hk)) (h.reach_of_chase hc hk)
  have hreach := h.reach_division hp' hroot ht
    ((hl ▸ Path.visits_last path : Path.Visits path (s.graph.blockOf d)).of_suffix hsuffix)
  have hterm : (s.graph.kind jump).isTerminator = true := by rw [hret]; rfl
  refine hs.mem_scheduled_of_reach h.complete ((Schedule.mem_ends hs.terminators).2
    ⟨Path.last path', ?_, ?_⟩) hreach
  · exact h.regular.mem_layout_of_reaches ((h.isBlock_eq _).trans hp'.isBlock)
      ((h.reaches_iff hp'.isBlock).2 ⟨path', hp'.isPath, rfl⟩) hp'.notFinal
  · rw [← hh, ← h.blockOf_eq (lt_of_isTerminator hterm)]
    exact h.regular.terminator?_eq ((h.isTerminator_eq jump).trans hterm)

end Translated

end SsaCompiler
