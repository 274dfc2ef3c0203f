import SsaCompiler.Proofs.Program.Tour

/-!
# Following a path through the walk

The walk over a function is looked at together with a control path of the finished
graph. The path **follows** the walk to a stage if control comes along it to the
current block, the stage sees the words of the variables, and what was made in the
block so far does not trap (`Stage.Follows`).

A block that is ended gets no more divisions, so when control leaves a block it has
settled (`Stage.Follows.settles`). In a fresh block a variable holds what it held at
the end of the block before (`Stage.Follows.goes`).
-/

namespace SsaCompiler

open List

namespace Stage

variable {last s t u : Stage} {path : Path} {n block jump : NodeId} {ty : Ty} {w : Word}
  {Γ : String → Ty} {env : Env} {own : NodeId → Prop} {c : Builder} {kind : Kind}
  {operands : List NodeId}

/-- **A path follows the walk to a stage**: control comes along it to the current
block, the stage sees the words of the variables, and what was made in the current
block so far does not trap. -/
structure Follows (last s : Stage) (Γ : String → Ty) (path : Path) (env : Env) : Prop
    extends last.Route path where
  comes : last.graph.Comes last.graph.Sensible path
  last_eq : Path.last path = s.current
  sees : last.Sees s Γ path env
  calm : ∀ d < s.graph.size, (last.graph.kind d).mayTrap = true →
    last.graph.blockOf d = s.current → ∃ w, last.graph.Gives last.graph.Sensible path d w

/-- A part of the walk that does nothing in the current block. -/
theorem Follows.quiet (h : last.Follows s Γ path env) (hs : s.Wired)
    (hst : Tends (fun _ => False) s t) (hc : t.current = s.current)
    (ht : Toward last last.plan t) : last.Follows t Γ path env := by
  have hlt := Builder.lt_of_isBlock hs.current
  refine { h.toRoute with
    comes := h.comes, last_eq := h.last_eq.trans hc.symm, sees := fun name => ?_,
    calm := fun d hd htrap hb => ?_ }
  · rw [Blueprint.current, h.last_eq, hst.written _ hlt id, ← h.last_eq]
    exact h.sees name
  · rw [hc] at hb
    rcases Nat.lt_or_ge d s.graph.size with hd' | hle
    · exact h.calm d hd' htrap hb
    · rw [ht.grows.kind d hd] at htrap
      rw [ht.grows.blockOf d hd] at hb
      rcases hst.traps d hle htrap with ho | hnew
      · exact absurd ho id
      · exact absurd hlt (Nat.not_lt.2 (hb ▸ hnew))

theorem Follows.answered (h : last.Follows s Γ path env) (hst : Stays s t)
    (hc : last.Calm path s t) : last.Follows t Γ path env := by
  refine { h.toRoute with
    comes := h.comes, last_eq := h.last_eq.trans hst.current.symm, sees := h.sees.stays hst,
    calm := fun d hd ht hb => ?_ }
  rcases Nat.lt_or_ge d s.graph.size with hd' | hle
  · exact h.calm d hd' ht (hst.current ▸ hb)
  · exact hc d hle hd ht

/-- **A variable is set.** -/
theorem Follows.put {name : String} (h : last.Follows t Γ path env)
    (hw : last.HasWord path n (Γ name) w) :
    last.Follows (t.put (.var name) t.current n) Γ path (Function.update env name w) := by
  refine { h.toRoute with
    comes := h.comes, last_eq := h.last_eq, sees := fun name' => ?_, calm := h.calm }
  by_cases he : name' = name
  · subst he
    rw [Function.update_self, Blueprint.current,
      show (t.put (.var name') t.current n).written (Path.last path) (.var name') = some n from
        if_pos ⟨h.last_eq, rfl⟩]
    exact hw
  · rw [Function.update_of_ne he, Blueprint.current,
      show (t.put (.var name) t.current n).written (Path.last path) (.var name') = _ from
        if_neg fun hn => he (Slot.var.inj hn.2)]
    exact h.sees name'

section

variable (h : last.Follows s Γ path env)

include h

/-- Control leaves a block without a trap. -/
theorem Follows.settles (hend : last.Ending s kind operands t) :
    last.graph.Settles last.graph.Sensible path := by
  obtain ⟨-, -, -, hold⟩ := hend.closed
  intro d ht hd
  rw [h.last_eq] at hd
  exact h.calm d (hold d ht hd) ht hd

/-- **Control comes to the next block**, in which nothing was done yet. -/
theorem Follows.goes (hl : last.Finished) (hend : last.Ending s kind operands t)
    (hturns : last.graph.Turns last.graph.Sensible path s.graph.size block)
    (he : block ∈ kind.exits) (hne : block ≠ Graph.endBlock) (hu : last.Begins u block) :
    ∃ index, last.Follows u Γ ((block, index) :: path) env := by
  obtain ⟨hk, hh, hw, -⟩ := hend.closed
  have ht : (last.graph.kind s.graph.size).isTerminator = true := hk ▸ hend.isTerminator
  have hb := hl.wired.targets _ ht block (hk ▸ he)
  obtain ⟨index, hi⟩ : ∃ index, (last.graph.operands block)[index]? = some s.graph.size := by
    refine mem_iff_getElem?.1 (count_pos_iff.1 ?_)
    rw [hl.wired.edges block hb _ ht, hk]
    exact count_pos_iff.2 he
  rw [← h.last_eq] at hh hw
  refine ⟨index, ⟨⟨.cons h.isPath ?_, hb, hne⟩,
    .cons h.comes (h.settles hend) hh hturns hi, hu.current.symm, fun name => ?_,
    fun d hd htrap hd' => ?_⟩⟩
  · rw [Graph.preds, getElem?_map, hi, ← hh]
    rfl
  · -- In a fresh block a variable holds what it held at the end of the block before.
    have hn : u.written (Path.last ((block, index) :: path)) = fun _ => none := hu.untouched.written
    have hheld : last.plan.current u.written ((block, index) :: path) (.var name) =
        last.plan.current s.written path (.var name) := by
      rw [Blueprint.current, hn]
      show last.plan.reaching path (.var name) = _
      rw [Blueprint.reaching_eq, Blueprint.current]
      rw [show last.plan.written (Path.last path) = _ from hw]
    rw [hheld]
    refine (h.sees name).cons ?_ _
    rw [← hheld, Blueprint.current, hn]
    exact (Blueprint.snd_meaning_le last.plan path).2 (.var name)
  · rw [hu.toward.grows.kind d hd] at htrap
    rw [hu.toward.grows.blockOf d hd, hu.current] at hd'
    exact absurd hd' (hu.untouched.calm d htrap)

/-- **What an expression comes to** when a path is followed: it has a word, and the path
is followed on, or a division traps. -/
theorem Follows.yields {word : Option Word} (hst : Stays s t)
    (hy : last.Yields path s t n ty word) :
    (∃ w, word = some w ∧ last.Follows t Γ path env ∧ last.HasWord path n ty w) ∨
      word = none ∧ last.graph.Ends last.graph.Sensible none := by
  cases word with
  | some w => exact .inl ⟨w, rfl, h.answered hst hy.2, hy.1⟩
  | none =>
    obtain ⟨d, -, -, ht⟩ := hy
    exact .inr ⟨rfl, .traps h.comes ht⟩

/-- **Control goes where the condition leads.** -/
theorem Follows.fork {a b cond : NodeId} (hl : last.Finished) (hf : last.Forking s cond a b t)
    (hw : last.HasWord path cond .bool w) (hb : block = if w ≠ 0 then a else b)
    (hu : last.Begins u block) : ∃ index, last.Follows u Γ ((block, index) :: path) env := by
  have hs := hf.ahead.exists_operands hl hf.lt (by rw [hf.kind]; rfl)
    (by rw [hf.kind]; rfl)
  rw [hf.operands (forall_mem_pair hf.onTrue.2 hf.onFalse.2)] at hs
  obtain ⟨cond', ho', hg⟩ : ∃ cond', last.graph.operands s.graph.size = [cond'] ∧
      last.graph.Gives last.graph.Sensible path cond' w := by
    generalize last.graph.operands s.graph.size = ops at hs
    cases hs with
    | cons hc hr =>
      cases hr
      exact ⟨_, rfl, (hl.gives_of_same h.toRoute hc.2.2 hc.2.1 hc.1 (h.last_eq ▸ hf.dom) hw).1⟩
  have ht : last.graph.Turns last.graph.Sensible path s.graph.size block := by
    rw [hb]
    exact .branch hf.closed.1 ho' hg
  refine h.goes hl hf.toEnding ht ?_ ?_ hu
  · rw [hb]
    split
    · exact .head _
    · exact .tail _ (.head _)
  · rw [hb]
    split
    · exact Nat.ne_of_gt hf.onTrue.1
    · exact Nat.ne_of_gt hf.onFalse.1

/-- Control leaves an arm. -/
theorem Follows.pass (hl : last.Finished) (hleave : last.Leaving s block t)
    (hu : last.Begins u block) : ∃ index, last.Follows u Γ ((block, index) :: path) env :=
  h.goes hl hleave.toEnding (.always hleave.closed.1) (.head _) hleave.notFinal hu

end

end Stage

end SsaCompiler
