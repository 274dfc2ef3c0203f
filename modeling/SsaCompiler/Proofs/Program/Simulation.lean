import SsaCompiler.Proofs.Program.Follow

/-!
# Runs of a function follow paths of its graph

When a path follows the walk to the stage where a statement begins, the outcome of
the statement tells where control goes on: to the stage where the walk over the
statement ends, to a return, or to a division that traps (`Stmt.Tours.simulates`).
*A loop is followed round by round*: its head is a block that many paths come to, and
on each of them the stage at which the head was entered sees the words of the
variables of that round.

So **a run of a function is a run of its graph** (`Translated.ends`), and lowering
keeps it (`Translated.ends_lowered`).
-/

namespace SsaCompiler

open List Option Builder

variable {flow flow' : Flow} {outcome : Stmt.Outcome} {word : Option Word}
  {next : Word → Option Stmt.Outcome} {value : Expr} {name : String} {path : Path}

namespace Stage

variable {last s t u : Stage} {path : Path} {n block jump : NodeId} {ty : Ty} {w : Word}
  {Γ : String → Ty} {env : Env} {own : NodeId → Prop} {c : Builder}

/-! ## Statements -/

/-- **What the outcome of a statement tells** of the path that is followed. -/
def Meets (last t : Stage) (Γ : String → Ty) (flow : Flow) : Stmt.Outcome → Prop
  | .continues env => flow = .continues ∧ ∃ path, last.Follows t Γ path env
  | .returns w => last.graph.Ends last.graph.Sensible (some w)
  | .traps => last.graph.Ends last.graph.Sensible none

/-- A statement that traps or returns tells nothing of the stage. -/
theorem Meets.of_continues (h : last.Meets s Γ flow outcome)
    (hn : flow = .continues → ∀ path env, last.Follows s Γ path env →
      last.Meets t Γ flow' (.continues env)) : last.Meets t Γ flow' outcome := by
  cases outcome with
  | continues env =>
    obtain ⟨hflow, path, hf⟩ := h
    exact hn hflow path env hf
  | returns w | traps => exact h

/-- A statement begins with an expression, or the expression traps. -/
theorem Follows.withWord (h : last.Follows s Γ path env) (hst : Stays s t)
    (hy : last.Yields path s t n ty word) (hr : Stmt.withWord word next = some outcome)
    (hn : ∀ w, last.Follows t Γ path env → last.HasWord path n ty w → next w = some outcome →
      last.Meets u Γ flow outcome) : last.Meets u Γ flow outcome := by
  rcases h.yields hst hy with ⟨w, rfl, hf, hw⟩ | ⟨rfl, he⟩
  · exact hn w hf hw hr
  · cases hr
    exact he

theorem Follows.values {e : Expr} (h : last.Follows s Γ path env) (hl : last.Finished)
    (he : last.Values e s n t) (hty : e.HasType Γ ty)
    (hrun : Stmt.withWord (e.eval env) next = some outcome)
    (hn : ∀ w, last.Follows t Γ path env → last.HasWord path n ty w → next w = some outcome →
      last.Meets u Γ flow outcome) : last.Meets u Γ flow outcome :=
  h.withWord he.answered.toStays
    (he.builds.yields hl h.toRoute he.before he.toward h.last_eq h.sees hty) hrun hn

/-- **An arm is left**, unless it has returned. -/
theorem Meets.pass (h : last.Meets s Γ flow outcome) (hl : last.Finished)
    (hp : last.Passing s block flow t) (hu : last.Begins u block)
    (hflow : flow = .continues → flow' = .continues) : last.Meets u Γ flow' outcome := by
  refine h.of_continues fun hc path env hf => ⟨hflow hc, ?_⟩
  cases hp with
  | returns => cases hc
  | continues hleave =>
    obtain ⟨index, hf⟩ := hf.pass hl hleave hu
    exact ⟨_, hf⟩

/-- **One statement after another.** -/
theorem Meets.andThen {first : Option Stmt.Outcome} {next : Env → Option Stmt.Outcome}
    (hr : Stmt.Outcome.andThen first next = some outcome)
    (h : ∀ outcome, first = some outcome → last.Meets s Γ flow outcome)
    (hn : flow = .continues → ∀ path env, last.Follows s Γ path env → next env = some outcome →
      last.Meets t Γ flow' outcome) : last.Meets t Γ flow' outcome := by
  cases first with
  | none => cases hr
  | some outcome' =>
    have hm := h outcome' rfl
    cases outcome' with
    | continues env =>
      obtain ⟨hflow, path, hf⟩ := hm
      exact hn hflow path env hf hr
    | returns value | traps =>
      cases hr
      exact hm

end Stage

open Stage

section

variable {last s t u v m w x y v' w' x' : Stage} {path : Path}
  {n cond effect a b merge head arm exit : NodeId} {Γ : String → Ty} {env : Env} {flow flow' : Flow}
  {body otherwise : Stmt} {condition : Expr} {outcome : Stmt.Outcome} {bound : Nat} {c : Builder}

/-- **A return.** -/
theorem simulates_ret (hl : last.Finished) (he : last.Values value s n t)
    (hread : t.read .effect t.current = .ok (effect, c))
    (hend : last.Ending (t.on c) .ret [effect, n] u) (hty : (Stmt.ret value).WellTyped Γ)
    (hf : last.Follows s Γ path env) (hrun : (Stmt.ret value).run bound env = some outcome) :
    last.Meets u Γ .returns outcome := by
  obtain ⟨ty, hty⟩ := hty
  refine hf.values hl he hty hrun fun w hf hw hnext => ?_
  cases hnext
  obtain ⟨hbt, hgood⟩ := he.after
  have hr := answered_read he.site.toWired hread
  have htc := hend.ahead.toToward.back hend.inert.grows hend.site.wf
  have hread' := hf.answered hr.toStays (calm_read hbt hread htc)
  -- The return itself.
  have hs := hend.ahead.toToward.exists_operands hl hend.lt (by rw [hend.kind]; rfl)
    (by rw [hend.kind]; rfl)
  rw [hend.operands fun target hm => mem_singleton.1 hm ▸
    lt_of_isBlock hend.site.final] at hs
  obtain ⟨effect', value', ho', hg⟩ : ∃ effect' value',
      last.graph.operands (t.on c).graph.size = [effect', value'] ∧
      last.graph.Gives last.graph.Sensible path value' w := by
    generalize last.graph.operands (t.on c).graph.size = ops at hs
    cases hs with
    | cons _ hrest =>
      cases hrest with
      | cons hn hrest =>
        cases hrest
        exact ⟨_, _, rfl, (hl.gives_of_same hf.toRoute hn.2.2 hn.2.1 hn.1
          (hf.last_eq ▸ hgood.fits.dom) hw).1⟩
  obtain ⟨hk, hh, -, -⟩ := hend.closed
  exact .returns hread'.comes (hread'.settles hend)
    (hh.trans hread'.last_eq.symm) hk ho' hg

/-- **An assignment.** -/
theorem simulates_assign (hl : last.Finished) (he : last.Values value s n t)
    (hty : value.HasType Γ (Γ name)) (hf : last.Follows s Γ path env)
    (hrun : Stmt.withWord (value.eval env) (fun w => some (.continues (Function.update env name w))) =
      some outcome) : last.Meets (t.put (.var name) t.current n) Γ .continues outcome := by
  refine hf.values hl he hty hrun fun w hf hw hn => ?_
  cases hn
  exact ⟨rfl, path, hf.put hw⟩

/-- **An assignment with an operator.** -/
theorem simulates_update {op : Operator} {lhs rhs : NodeId} {ty : Ty} (hl : last.Finished)
    (he : last.Values value s rhs t)
    (hr : t.read (.var name) t.current = .ok (lhs, c))
    (h : Operates (t.on c) lhs rhs op n u) (htu : Toward last last.plan u)
    (hop : op.HasType (Γ name) ty (Γ name)) (hty : value.HasType Γ ty)
    (hf : last.Follows s Γ path env)
    (hrun : Stmt.withWord ((value.eval env).bind (op.eval (env name)))
      (fun w => some (.continues (Function.update env name w))) = some outcome) :
    last.Meets (u.put (.var name) u.current n) Γ .continues outcome := by
  have hs := he.before.site
  have hv := he.answered
  have ht := he.site
  have ho := answered_read ht.toWired hr
  have hc := ho.site ht
  have hnew := h.answered hc ho.answer (ho.usable _ hv.answer)
  have htc := hnew.toward hc.toWired htu
  obtain ⟨hbt, hgoodR⟩ := he.after
  obtain ⟨hbc, hg⟩ := hbt.answered ho ((keeps_read ht.toWired hr).bind .refl fun h =>
    .refl ⟨(congrArg (last.plan.Dom _) ho.current).mpr h.1, h.2⟩) htc
  have hlast := hf.last_eq.trans hv.current.symm
  have hyields : last.Yields path s u n (Γ name) ((value.eval env).bind (op.eval (env name))) := by
    refine (he.builds.yields hl hf.toRoute he.before he.toward hf.last_eq hf.sees
      hty).bind ((ho.size_le ht.toWired).trans (hnew.size_le hc.toWired))
      (hv.size_le hs.toWired) fun y hy => ?_
    obtain ⟨hx, hcalm⟩ := yields_read hf.toRoute hbt hlast
      (hf.sees.stays hv.toStays) hr htc
    exact (h.yields hl hf.toRoute hbc htu (hlast.trans ho.current.symm) hg
      (hgoodR.stays ho.toStays) hop hx hy).after hcalm (ho.size_le ht.toWired)
  refine hf.withWord ((hv.toStays.trans ho.toStays hs.toWired).trans hnew.toStays
    hs.toWired) hyields hrun fun w hf hw hn => ?_
  cases hn
  exact ⟨rfl, path, hf.put hw⟩

/-- **A statement is followed** from one stage to another. -/
def Simulates (last : Stage) (Γ : String → Ty) (bound : Nat) (body : Stmt) (s : Stage) (flow : Flow)
    (t : Stage) : Prop :=
  body.WellTyped Γ → ∀ path env outcome, last.Follows s Γ path env →
    body.run bound env = some outcome → last.Meets t Γ flow outcome

section

variable (hl : last.Finished) (hcond : last.Values condition s cond t) (hblocks : Idle t m)
  (hfork : last.Forking m cond a b u) (hstill : m.current = t.current) (hfresh : last.Begins v a)

include hl hcond hblocks hfork hstill hfresh

/-- **A branch without an alternative.** -/
theorem simulates_ifThen (hp : last.Passing w b flow x) (hlast : last.Begins y b)
    (ih : Simulates last Γ bound body v flow w) :
    Simulates last Γ bound (.ifThen condition body) s .continues y := by
  intro hty path env outcome hf hrun
  refine hf.values hl hcond hty.1 hrun fun word hf hw hn => ?_
  have hf := hf.quiet hcond.site.toWired hblocks.toTends hstill
    (hfork.ahead.toToward.back hfork.inert.grows hfork.site.wf)
  by_cases hz : word ≠ 0
  · obtain ⟨index, hf⟩ := hf.fork hl hfork hw (if_pos hz).symm hfresh
    rw [if_pos hz] at hn
    exact (ih hty.2 _ _ _ hf hn).pass hl hp hlast fun _ => rfl
  · obtain ⟨index, hf⟩ := hf.fork hl hfork hw (if_neg hz).symm hlast
    rw [if_neg hz] at hn
    cases hn
    exact ⟨rfl, _, hf⟩

/-- **A branch with an alternative.** -/
theorem simulates_ifElse (hp : last.Passing w merge flow x) (hfresh' : last.Begins v' b)
    (hp' : last.Passing w' merge flow' x') (hlast : last.Begins y merge)
    (ih : Simulates last Γ bound body v flow w)
    (ih' : Simulates last Γ bound otherwise v' flow' w') :
    Simulates last Γ bound (.ifElse condition body otherwise) s (flow.join flow') y := by
  intro hty path env outcome hf hrun
  refine hf.values hl hcond hty.1 hrun fun word hf hw hn => ?_
  have hf := hf.quiet hcond.site.toWired hblocks.toTends hstill
    (hfork.ahead.toToward.back hfork.inert.grows hfork.site.wf)
  by_cases hz : word ≠ 0
  · obtain ⟨index, hf⟩ := hf.fork hl hfork hw (if_pos hz).symm hfresh
    rw [if_pos hz] at hn
    exact (ih hty.2.1 _ _ _ hf hn).pass hl hp hlast fun h =>
      Flow.join_eq_continues.2 (.inl h)
  · obtain ⟨index, hf⟩ := hf.fork hl hfork hw (if_neg hz).symm hfresh'
    rw [if_neg hz] at hn
    exact (ih' hty.2.2 _ _ _ hf hn).pass hl hp' hlast fun h =>
      Flow.join_eq_continues.2 (.inr h)

end

/-- **A loop.** -/
theorem simulates_loop {h z : Stage} (hl : last.Finished) (hs : s.Site) (hblocks : Idle s m)
    (hstill : m.current = s.current) (hj : last.Leaving m head t) (hh : last.Begins h head)
    (hcond : last.Values condition h cond u) (hfork : last.Forking u cond arm exit v)
    (hfresh : last.Begins z arm) (hp : last.Passing w head flow x) (hlast : last.Begins y exit)
    (ih : Simulates last Γ bound body z flow w) :
    Simulates last Γ bound (.loop condition body) s .continues y := by
  intro hty path env outcome hf hrun
  -- Control comes to the head, perhaps many times.
  have hr : ∀ rounds path env, last.Follows h Γ path env →
      Stmt.rounds (fun env => condition.eval env) (body.run bound) rounds env = some outcome →
      last.Meets y Γ .continues outcome := by
    intro rounds
    induction rounds with
    | zero => exact fun _ _ _ hrun => absurd hrun nofun
    | succ rounds ihRounds =>
      intro path env hf hrun
      refine hf.values hl hcond hty.1 hrun fun word hf hw hn => ?_
      by_cases hz : word ≠ 0
      · obtain ⟨index, hf⟩ := hf.fork hl hfork hw (if_pos hz).symm hfresh
        rw [if_pos hz] at hn
        refine Meets.andThen hn (fun outcome hout => ih hty.2 _ _ _ hf hout)
          fun hc path env hf hrun => ?_
        cases hp with
        | returns => cases hc
        | continues hleave =>
          obtain ⟨index, hf⟩ := hf.pass hl hleave hh
          exact ihRounds _ _ hf hrun
      · obtain ⟨index, hf⟩ := hf.fork hl hfork hw (if_neg hz).symm hlast
        rw [if_neg hz] at hn
        cases hn
        exact ⟨rfl, _, hf⟩
  have hf := hf.quiet hs.toWired hblocks.toTends hstill
    (hj.ahead.toToward.back hj.inert.grows hj.site.wf)
  obtain ⟨index, hf⟩ := hf.pass hl hj hh
  exact hr bound _ _ hf hrun

/-- **A statement is followed** through the walk over it. -/
theorem Stmt.Tours.simulates (h : body.Tours last s flow t) (hl : last.Finished) (Γ : String → Ty)
    (bound : Nat) : Simulates last Γ bound body s flow t := by
  induction h with
  | skip | declare =>
    intro _ path env outcome hf hrun
    cases hrun
    exact ⟨rfl, path, hf⟩
  | done h ih =>
    intro hty path env outcome hf hrun
    exact Meets.andThen hrun (fun outcome ho => ih hty.1 _ _ _ hf ho) nofun
  | next h hrest ih ih' =>
    intro hty path env outcome hf hrun
    exact Meets.andThen hrun (fun outcome ho => ih hty.1 _ _ _ hf ho)
      fun _ path env hf hrun => ih' hty.2 _ _ _ hf hrun
  | define he =>
    intro hty path env outcome hf hrun
    obtain ⟨rfl, hty⟩ := hty
    exact simulates_assign hl he hty hf hrun
  | assign he =>
    intro hty path env outcome hf hrun
    exact simulates_assign hl he hty hf hrun
  | update he hr h hu =>
    intro hty path env outcome hf hrun
    obtain ⟨ty, hop, hty⟩ := hty
    exact simulates_update hl he hr h hu hop hty hf hrun
  | ifThen hcond hblocks hfork hstill _ hfresh _ hp _ hlast ih =>
    exact simulates_ifThen hl hcond hblocks hfork hstill hfresh hp hlast ih
  | ifElse hcond hblocks hfork hstill _ hfresh _ hp _ hfresh' _ hp' _ hlast ih ih' =>
    exact simulates_ifElse hl hcond hblocks hfork hstill hfresh hp hfresh' hp' hlast ih ih'
  | loop hs hblocks hstill hj _ hh hcond hfork _ hfresh _ hp _ hlast ih =>
    exact simulates_loop hl hs hblocks hstill hj hh hcond hfork hfresh hp hlast ih
  | ret he hr hend =>
    intro hty path env outcome hf hrun
    exact simulates_ret hl he hr hend hty hf hrun

end

/-! ## Functions -/

namespace Translated

variable {f : Function} {s : Stage} {flow : Flow} {r : FunctionGraph} {outcome : Stmt.Outcome}

theorem kind_unset (h : Translated f s flow r) (slot : Slot) :
    s.graph.kind (s.plan.unset slot) = .undefined ∧
      s.graph.blockOf (s.plan.unset slot) = Graph.startBlock := by
  show s.graph.kind (((s.forwarded.find? _).map _).getD s.graph.size) = _ ∧
    s.graph.blockOf (((s.forwarded.find? _).map _).getD s.graph.size) = _
  cases hf : s.forwarded.find? fun e => s.graph.blockOf e.1 = Graph.startBlock ∧
      s.slotOf e.1 = some slot ∧ s.graph.kind e.2 = .undefined with
  | none =>
    refine ⟨kind_of_size_le _ le_rfl, ?_⟩
    show s.graph.blockOf s.graph.size = _
    unfold Graph.blockOf Graph.node
    rw [Array.getD_eq_getD_getElem?, Array.getElem?_eq_none
      (show s.graph.nodes.size ≤ s.graph.size from
      le_rfl)]
    rfl
  | some e =>
    have hfound := find?_some hf
    obtain ⟨hb, -, hk⟩ := of_decide_eq_true hfound
    refine ⟨hk, ?_⟩
    have hs := h.right.sound.same e (mem_of_find?_eq_some hf)
    exact hs.dom [] .nil hb.symm

theorem follows_first (h : Translated f s flow r) (Γ : String → Ty) :
    s.Follows (first f.name true) Γ [] .initial := by
  have hg := h.walks.tends.grows
  refine ⟨⟨.nil, h.wired.wf.entry, nofun⟩, .nil, rfl, fun name => ?_, fun d hd ht => ?_⟩
  · obtain ⟨hk, hb⟩ := h.kind_unset (.var name)
    show s.Has [] (s.plan.unset (.var name), 0) (Γ name) 0
    refine ⟨Graph.gives_of_constant? .nil h.wired.agrees_plan.entry hb (by rw [hk]; rfl)
      (Graph.sensible_of_ne (by rw [hk]; exact nofun)), ?_, fun _ => .other ?_ ?_⟩
    · cases Γ name
      · exact trivial
      · exact .inl rfl
    · rw [hk]
      exact nofun
    · rw [hk]
      exact nofun
  · rw [hg.kind d hd] at ht
    rcases d with _ | _ | _ | _ | d <;> cases ht

/-- **A run of a function is a run of its graph.** -/
theorem ends (h : Translated f s flow r) (hty : f.WellTyped) (hf : f.body.returns) :
    (∀ w, f.Evaluates (.returns w) → s.graph.Ends s.graph.Sensible (some w)) ∧
      (f.Evaluates .traps → s.graph.Ends s.graph.Sensible none) ∧
      ∀ env, ¬ f.Evaluates (.continues env) := by
  obtain ⟨Γ, hty⟩ := hty
  have hm : ∀ outcome, f.Evaluates outcome → s.Meets s Γ flow outcome := by
    rintro outcome ⟨bound, hr⟩
    exact h.tours.simulates h.finished Γ bound hty _ _ _ (h.follows_first Γ) hr
  have hflow : flow = .returns := by
    rw [h.walks.flow_eq, if_pos hf]
  refine ⟨fun w => hm _, hm _, fun env hr => ?_⟩
  obtain ⟨hc, -⟩ := hm _ hr
  cases hflow.symm.trans hc

/-! ## Lowering -/

section Lowering

variable (h : Translated f s flow r)

include h

/-- **What lowering does to operands and words.** -/
theorem exists_lowering : ∃ ρ : NodeId → NodeId, (∀ n, s.graph.kind n ≠ .condValue → ρ n = n) ∧
    (∀ n < s.graph.size, s.graph.kind n ≠ .condValue →
      r.graph.operands n = (s.graph.operands n).map ρ) ∧
    (∀ path n w, IsPath s.graph.preds path → n < s.graph.size → s.graph.kind n ≠ .condValue →
      s.graph.blockOf n = Path.last path → s.graph.Gives s.graph.Sensible path n w →
      r.graph.Gives (fun _ _ => True) path n w) ∧
    ∀ path n a w, IsPath s.graph.preds path → s.graph.kind n ≠ .condValue →
      (s.graph.kind n).isPhi = false → (s.graph.kind n).isBlock = false →
      s.graph.blockOf n = Path.last path → a ∈ s.graph.operands n →
      s.graph.Gives s.graph.Sensible path a w → r.graph.Gives (fun _ _ => True) path (ρ a) w := by
  have hwf := h.wired.wf
  have hs := h.right.strict h.wired (d := s.finish) (graph_finish _)
    (known_finish _)
  obtain ⟨done, ρ, hdone, hc⟩ := hs.exists_conveys
    (by rw [graph_finish]; exact hwf.entry)
    (by rw [graph_finish]; exact hwf.home)
    (by rw [Graph.preds, h.wired.entry]; rfl)
  rw [graph_finish] at hdone hc
  have hg := hc.gives
  have ho := hc.operands
  rw [← h.lowered] at hg ho
  refine ⟨ρ, hc.fixed, fun n hn hk => ho n (fun hd => hk ((hdone n).1 hd)) hn,
    fun path n w hp hn hk hb hw => ?_, fun path n a w hp hk hphi hnot hb ha hw => ?_⟩
  · have hw := hg path n w hn (.inl hk) hp (hb ▸ .refl _ _) hw
    rw [hc.fixed n hk] at hw
    exact hw.weaken fun _ _ _ => trivial
  · refine (hg path a w (hwf.coherent.closed n a ha)
      (.inr ⟨n, fun hd => hk ((hdone n).1 hd), ha⟩) hp ?_ hw).weaken fun _ _ _ => trivial
    have hdom := hs.uses n
    rw [graph_finish] at hdom
    exact hb ▸ hdom hphi hnot a ha

/-- A division is none of the nodes that lowering makes. -/
theorem kind_eq_of_mayTrap {d : NodeId} (ht : (r.graph.kind d).mayTrap) :
    d < s.graph.size ∧ r.graph.kind d = s.graph.kind d := by
  refine h.kind_eq_of_not_isFormula ?_
  cases hk : r.graph.kind d with
  | binary op =>
    rw [hk] at ht
    show (!op.hasEffect) = false
    rw [show op.hasEffect = true from ht]
    rfl
  | _ =>
    rw [hk] at ht
    cases ht

/-- **No division traps after lowering** where none did before. -/
theorem settles_lowered (hp : IsPath s.graph.preds path)
    (hs : s.graph.Settles s.graph.Sensible path) : r.graph.Settles (fun _ _ => True) path := by
  obtain ⟨ρ, -, -, hg, -⟩ := h.exists_lowering
  intro d ht hd
  obtain ⟨hlt, hkind⟩ := h.kind_eq_of_mayTrap ht
  rw [hkind] at ht
  rw [h.blockOf_eq hlt] at hd
  obtain ⟨w, hw⟩ := hs d ht hd
  exact ⟨w, hg path d w hp hlt (fun hk => by rw [hk] at ht; cases ht) hd hw⟩

/-- **Control comes along the same paths after lowering.** -/
theorem comes_lowered (hc : s.graph.Comes s.graph.Sensible path) :
    r.graph.Comes (fun _ _ => True) path := by
  induction hc with
  | nil => exact .nil
  | @cons path jump block index hc hs hh hturns he ih =>
    obtain ⟨ρ, -, hops, -, hg⟩ := h.exists_lowering
    obtain ⟨ht, htarget⟩ := hturns.mem_targets
    have hlt := lt_of_isTerminator ht
    have hkind := h.kind_eq_of_isTerminator ht
    have hb := h.wired.targets jump ht block (Kind.mem_exits_of_mem_targets htarget)
    refine .cons ih (h.settles_lowered hc.isPath hs) ((h.blockOf_eq hlt).trans hh) ?_
      ((h.operands_block hb).symm ▸ he)
    cases hturns with
    | always hk => exact .always (hkind.trans hk)
    | @branch ifTrue ifFalse cond w hk hcond hw =>
      refine .branch (hkind.trans hk) (hops jump hlt (by rw [hk]; exact nofun) ▸ congrArg
        (List.map ρ) hcond) ?_
      exact hg path jump cond w hc.isPath (by rw [hk]; exact nofun) (by rw [hk]; rfl)
        (by rw [hk]; rfl) hh (hcond ▸ mem_singleton_self _) hw

/-- **A run of a graph ends after lowering as it did before.** -/
theorem ends_lowered (he : s.graph.Ends s.graph.Sensible word) :
    r.graph.Ends (fun _ _ => True) word := by
  obtain ⟨ρ, -, ho, -, hg⟩ := h.exists_lowering
  cases he with
  | @returns path jump effect value w hc hs hh hk hcond hw =>
    have hterm : (s.graph.kind jump).isTerminator = true := by rw [hk]; rfl
    have hlt := lt_of_isTerminator hterm
    refine .returns (h.comes_lowered hc) (h.settles_lowered hc.isPath hs)
      ((h.blockOf_eq hlt).trans hh) ((h.kind_eq hlt).trans hk)
      (ho jump hlt (by rw [hk]; rintro ⟨⟩) ▸ congrArg (List.map ρ) hcond) ?_
    exact hg path jump value w hc.isPath (by rw [hk]; rintro ⟨⟩) (by rw [hk]; rfl)
      (by rw [hk]; rfl) hh (hcond ▸ by simp) hw
  | @traps path d hc ht =>
    obtain ⟨op, a, b, x, y, hk, hh, hargs, ha, hb, hn⟩ := ht
    have hlt : d < s.graph.size := by
      by_contra hle
      rw [kind_of_size_le _ (not_lt.1 hle)] at hk
      cases hk
    have hkind := (h.kind_eq hlt).trans hk
    have hmem : ∀ m ∈ [a, b], m ∈ s.graph.operands d := fun m hm =>
      mem_of_mem_take (hargs ▸ hm : m ∈ s.graph.arguments d)
    have hargs' : r.graph.arguments d = [ρ a, ρ b] := by
      rw [Graph.arguments, hkind, ho d hlt (by rw [hk]; rintro ⟨⟩), ← map_take]
      rw [Graph.arguments, hk] at hargs
      rw [hargs]
      rfl
    have hg' := fun m w hm => hg path d m w hc.isPath (by rw [hk]; rintro ⟨⟩)
      (by rw [hk]; rfl) (by rw [hk]; rfl) hh (hmem m hm)
    exact .traps (h.comes_lowered hc) ⟨op, ρ a, ρ b, x, y, hkind,
      (h.blockOf_eq hlt).trans hh, hargs', hg' a x (by simp) ha, hg' b y (by simp) hb,
        hn⟩

end Lowering

end Translated

end SsaCompiler
