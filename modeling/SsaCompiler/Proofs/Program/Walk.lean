import SsaCompiler.Proofs.Program.Statement

/-!
# The walk over a statement

`Stmt.Walks` is the walk over a statement as a relation between stages, with one
rule for every way a statement is translated, and one answer
(`Stmt.Walks.build_eq`). It goes on exactly if the statement does not return by its
shape (`Stmt.Walks.flow_eq`). Every rule records **what is known of the stages in
between**: where the walk goes on, which blocks a branch leads to, and what its arms
leave. So whatever is to be shown of every stage of the walk is shown by one induction
over `Stmt.Walks`, and no rule has to be opened again: so it is with what the walk
leaves (`Stmt.Walks.walked`). From a site the walk always comes to an end
(`Stmt.exists_walks`).
-/

namespace SsaCompiler

open Graph (startBlock endBlock)

open Stage SsaCompiler.Except Builder

variable {block target : NodeId}

/-- **The walk over a statement** leads from a site to another stage and tells
whether control goes on. -/
inductive Stmt.Walks : Stmt → Stage → Flow → Stage → Prop
  | skip {s : Stage} (hs : s.Site) : Walks .skip s .continues s
  | done {first rest : Stmt} {s t : Stage} (h : Walks first s .returns t) :
      Walks (.seq first rest) s .returns t
  | next {first rest : Stmt} {s t u : Stage} {flow : Flow} (h : Walks first s .continues t)
      (hrest : Walks rest t flow u) : Walks (.seq first rest) s flow u
  | declare {s : Stage} {name : String} {ty : Ty} (hs : s.Site) :
      Walks (.declare name ty none) s .continues s
  | define {name : String} {ty : Ty} {e : Expr} {s t : Stage} {n : NodeId} (hs : s.Site)
      (he : e.Builds s n t) :
      Walks (.declare name ty (some e)) s .continues (t.put (.var name) t.current n)
  | assign {name : String} {e : Expr} {s t : Stage} {n : NodeId} (hs : s.Site)
      (he : e.Builds s n t) :
      Walks (.assign name none e) s .continues (t.put (.var name) t.current n)
  | update {name : String} {op : Operator} {e : Expr} {s t u : Stage} {lhs rhs n : NodeId}
      {c : Builder} (hs : s.Site) (he : e.Builds s rhs t)
      (hread : t.toBuilder.read (.var name) t.current = .ok (lhs, c))
      (h : Operates (t.on c) lhs rhs op n u) :
      Walks (.assign name (some op) e) s .continues (u.put (.var name) u.current n)
  | ifThen {condition : Expr} {body : Stmt} {s t u w : Stage} {cond : NodeId} {c d : Builder}
      {flow : Flow} (hs : s.Site) (hcond : condition.Builds s cond t)
      (hfork : u = ((t.newBlock "then").newBlock "merge").leave
        (.condJump t.graph.size (t.graph.size + 1)) [cond])
      (hforks : Forks t.graph.size (t.graph.size + 1) ((t.newBlock "then").newBlock "merge") u)
      (hthen : u.toBuilder.sealBlock t.graph.size = .ok c)
      (hbody : Walks body ((u.on c).enter t.graph.size) flow w)
      (hpass : Steps w (w.passOn flow (t.graph.size + 1)))
      (harm : Arm t.graph.size (t.graph.size + 1) flow u (w.passOn flow (t.graph.size + 1)))
      (hentry : Entry (w.passOn flow (t.graph.size + 1)) (t.graph.size + 1))
      (hmerge : (w.passOn flow (t.graph.size + 1)).toBuilder.sealBlock (t.graph.size + 1) = .ok d) :
      Walks (.ifThen condition body) s .continues
        (((w.passOn flow (t.graph.size + 1)).on d).enter (t.graph.size + 1))
  | ifElse {condition : Expr} {body otherwise : Stmt} {s t u w x : Stage} {cond : NodeId}
      {c d e : Builder} {flow flow' : Flow} (hs : s.Site) (hcond : condition.Builds s cond t)
      (hfork : u = (((t.newBlock "then").newBlock "else").newBlock "merge").leave
        (.condJump t.graph.size (t.graph.size + 1)) [cond])
      (hforks : Forks t.graph.size (t.graph.size + 1)
        (((t.newBlock "then").newBlock "else").newBlock "merge") u)
      (hvacant : Vacant u (t.graph.size + 2))
      (hthen : u.toBuilder.sealBlock t.graph.size = .ok c)
      (hbody : Walks body ((u.on c).enter t.graph.size) flow w)
      (hpass : Steps w (w.passOn flow (t.graph.size + 2)))
      (harm : Arm t.graph.size (t.graph.size + 2) flow u (w.passOn flow (t.graph.size + 2)))
      (helse : (w.passOn flow (t.graph.size + 2)).toBuilder.sealBlock (t.graph.size + 1) = .ok d)
      (hotherwise : Walks otherwise
        (((w.passOn flow (t.graph.size + 2)).on d).enter (t.graph.size + 1)) flow' x)
      (hpass' : Steps x (x.passOn flow' (t.graph.size + 2)))
      (harm' : Arm (t.graph.size + 1) (t.graph.size + 2) flow' (w.passOn flow (t.graph.size + 2))
        (x.passOn flow' (t.graph.size + 2)))
      (hlast : ((x.passOn flow' (t.graph.size + 2)).graph.kind (t.graph.size + 2)).isBlock = true)
      (hmerge : (x.passOn flow' (t.graph.size + 2)).toBuilder.sealBlock (t.graph.size + 2) = .ok e) :
      Walks (.ifElse condition body otherwise) s (flow.join flow')
        (((x.passOn flow' (t.graph.size + 2)).on e).enter (t.graph.size + 2))
  | loop {condition : Expr} {body : Stmt} {s t u v w : Stage} {cond : NodeId}
      {c d e : Builder} {flow : Flow} (hs : s.Site)
      (hhead : t = (((s.newBlock "header").newBlock "body").newBlock "exit").leave
        (.jump s.graph.size) [])
      (hjump : Part (· = s.current) (fun _ => False) (· = s.graph.size)
        (fun n => n = s.current ∨ n = s.graph.size) (· = s.graph.size) (fun _ => False)
        (((s.newBlock "header").newBlock "body").newBlock "exit") t)
      (hsite : (t.enter s.graph.size).Site)
      (hcond : condition.Builds (t.enter s.graph.size) cond u)
      (hfork : v = u.leave (.condJump (s.graph.size + 1) (s.graph.size + 2)) [cond])
      (hforks : Forks (s.graph.size + 1) (s.graph.size + 2) u v)
      (hbodyBlock : v.toBuilder.sealBlock (s.graph.size + 1) = .ok c)
      (hbody : Walks body ((v.on c).enter (s.graph.size + 1)) flow w)
      (hpass : Steps w (w.passOn flow s.graph.size))
      (harm : Arm (s.graph.size + 1) s.graph.size flow v (w.passOn flow s.graph.size))
      (hheader : (w.passOn flow s.graph.size).toBuilder.sealBlock s.graph.size = .ok d)
      (hwired : ((w.passOn flow s.graph.size).on d).Wired)
      (hentry : Entry ((w.passOn flow s.graph.size).on d) (s.graph.size + 2))
      (hexit : ((w.passOn flow s.graph.size).on d).toBuilder.sealBlock (s.graph.size + 2) = .ok e) :
      Walks (.loop condition body) s .continues
        ((((w.passOn flow s.graph.size).on d).on e).enter (s.graph.size + 2))
  | ret {value : Expr} {s t : Stage} {n effect : NodeId} {c : Builder} (hs : s.Site)
      (he : value.Builds s n t) (hread : t.toBuilder.read .effect t.current = .ok (effect, c)) :
      Walks (.ret value) s .returns ((t.on c).leave .ret [effect, n])

section

variable {s t w y : Stage} {flow flow' : Flow} {condition : Expr}
  {body otherwise : Stmt}

/-! ## What the walk leaves -/

theorem Stmt.Walks.walked_ifThen (h : (Stmt.ifThen condition body).Walks s flow y) :
    Walked s flow y := by
  cases h with
  | @ifThen _ _ _ t u w cond c d flow hs hcond hfork hforks _ _ _ ha hentry hm =>
  have hv := hcond.answered hs
  have hle := (hv.steps.grows hs.wf).size_le
  have hle' := Nat.le_succ_of_le hle
  have hf := (hv.newBlocks hs (hv.site hs).toWired "then" "merge" fun _ => id).forks hs
    hforks (.inl hv.current) (fun _ hn => hn.trans hv.current.symm) hle hle'
  have hc : Inside (fun n => Flow.continues = .continues ∧ n = t.graph.size + 1 ∨
      n = endBlock) (fun n => n = t.graph.size ∨ n = t.graph.size + 1) s
      (w.passOn flow (t.graph.size + 1)) :=
    hf.arm hs ha hle hle' (fun n hn => hn.imp_right fun hn => .inl ⟨rfl, hn⟩)
      fun n hn => hn.imp_left fun hn => ⟨rfl, hn.2⟩
  exact hc.walked hs hle' hentry.isBlock hentry.isOpen (fun _ => hentry.reaches)
    (fun n hn => hn.imp_left fun (he : n = t.graph.size) => he ▸ ha.done)
    (sealStep ha.wired.wf hentry.isBlock hm)

theorem Flow.join_eq_continues : flow.join flow' = .continues ↔
    flow = .continues ∨ flow' = .continues := by
  cases flow <;> cases flow' <;> decide

theorem Stmt.Walks.walked_ifElse (h : (Stmt.ifElse condition body otherwise).Walks s flow y) :
    Walked s flow y := by
  cases h with
  | @ifElse _ _ _ _ t u w x cond c d e flow flow' hs hc hfork hforks hvacant _ _ _ ha _ _ _
      ha' hl hmerge =>
  have hv := hc.answered hs
  have hle := (hv.steps.grows hs.wf).size_le
  have hle' := Nat.le_succ_of_le hle
  have hle'' := Nat.le_succ_of_le hle'
  have hneThen : t.graph.size + 2 ≠ t.graph.size := by omega
  have hneElse : t.graph.size + 2 ≠ t.graph.size + 1 := by omega
  have hj : flow.join flow' = .continues ↔ flow = .continues ∨ flow' = .continues :=
    Flow.join_eq_continues
  have hg := ha.steps.grows hforks.wired.wf
  have hg' := ha'.steps.grows ha.wired.wf
  have hm := hg.isBlock hvacant.isBlock
  have hforked := (hv.threeBlocks hs (hv.site hs).toWired "then" "else" "merge").forks hs
    hforks (.inl hv.current) (fun _ hn => hn.trans hv.current.symm) hle hle'
  have hfirst : Inside (fun n => n = t.graph.size + 1 ∨ flow = .continues ∧ n = t.graph.size + 2 ∨
      n = endBlock) _ s (w.passOn flow (t.graph.size + 2)) :=
    hforked.arm hs ha hle hle'' (fun n hn => hn.imp_right .inl) fun _ => .inr
  have hsecond : Inside (fun n => flow.join flow' = .continues ∧ n = t.graph.size + 2 ∨
      n = endBlock) _ s (x.passOn flow' (t.graph.size + 2)) :=
    hfirst.arm hs ha' hle' hle''
      (fun n hn => hn.imp_right (Or.imp_left (And.imp_left (hj.2 <| .inl ·))))
      fun n hn => hn.imp_left (And.imp_left (hj.2 <| .inr ·))
  refine hsecond.walked hs hle'' hl ?_ (fun hf => ?_) (fun n hn => ?_)
    (sealStep ha'.wired.wf hl hmerge)
  · exact ha'.isOpen ha.wired.wf (lt_of_isBlock hm)
      (ha.isOpen hforks.wired.wf (lt_of_isBlock hvacant.isBlock) hvacant.isOpen hneThen) hneElse
  · rcases hj.1 hf with hf | hf
    · exact hg'.reaches ha.wired.wf hm (ha.reaches hf)
    · exact ha'.reaches hf
  · rcases hn with rfl | rfl | hn
    · exact .inl (hg'.isSealed _ ha.done)
    · exact .inl ha'.done
    · exact .inr hn

theorem Stmt.Walks.walked_loop (h : (Stmt.loop condition body).Walks s flow y) :
    Walked s flow y := by
  cases h with
  | @loop _ _ _ t u v w cond c d e flow hs hhead _ hsite hcond _ hf _ _ _ ha hh hw
      he hexit =>
  obtain ⟨hp, -, -, -, -⟩ := loop_head hs hhead
  have hv := hcond.answered hsite
  have hu := hv.site hsite
  have hc : u.current = s.graph.size := hv.current
  have hg := ha.steps.grows hf.wired.wf
  have hb := hg.isBlock
    ((hf.steps.grows hu.wf).isBlock (hc ▸ hu.current))
  have hseal := sealStep ha.wired.wf hb hh
  have hle := Nat.le_refl s.graph.size
  have hle' := Nat.le_succ_of_le hle
  have hle'' := Nat.le_succ_of_le hle'
  -- Control comes from the head to the exit.
  have hleads : (w.passOn flow s.graph.size).graph.Leads s.graph.size (s.graph.size + 2) :=
    hg.leads hf.wired.wf
      (.single ⟨hf.onFalse.isBlock, hc ▸ hf.edge⟩)
  have hforked := (hp.quiet hs.toWired hs.own_lt hv.toQuiet hu.toWired).forks hs hf
    (.inr hc.symm.le) (fun _ hn => hn.trans hc.symm) hle' hle''
  have hl : Inside (fun n => n = s.graph.size + 2 ∨ flow = .continues ∧ n = s.graph.size ∨
      n = endBlock) _ s (w.passOn flow s.graph.size) :=
    hforked.arm hs ha hle' hle (fun n hn => hn.imp_right .inl) fun _ => .inr
  have hclosed : Inside (fun n => Flow.continues = .continues ∧ n = s.graph.size + 2 ∨
      n = endBlock) (fun n => n = s.graph.size ∨ n = s.graph.size + 1 ∨ n = s.graph.size + 2) s
      (w.passOn flow s.graph.size) := by
    refine hl.redirect fun n hn _ => ?_
    rcases hn with hn | ⟨-, rfl⟩ | hn
    · exact ⟨n, .inl ⟨rfl, hn⟩, .refl⟩
    · exact ⟨_, .inl ⟨rfl, rfl⟩, hleads⟩
    · exact ⟨n, .inr hn, .refl⟩
  refine (hclosed.seals hs.toWired hs.own_lt hseal hw hle).walked hs hle'' he.isBlock
    he.isOpen (fun _ => he.reaches) (fun n hn => ?_)
    (sealStep hw.wf he.isBlock hexit)
  rcases hn with rfl | rfl | hn
  · exact .inl ((hseal.isSealed _).2 (.inl rfl))
  · exact .inl ((hseal.step.grows ha.wired.wf).isSealed _ ha.done)
  · exact .inr hn

theorem Stmt.Walks.site (h : body.Walks s flow t) : s.Site := by
  induction h with
  | skip hs | declare hs | define hs _ | assign hs _ | update hs _ _ _ | ret hs _ _ => exact hs
  | done _ ih | next _ _ ih _ => exact ih
  | ifThen hs | ifElse hs | loop hs => exact hs

/-- **What the walk over a statement leaves.** -/
theorem Stmt.Walks.walked (h : body.Walks s flow t) : Walked s flow t := by
  induction h with
  | skip hs | declare hs => exact (Quiet.refl _).walked hs hs.toWired rfl
  | done _ ih => exact ih
  | next h _ ih ih' => exact ih.trans ih' h.site
  | define hs he | assign hs he => exact (he.answered hs).walked_put hs _
  | update hs he hr h =>
    have hv := he.answered hs
    have hold := answered_read (hv.site hs).toWired hr
    have hboth := hv.trans hold hs.toWired
    exact (hboth.trans (h.answered (hboth.site hs) hold.answer (hold.usable _ hv.answer))
      hs.toWired).walked_put hs _
  | ifThen hs hc hfork hf ht hb hp ha hentry hm =>
    exact walked_ifThen (.ifThen hs hc hfork hf ht hb hp ha hentry hm)
  | ifElse hs hc hfork hf hvacant ht hb hp ha helse ho hp' harm' hl
      hm =>
    exact walked_ifElse (.ifElse hs hc hfork hf hvacant ht hb hp ha helse ho hp' harm' hl hm)
  | loop hs hhead hj hsite hc hfork hf hblock hb hp ha hh hw hentry
      hexit =>
    exact walked_loop (.loop hs hhead hj hsite hc hfork hf hblock hb hp ha hh hw hentry hexit)
  | ret hs he hr => exact walked_ret (he.answered hs) hs hr

/-! ## The walk is the translation -/

theorem Stage.passOn_eq (w : Stage) (flow : Flow) (target : NodeId) :
    Stmt.leave target (flow, w.toBuilder) = (w.passOn flow target).toBuilder := by
  cases flow with
  | continues | returns => rfl

/-- **The walk is the translation.** -/
theorem Stmt.Walks.build_eq (h : body.Walks s flow t) :
    body.build s.toBuilder = .ok (flow, t.toBuilder) := by
  induction h with
  | skip | declare => rfl
  | done _ ih => exact bind_eq_ok.2 ⟨_, ih, rfl⟩
  | next _ _ ih ih' => exact bind_eq_ok.2 ⟨_, ih, ih'⟩
  | define _ he | assign _ he => exact bind_eq_ok.2 ⟨_, he.build_eq, rfl⟩
  | update _ he hr h =>
    exact bind_eq_ok.2 ⟨_, he.build_eq, bind_eq_ok.2 ⟨_, hr, bind_eq_ok.2 ⟨_, h.operate_eq, rfl⟩⟩⟩
  | @ifThen condition body s t u w cond c d flow _ hc hf _ ht _ _ _ _ hm ih =>
    subst hf
    rw [← passOn_eq] at hm
    refine bind_eq_ok.2 ⟨_, hc.build_eq, ?_⟩
    show (enterSealed (((t.newBlock "then").newBlock "merge").leave (.condJump t.graph.size
      (t.newBlock "then").graph.size) [cond]).toBuilder t.graph.size >>= fun b =>
        body.build b >>= fun done => enterSealed (leave (t.newBlock "then").graph.size done)
          (t.newBlock "then").graph.size >>= fun b => pure (Flow.continues, b)) = _
    rw [size_newBlock]
    exact bind_eq_ok.2 ⟨_, bind_eq_ok.2 ⟨c, ht, rfl⟩, bind_eq_ok.2
      ⟨_, ih, bind_eq_ok.2 ⟨_, bind_eq_ok.2 ⟨_, hm, rfl⟩, rfl⟩⟩⟩
  | @ifElse condition body otherwise s t u w x cond c d e flow flow' _ hc hf _ _ ht _ _ _
      helse _ _ _ _ hm ih ih' =>
    subst hf
    rw [← passOn_eq] at helse hm
    refine bind_eq_ok.2 ⟨_, hc.build_eq, ?_⟩
    show (enterSealed ((((t.newBlock "then").newBlock "else").newBlock "merge").leave
      (.condJump t.graph.size (t.newBlock "then").graph.size) [cond]).toBuilder t.graph.size >>=
        fun b => body.build b >>= fun done =>
          enterSealed (leave ((t.newBlock "then").newBlock "else").graph.size done)
            (t.newBlock "then").graph.size >>= fun b => otherwise.build b >>= fun done' =>
            enterSealed (leave ((t.newBlock "then").newBlock "else").graph.size done')
              ((t.newBlock "then").newBlock "else").graph.size >>= fun b =>
              pure (Flow.join done.1 done'.1, b)) = _
    simp only [size_newBlock]
    exact bind_eq_ok.2 ⟨_, bind_eq_ok.2 ⟨_, ht, rfl⟩, bind_eq_ok.2
      ⟨_, ih, bind_eq_ok.2 ⟨_, bind_eq_ok.2 ⟨_, helse, rfl⟩, bind_eq_ok.2
      ⟨_, ih', bind_eq_ok.2 ⟨_, bind_eq_ok.2 ⟨_, hm, rfl⟩, rfl⟩⟩⟩⟩⟩
  | @loop condition body s t u v w cond c d e flow _ hhead _ _ hc hf _ hb _ _ _ hh
      _ _ hexit ih =>
    subst hhead hf
    rw [← passOn_eq] at hh
    show (condition.build (((((s.newBlock "header").newBlock "body").newBlock "exit").leave
      (.jump s.graph.size) []).enter s.graph.size).toBuilder >>= fun r =>
        enterSealed (r.2.condJump r.1 (s.newBlock "header").graph.size
          ((s.newBlock "header").newBlock "body").graph.size).2
          (s.newBlock "header").graph.size >>= fun b => body.build b >>= fun done =>
          (leave s.graph.size done).sealBlock s.graph.size >>= fun b =>
            enterSealed b ((s.newBlock "header").newBlock "body").graph.size >>= fun b =>
              pure (Flow.continues, b)) = _
    simp only [size_newBlock]
    exact bind_eq_ok.2 ⟨_, hc.build_eq, bind_eq_ok.2 ⟨_,
      bind_eq_ok.2 ⟨_, hb, rfl⟩, bind_eq_ok.2 ⟨_, ih, bind_eq_ok.2
      ⟨_, hh, bind_eq_ok.2 ⟨_, bind_eq_ok.2 ⟨_, hexit, rfl⟩, rfl⟩⟩⟩⟩⟩
  | @ret value s t n effect c _ he hr =>
    have hret : t.ret n =
        .ok ((t.on c).graph.size, ((t.on c).leave .ret [effect, n]).toBuilder) := by
      rw [ret_eq, hr]
      rfl
    exact bind_eq_ok.2 ⟨_, he.build_eq, bind_eq_ok.2 ⟨_, hret, rfl⟩⟩

/-- **The walk ends in a return exactly if the statement returns** by its
shape. -/
theorem Stmt.Walks.flow_eq (h : body.Walks s flow t) :
    flow = if body.returns then .returns else .continues := by
  induction h with
  | skip | declare | define | assign | update | ifThen | loop | ret => rfl
  | @done first rest _ _ _ ih =>
    have hf : first.returns = true := by
      by_contra hne
      rw [if_neg hne] at ih
      cases ih
    simp [Stmt.returns, hf]
  | @next first rest _ _ _ _ _ _ ih ih' =>
    have hf : first.returns = false := by
      by_contra hne
      rw [if_pos ((Bool.not_eq_false _).mp hne)] at ih
      cases ih
    rw [ih', Stmt.returns, hf, Bool.false_or]
  | @ifElse _ body otherwise _ _ _ _ _ _ _ _ _ _ _ _ _ _ _ _ _ _ _ _ _ _ _ _ _ _ ih ih' =>
    rw [ih, ih', Stmt.returns]
    cases body.returns <;> cases otherwise.returns <;> rfl

/-! ## The walk comes to an end -/

/-- **An arm is walked** from its entry to the jump out of it. -/
theorem Entry.exists_arm (h : Entry s block) (hs : s.Wired)
    (ht : (s.graph.kind target).isBlock) (hu : s.isSealed target = false)
    (hne : target ≠ block) (hb : ∀ s : Stage, s.Site → ∃ flow t, body.Walks s flow t) :
    ∃ c flow w, s.sealBlock block = .ok c ∧ body.Walks ((s.on c).enter block) flow w ∧
      Steps w (w.passOn flow target) ∧ Arm block target flow s (w.passOn flow target) := by
  obtain ⟨c, hc⟩ := hs.exists_seals h.isBlock
  have hseal := sealStep hs.wf h.isBlock hc
  obtain ⟨flow, w, hw⟩ := hb _ (h.site hs hseal)
  exact ⟨c, flow, w, hc, hw, hw.walked.arm hs h hseal ht hu hne⟩

/-- **Every statement is walked to its end**, from site to site. -/
theorem Stmt.exists_walks (body : Stmt) (hs : s.Site) : ∃ flow t, body.Walks s flow t := by
  induction body generalizing s with
  | skip => exact ⟨_, _, .skip hs⟩
  | seq first rest ih ih' =>
    obtain ⟨flow, t, h⟩ := ih hs
    cases flow with
    | returns => exact ⟨_, _, .done h⟩
    | continues =>
      obtain ⟨flow', u, h'⟩ := ih' (h.walked.toSite hs)
      exact ⟨_, _, .next h h'⟩
  | declare name ty init =>
    cases init with
    | none => exact ⟨_, _, .declare hs⟩
    | some e =>
      obtain ⟨n, t, he⟩ := e.exists_builds hs
      exact ⟨_, _, .define hs he⟩
  | assign name op e =>
    obtain ⟨rhs, t, he⟩ := e.exists_builds hs
    cases op with
    | none => exact ⟨_, _, .assign hs he⟩
    | some op =>
      have ht := (he.answered hs).site hs
      obtain ⟨lhs, c, hr⟩ := ht.exists_read (.var name) ht.current ht.reached
      obtain ⟨n, u, h⟩ := exists_operates ((answered_read ht.toWired hr).site ht) lhs rhs op
      exact ⟨_, _, .update hs he hr h⟩
  | ifThen condition body ih =>
    obtain ⟨cond, t, hc⟩ := condition.exists_builds hs
    have hvalue := hc.answered hs
    obtain ⟨hf, hunsealed⟩ := forks_ifThen (hvalue.site hs) hvalue.answer rfl
    obtain ⟨c, flow, w, hthen, hbody, hp, ha⟩ := hf.onTrue.exists_arm hf.wired
      hf.onFalse.isBlock hunsealed (Nat.succ_ne_self _) fun _ => ih
    have hentry := hf.onFalse.of_confined ha.toConfined hf.wired.wf
      (Nat.succ_ne_self _)
    obtain ⟨d, hm⟩ := ha.wired.exists_seals hentry.isBlock
    exact ⟨_, _, .ifThen hs hc rfl hf hthen hbody hp ha hentry hm⟩
  | ifElse condition body otherwise ih ih' =>
    obtain ⟨cond, t, hc⟩ := condition.exists_builds hs
    have hvalue := hc.answered hs
    obtain ⟨hf, hv⟩ := forks_ifElse (hvalue.site hs) hvalue.answer rfl
    have hne : t.graph.size + 2 ≠ t.graph.size := by omega
    obtain ⟨c, flow, w, hthen, hbody, hp, ha⟩ := hf.onTrue.exists_arm hf.wired
      hv.isBlock hv.unsealed hne fun _ => ih
    -- The other arm begins where the first one has ended.
    have hentry := hf.onFalse.of_confined ha.toConfined hf.wired.wf
      (Nat.succ_ne_self _)
    have hb := (ha.steps.grows hf.wired.wf).isBlock hv.isBlock
    have hunsealed := (ha.isSealed _ (lt_of_isBlock hv.isBlock) hne).trans
      hv.unsealed
    obtain ⟨d, flow', x, helse, ho, hp', ha'⟩ := hentry.exists_arm ha.wired hb
      hunsealed (Nat.succ_ne_self _) fun _ => ih'
    have hl := (ha'.steps.grows ha.wired.wf).isBlock hb
    obtain ⟨e, hm⟩ := ha'.wired.exists_seals hl
    exact ⟨_, _, .ifElse hs hc rfl hf hv hthen hbody hp ha helse ho hp'
      ha' hl hm⟩
  | loop condition body ih =>
    obtain ⟨-, hsite, -, -, -⟩ := loop_head hs rfl
    obtain ⟨cond, u, hc⟩ := condition.exists_builds hsite
    have hvalue := hc.answered hsite
    obtain ⟨hf, hunsealed⟩ := forks_loop hs rfl hvalue rfl
    have hcurrent : u.current = s.graph.size := hvalue.current
    have hu := hvalue.site hsite
    have hheaderV := (hf.steps.grows hu.wf).isBlock (hcurrent ▸ hu.current)
    obtain ⟨c, flow, w, hb, hbody, hp, ha⟩ :=
      hf.onTrue.exists_arm hf.wired hheaderV hunsealed (Nat.succ_ne_self _).symm fun _ => ih
    have hh := (ha.steps.grows hf.wired.wf).isBlock hheaderV
    obtain ⟨d, hheader⟩ := ha.wired.exists_seals hh
    have hseal := sealStep ha.wired.wf hh hheader
    have hw := ha.wired.seals hh hs.endBlock_lt.ne' hseal
    have hentry := (hf.onFalse.of_confined ha.toConfined hf.wired.wf
      (Nat.succ_ne_self _)).of_confined (hseal.confined (fun _ => False) (fun _ => False))
      ha.wired.wf id
    obtain ⟨e, hexit⟩ := hw.exists_seals hentry.isBlock
    obtain ⟨hv, -, -⟩ := vacant_newBlocks hs.toWired "header" "body" "exit"
    have hj := ((((hs.newBlock "header").newBlock "body").newBlock "exit").part_jump
      hv.isBlock hv.unsealed).1
    exact ⟨_, _, .loop hs rfl hj hsite hc rfl hf hb hbody hp ha hheader hw hentry hexit⟩
  | ret value =>
    obtain ⟨n, t, he⟩ := value.exists_builds hs
    have ht := (he.answered hs).site hs
    obtain ⟨effect, c, hr⟩ := ht.exists_read .effect ht.current ht.reached
    exact ⟨_, _, .ret hs he hr⟩

end

end SsaCompiler
