import SsaCompiler.Proofs.Program.Evaluation

/-!
# The walk, seen from its last stage

What happens on the way of the walk over a statement depends on what is still to
come: operands are replaced, and blocks get their edges. `Stmt.Tours` is the walk
over a statement with all that is known of its parts from the last stage. The
values it uses are good there (`Stage.Values`), a block that is entered is
**fresh**, that is, nothing was done in it yet (`Stage.Begins`), and a block that
was ended gets no more divisions (`Stage.Ending.closed`). Every walk on the way to the
last stage is such a tour (`Stmt.Walks.tours`).

Between the expressions the walk is **idle**: it makes blocks, ends them and seals
them, but it makes no division and writes nothing (`Stage.Idle`). *That a block is
fresh is asked of the stage where the walk goes on in it*, so the head of a loop,
to which control comes many times, is no exception.
-/

namespace SsaCompiler

open List Builder
open Graph (startBlock endBlock)

variable {block : NodeId}

namespace Stage

variable {last s t u : Stage} {n block jump : NodeId} {own : NodeId → Prop} {c : Builder}

/-! ## What is still to come -/

/-- **A stage from which the walk goes on to the last one**: whatever may trap is
still made in blocks that are open. -/
structure Ahead (last s : Stage) : Prop extends Toward last last.plan s where
  traps : ∀ d, s.graph.size ≤ d → (last.graph.kind d).mayTrap = true → s.Open (last.graph.blockOf d)

theorem ahead_refl (h : last.Wired) : last.Ahead last :=
  { h.toward_plan with
    traps := fun d hd ht => by
      rw [kind_of_size_le _ hd] at ht
      cases ht }

theorem Grows.isOpen (hg : Grows s t) (h : t.Open block) : s.Open block := fun n hn => by
  have hlt := lt_of_isTerminator hn
  rw [← hg.blockOf n hlt]
  exact h n (hg.kind n hlt ▸ hn)

theorem Ahead.back (h : last.Ahead t) (hst : Tends own s t) (hwf : s.WellFormed)
    (hown : ∀ n, own n → s.Open n) : last.Ahead s := by
  refine { h.toToward.back hst.grows hwf with traps := fun d hd ht => ?_ }
  rcases Nat.lt_or_ge d t.graph.size with hlt | hle
  · rw [h.grows.kind d hlt] at ht
    rw [h.grows.blockOf d hlt]
    rcases hst.traps d hd ht with ho | hnew
    · exact hown _ ho
    · -- A block that is not there yet has not been ended.
      intro n hn he
      have hblock := hwf.home n (lt_of_isTerminator hn)
      exact absurd (lt_of_isBlock hblock) (Nat.not_lt.2 (he ▸ hnew))
  · exact hst.grows.isOpen (h.traps d hle ht)

theorem Ahead.quiet (h : last.Ahead t) (hst : Tends (fun _ => False) s t)
    (hwf : s.WellFormed) : last.Ahead s :=
  h.back hst hwf fun _ => False.elim

theorem Ahead.walks {body : Stmt} {flow : Flow} (h : last.Ahead t) (hw : body.Walks s flow t) :
    last.Ahead s :=
  h.back hw.tends hw.site.wf fun _ hn => hn ▸ hw.site.isOpen

/-- **A block that is ended** gets no more divisions, and nothing is written in it. -/
theorem Ahead.ended (h : last.Ahead u) (hu : u.Wired) (hj : (u.graph.kind jump).isTerminator) :
    last.graph.kind jump = u.graph.kind jump ∧ last.graph.blockOf jump = u.graph.blockOf jump ∧
      last.written (u.graph.blockOf jump) = u.written (u.graph.blockOf jump) ∧
      ∀ d, (last.graph.kind d).mayTrap → last.graph.blockOf d = u.graph.blockOf jump →
        d < u.graph.size := by
  have hlt := lt_of_isTerminator hj
  refine ⟨h.grows.kind jump hlt, h.grows.blockOf jump hlt, ?_, fun d htrap hd => ?_⟩
  · obtain ⟨target, ht⟩ : ∃ target, target ∈ (u.graph.kind jump).exits := by
      cases hk : u.graph.kind jump <;> rw [hk] at hj <;>
        first | exact ⟨_, .head _⟩ | cases hj
    have hblock := hu.targets jump hj target ht
    refine h.grows.written target hblock jump (count_pos_iff.1 ?_)
    rw [hu.edges target hblock jump hj]
    exact count_pos_iff.2 ht
  · by_contra hle
    exact h.traps d (not_lt.1 hle) htrap jump hj hd.symm

/-! ## Blocks to which nothing was done -/

/-- **A block in which nothing was done yet.** -/
structure Untouched (s : Stage) (block : NodeId) : Prop where
  lt : block < s.graph.size
  written : s.written block = fun _ => none
  calm : ∀ d, (s.graph.kind d).mayTrap = true → s.graph.blockOf d ≠ block

theorem Untouched.tends (h : s.Untouched block) (hst : Tends own s t) (hn : ¬ own block) :
    t.Untouched block where
  lt := h.lt.trans_le hst.grows.size_le
  written := (hst.written block h.lt hn).trans h.written
  calm := fun d ht he => by
    rcases Nat.lt_or_ge d s.graph.size with hlt | hle
    · rw [hst.grows.kind d hlt] at ht
      rw [hst.grows.blockOf d hlt] at he
      exact h.calm d ht he
    · rcases hst.traps d hle ht with ho | hnew
      · exact hn (he ▸ ho)
      · exact absurd h.lt (Nat.not_lt.2 (he ▸ hnew))

theorem untouched_newBlock (hwf : s.WellFormed)
    (hu : ∀ n, s.graph.size ≤ n → s.written n = fun _ => none) (role : String) :
    (s.newBlock role).Untouched s.graph.size where
  lt := by
    rw [size_newBlock]
    exact Nat.lt_succ_self _
  written := hu _ le_rfl
  calm := fun d ht he => by
    rcases Nat.lt_or_ge d s.graph.size with hlt | hle
    · have hh : (s.newBlock role).graph.blockOf d = s.graph.blockOf d :=
        (Graph.blockOf_newBlock s.graph role d).trans (if_neg hlt.ne)
      exact Nat.ne_of_lt (lt_of_isBlock (hwf.home d hlt)) (hh.symm.trans he)
    · obtain ⟨label, hk | hk⟩ := s.exists_kind_newBlock role hle <;> rw [hk] at ht <;> cases ht

/-! ## Idle parts -/

/-- **A part of the walk that makes no division and writes nothing.** -/
structure Inert (s t : Stage) : Prop extends Tends (fun _ => False) s t where
  calm : ∀ d, s.graph.size ≤ d → (t.graph.kind d).mayTrap = false
  unchanged : t.written = s.written

/-- **An idle part of the walk** makes no return either. -/
structure Idle (s t : Stage) : Prop extends Inert s t where
  goesOn : ∀ n, s.graph.size ≤ n → t.graph.kind n ≠ .ret

/-- A part of the walk is idle if all it makes are blocks, merges, values and jumps. -/
theorem Tends.idle (h : Tends (fun _ => False) s t) (hw : t.written = s.written)
    (hk : ∀ n, s.graph.size ≤ n → (t.graph.kind n).mayTrap = false ∧ t.graph.kind n ≠ .ret) :
    Idle s t :=
  { h with calm := fun n hn => (hk n hn).1, unchanged := hw, goesOn := fun n hn =>
    (hk n hn).2 }

theorem kind_of_evolves {old : Nat} (h : Builder.Evolves old s.toBuilder c)
    (hn : s.graph.size ≤ n) : (c.graph.kind n).mayTrap = false ∧ c.graph.kind n ≠ .ret := by
  rcases h.fresh n hn with hp | hu
  · exact ⟨Kind.mayTrap_eq_false_of_isPhi hp, fun he => by rw [he] at hp; cases hp⟩
  · rw [hu]
    exact ⟨rfl, nofun⟩

theorem kind_unmade (hn : s.graph.size ≤ n) :
    (s.graph.kind n).mayTrap = false ∧ s.graph.kind n ≠ .ret := by
  rw [kind_of_size_le _ hn]
  exact ⟨rfl, nofun⟩

theorem Idle.refl (s : Stage) : Idle s s := (Tends.refl _ s).idle rfl fun _ => kind_unmade

theorem Idle.trans (h : Idle s t) (h' : Idle t u) (hwf : s.WellFormed) : Idle s u := by
  refine (h.toTends.trans h'.toTends hwf fun _ => False.elim).idle
    (h'.unchanged.trans h.unchanged) fun n hn => ?_
  rcases Nat.lt_or_ge n t.graph.size with hlt | hle
  · rw [h'.grows.kind n hlt]
    exact ⟨h.calm n hn, h.goesOn n hn⟩
  · exact ⟨h'.calm n hle, h'.goesOn n hle⟩

theorem Untouched.idle (h : s.Untouched block) (hst : Idle s t) : t.Untouched block :=
  h.tends hst.toTends id

theorem idle_newBlock (s : Stage) (role : String) (hr : role ∈ bodyRoles) :
    Idle s (s.newBlock role) := by
  refine (tends_newBlock s role hr).idle rfl fun n hn => ?_
  obtain ⟨label, hk | hk⟩ := s.exists_kind_newBlock role hn <;> rw [hk] <;> exact ⟨rfl, nofun⟩

theorem idle_enter (s : Stage) (block : NodeId) : Idle s (s.enter block) :=
  (tends_enter s block).idle rfl fun _ => kind_unmade

section

variable (hs : s.Wired) (hblock : (s.graph.kind block).isBlock)
  (hseal : s.sealBlock block = .ok c)

include hs hblock hseal

theorem idle_seal : Idle s (s.on c) := by
  have hstep := sealStep hs.wf hblock hseal
  refine (hstep.tends hs.wf).idle hstep.written fun n hn => ?_
  obtain ⟨e, hev, -, hg, -⟩ := hstep.evolves
  rw [hg]
  exact kind_of_evolves hev hn

theorem idle_begin : Idle s ((s.on c).enter block) :=
  (idle_seal hs hblock hseal).trans (idle_enter _ block) hs.wf

end

theorem kind_leave (s : Stage) (kind : Kind) (operands : List NodeId) (n : NodeId) :
    (s.leave kind operands).graph.kind n = kind ∨
      (s.leave kind operands).graph.kind n = s.graph.kind n := by
  have hk : (s.leave kind operands).graph.kind n = _ := Builder.kind_leave _ _ _ _ n
  by_cases he : n = s.graph.size
  · exact .inl (hk.trans (if_pos he))
  · exact .inr (hk.trans (if_neg he))

theorem inert_leave {kind : Kind} {operands : List NodeId} (hk : kind.isTerminator)
    (ht : endBlock ∉ kind.targets) (hg : Grows s (s.leave kind operands)) :
    Inert s (s.leave kind operands) := by
  refine { tends_leave hk ht hg with calm := fun d hd => ?_, unchanged := rfl }
  rcases kind_leave s kind operands d with he | he <;> rw [he]
  · exact Kind.mayTrap_eq_false_of_isTerminator hk
  · exact (kind_unmade hd).1

theorem inert_fork {a b cond : NodeId} (h : t = s.leave (.condJump a b) [cond])
    (ha : endBlock < a) (hb : endBlock < b) (hg : Grows s t) : Inert s t := by
  subst h
  refine inert_leave rfl (fun hmem => ?_) hg
  rcases mem_pair.1 hmem with he | he
  · exact Nat.ne_of_lt ha he
  · exact Nat.ne_of_lt hb he

/-! ## The parts of a walk -/

/-- **The walk over an expression**, from a stage on the way. -/
structure Values (last : Stage) (e : Expr) (s : Stage) (n : NodeId) (t : Stage) : Prop where
  builds : e.Builds s n t
  before : last.Before s
  toward : Toward last last.plan t

/-- **The walk goes on in a block in which nothing was done yet.** -/
structure Begins (last s : Stage) (block : NodeId) : Prop where
  toward : Toward last last.plan s
  current : s.current = block
  untouched : s.Untouched block

/-- **The walk ends a block.** -/
structure Ending (last s : Stage) (kind : Kind) (operands : List NodeId) (t : Stage) : Prop where
  site : s.Site
  eq_leave : t = s.leave kind operands
  wired : t.Wired
  isTerminator : kind.isTerminator = true
  inert : Inert s t
  ahead : last.Ahead t

/-- **The walk ends a block by a jump on a condition.** -/
structure Forking (last s : Stage) (cond a b : NodeId) (t : Stage) : Prop
    extends last.Ending s (.condJump a b) [cond] t where
  onTrue : endBlock < a ∧ a < s.graph.size
  onFalse : endBlock < b ∧ b < s.graph.size
  dom : last.plan.Dom (last.plan.block cond) s.current

/-- **The walk ends a block by a jump.** -/
structure Leaving (last s : Stage) (target : NodeId) (t : Stage) : Prop
    extends last.Ending s (.jump target) [] t where
  notFinal : target ≠ endBlock

/-- **The walk leaves an arm**, unless the arm has returned. -/
inductive Passing (last : Stage) (s : Stage) (target : NodeId) : Flow → Stage → Prop
  | returns : Passing last s target .returns s
  | continues {t : Stage} (h : last.Leaving s target t) : Passing last s target .continues t

namespace Ending

variable {k : Kind} {ops : List NodeId} (h : last.Ending s k ops t)

include h

theorem current : t.current = s.current := by
  rw [h.eq_leave]
  exact current_leave

theorem lt : s.graph.size < t.graph.size := by
  rw [h.eq_leave]
  exact (Nat.lt_succ_self _).trans_eq (size_leave _ _ _ _).symm

theorem kind : t.graph.kind s.graph.size = k := by
  rw [h.eq_leave]
  exact (Builder.kind_leave _ _ _ _ _).trans (if_pos rfl)

theorem blockOf : t.graph.blockOf s.graph.size = s.current := by
  rw [h.eq_leave]
  exact (blockOf_leave _ _ _ _ _).trans (if_pos rfl)

theorem operands (he : ∀ target ∈ k.exits, target < s.graph.size) :
    t.graph.operands s.graph.size = ops := by
  rw [h.eq_leave]
  exact (operands_leave _ _ _ he _).trans (if_pos rfl)

theorem idle (hk : k ≠ .ret) : Idle s t := by
  refine h.inert.idle h.inert.unchanged fun n hn => ⟨h.inert.calm n hn, ?_⟩
  rw [h.eq_leave]
  rcases kind_leave s k ops n with he | he <;> rw [he]
  · exact hk
  · exact (kind_unmade hn).2

/-- **A block that is ended is closed**: it gets no more divisions, and nothing more
is written in it. -/
theorem closed : last.graph.kind s.graph.size = k ∧ last.graph.blockOf s.graph.size = s.current ∧
    last.written s.current = s.written s.current ∧
    ∀ d, (last.graph.kind d).mayTrap → last.graph.blockOf d = s.current → d < s.graph.size := by
  obtain ⟨hk, hblock, hw, ho⟩ := h.ahead.ended h.wired (h.kind ▸ h.isTerminator)
  rw [h.blockOf] at hblock hw ho
  refine ⟨hk.trans h.kind, hblock, hw.trans (congrFun h.inert.unchanged _), fun d ht hd => ?_⟩
  by_contra hle
  have hlt := ho d ht hd
  rw [h.ahead.grows.kind d hlt, h.inert.calm d (not_lt.1 hle)] at ht
  cases ht

end Ending

namespace Values

variable {e : Expr} (h : last.Values e s n t)

include h

theorem answered : Answered s n t := h.builds.answered h.before.site

theorem site : t.Site := h.answered.site h.before.site

theorem after : last.Before t ∧ last.Good t n :=
  h.before.answered h.answered (h.builds.keeps h.before.site) h.toward

end Values

end Stage

open Stage

/-! ## Tours -/

/-- **The walk over a statement**, with what is known of its parts from the last
stage. -/
inductive Stmt.Tours (last : Stage) : Stmt → Stage → Flow → Stage → Prop
  | skip {s : Stage} : Tours last .skip s .continues s
  | done {first rest : Stmt} {s t : Stage} (h : Tours last first s .returns t) :
      Tours last (.seq first rest) s .returns t
  | next {first rest : Stmt} {s t u : Stage} {flow : Flow} (h : Tours last first s .continues t)
      (hrest : Tours last rest t flow u) : Tours last (.seq first rest) s flow u
  | declare {s : Stage} {name : String} {ty : Ty} : Tours last (.declare name ty none) s .continues s
  | define {name : String} {ty : Ty} {e : Expr} {s t : Stage} {n : NodeId}
      (he : last.Values e s n t) :
      Tours last (.declare name ty (some e)) s .continues (t.put (.var name) t.current n)
  | assign {name : String} {e : Expr} {s t : Stage} {n : NodeId} (he : last.Values e s n t) :
      Tours last (.assign name none e) s .continues (t.put (.var name) t.current n)
  | update {name : String} {op : Operator} {e : Expr} {s t u : Stage} {lhs rhs n : NodeId}
      {c : Builder} (he : last.Values e s rhs t)
      (hread : t.toBuilder.read (.var name) t.current = .ok (lhs, c))
      (h : Operates (t.on c) lhs rhs op n u) (hu : Toward last last.plan u) :
      Tours last (.assign name (some op) e) s .continues (u.put (.var name) u.current n)
  | ifThen {condition : Expr} {body : Stmt} {s t m u v w x y : Stage} {cond a b : NodeId}
      {flow : Flow} (hcond : last.Values condition s cond t) (hblocks : Idle t m)
      (hfork : last.Forking m cond a b u) (hstill : m.current = t.current)
      (hthen : Idle u v) (hfresh : last.Begins v a) (hbody : Tours last body v flow w)
      (hpass : last.Passing w b flow x) (hmerge : Idle x y) (hlast : last.Begins y b) :
      Tours last (.ifThen condition body) s .continues y
  | ifElse {condition : Expr} {body otherwise : Stmt} {s t m u v w x v' w' x' y : Stage}
      {cond a b merge : NodeId} {flow flow' : Flow} (hcond : last.Values condition s cond t)
      (hblocks : Idle t m) (hfork : last.Forking m cond a b u) (hstill : m.current = t.current)
      (hthen : Idle u v) (hfresh : last.Begins v a) (hbody : Tours last body v flow w)
      (hpass : last.Passing w merge flow x) (helse : Idle x v') (hfresh' : last.Begins v' b)
      (hotherwise : Tours last otherwise v' flow' w') (hpass' : last.Passing w' merge flow' x')
      (hmerge : Idle x' y) (hlast : last.Begins y merge) :
      Tours last (.ifElse condition body otherwise) s (flow.join flow') y
  | loop {condition : Expr} {body : Stmt} {s m t h u v b w x y : Stage} {cond head arm exit : NodeId}
      {flow : Flow} (hs : s.Site) (hblocks : Idle s m) (hstill : m.current = s.current)
      (hjump : last.Leaving m head t) (henter : Idle t h) (hhead : last.Begins h head)
      (hcond : last.Values condition h cond u) (hfork : last.Forking u cond arm exit v)
      (harm : Idle v b) (hfresh : last.Begins b arm) (hbody : Tours last body b flow w)
      (hpass : last.Passing w head flow x) (hexit : Idle x y) (hlast : last.Begins y exit) :
      Tours last (.loop condition body) s .continues y
  | ret {value : Expr} {s t u : Stage} {n effect : NodeId} {c : Builder}
      (he : last.Values value s n t)
      (hread : t.toBuilder.read .effect t.current = .ok (effect, c))
      (hend : last.Ending (t.on c) .ret [effect, n] u) : Tours last (.ret value) s .returns u

/-- Every walk over a statement that is on the way to the last stage is a tour. -/
def Stmt.Toured (last : Stage) (body : Stmt) : Prop :=
  ∀ {s flow t}, body.Walks s flow t → last.Before s → last.Ahead t → body.Tours last s flow t

section

variable {last s t w x y : Stage} {flow : Flow} {body otherwise : Stmt} {condition : Expr}

theorem Stage.Passing.idle (h : last.Passing w block flow x) : Idle w x := by
  cases h with
  | returns => exact Idle.refl w
  | continues h => exact h.idle nofun

/-- **An arm on the way to the last stage** is begun and left idly, and touches no block
but its own. -/
theorem Stage.ahead_arm {own : NodeId} {c : Builder} (hs : s.Wired)
    (hown : (s.graph.kind own).isBlock) (hseal : s.sealBlock own = .ok c)
    (hb : body.Walks ((s.on c).enter own) flow w) (hne : block ≠ endBlock)
    (hpass : Steps w (w.passOn flow block)) (hwired : (w.passOn flow block).Wired)
    (ha : last.Ahead (w.passOn flow block)) :
    last.Passing w block flow (w.passOn flow block) ∧ last.Ahead w ∧
      Idle s ((s.on c).enter own) ∧ last.Ahead s ∧
      ∀ {n}, s.Untouched n → n ≠ own → (w.passOn flow block).Untouched n := by
  have hp : last.Passing w block flow (w.passOn flow block) := by
    cases flow with
    | returns => exact .returns
    | continues =>
      have hsite := hb.walked.toSite hb.site
      exact .continues ⟨⟨hsite, rfl, hwired, rfl, inert_leave rfl
        (fun he => hne (mem_singleton.1 he).symm) (hpass.grows hsite.wf), ha⟩, hne⟩
  have hw := ha.quiet hp.idle.toTends hb.walked.wired.wf
  have hi := idle_begin hs hown hseal
  exact ⟨hp, hw, hi, (hw.walks hb).quiet hi.toTends hs.wf,
    fun h hne => ((h.idle hi).tends hb.tends hne).idle hp.idle⟩

/-- Blocks that are made one after another are fresh. -/
theorem Stage.untouched_newBlocks (hs : s.Site)
    (hu : ∀ n, s.graph.size ≤ n → s.written n = fun _ => none) (one two : String)
    (hone : one ∈ bodyRoles) (htwo : two ∈ bodyRoles) :
    Idle s ((s.newBlock one).newBlock two) ∧
      ((s.newBlock one).newBlock two).Untouched s.graph.size ∧
      ((s.newBlock one).newBlock two).Untouched (s.graph.size + 1) := by
  have hi := idle_newBlock (s.newBlock one) two htwo
  have hu' := Steps.unwritten (.single (.newBlock one)) hs.wf hu
  have hsecond := untouched_newBlock (hs.newBlock one).wf hu' two
  rw [size_newBlock] at hsecond
  exact ⟨(idle_newBlock s one hone).trans hi hs.wf,
    (untouched_newBlock hs.wf hu one).idle hi, hsecond⟩

theorem Stage.untouched_threeBlocks (hs : s.Site)
    (hu : ∀ n, s.graph.size ≤ n → s.written n = fun _ => none) (one two three : String)
    (hone : one ∈ bodyRoles) (htwo : two ∈ bodyRoles) (hthree : three ∈ bodyRoles) :
    Idle s (((s.newBlock one).newBlock two).newBlock three) ∧
      (((s.newBlock one).newBlock two).newBlock three).Untouched s.graph.size ∧
      (((s.newBlock one).newBlock two).newBlock three).Untouched (s.graph.size + 1) ∧
      (((s.newBlock one).newBlock two).newBlock three).Untouched (s.graph.size + 2) := by
  obtain ⟨hb, hf, hsecond⟩ := untouched_newBlocks hs hu one two hone htwo
  have hi := idle_newBlock ((s.newBlock one).newBlock two) three hthree
  have hu' := Steps.unwritten (.tail (.single (.newBlock one)) (.newBlock two))
    hs.wf hu
  have ht := untouched_newBlock ((hs.newBlock one).newBlock two).wf hu' three
  rw [size_newBlock, size_newBlock] at ht
  exact ⟨hb.trans hi hs.wf, hf.idle hi, hsecond.idle hi, ht⟩

/-- **A branch without an alternative.** -/
theorem tours_ifThen (h : (Stmt.ifThen condition body).Walks s flow y) (hs : last.Before s)
    (ha : last.Ahead y) (ih : body.Toured last) :
    (Stmt.ifThen condition body).Tours last s flow y := by
  cases h with
  | @ifThen _ _ _ t u w cond c d flow _ hc hfork hf hthen hb hpass harm he hmerge =>
  have ht := (hc.answered hs.site).site hs.site
  have hm := (ht.newBlock "then").newBlock "merge"
  have hend := ht.endBlock_lt
  have hg := hf.steps.grows hm.wf
  -- What is ahead of the stages in between, from the last one back.
  have hi := idle_begin harm.wired he.isBlock hmerge
  have hx := ha.quiet hi.toTends harm.wired.wf
  obtain ⟨hp, hw, hidleArm, hu, hfresh⟩ := ahead_arm hf.wired hf.onTrue.isBlock hthen
    hb (Nat.lt_succ_of_lt hend).ne' hpass harm.wired hx
  have hfork' := inert_fork hfork hend (Nat.lt_succ_of_lt hend) hg
  have htt := (hu.toToward.back hg hm.wf).back
    ((idle_newBlock t "then" (by decide)).trans (idle_newBlock _ "merge" (by decide))
      ht.wf).grows ht.wf
  have hv : last.Values condition s cond t := ⟨hc, hs, htt⟩
  obtain ⟨hbt, hgood⟩ := hv.after
  obtain ⟨hblocks, hfreshThen, hfreshMerge⟩ :=
    untouched_newBlocks ht hbt.unwritten "then" "merge" (by decide) (by decide)
  have hfreshLast :=
    (hfresh (hfreshMerge.tends hfork'.toTends id) (Nat.succ_ne_self _)).idle hi
  have hforked : Acted 0 s u :=
    .single (.fork hs.site hc ["then", "merge"] (by decide) hfork hf)
  have hbefore := (hs.keeps (keeps_of_acted (hforked.trans (acted_begin hf.wired
    hf.onTrue.isBlock (Nat.zero_le _) hthen))) hb.site (hw.walks hb).toToward).1
  exact .ifThen hv hblocks
    ⟨⟨hm, hfork, hf.wired, rfl, hfork', hu⟩, ⟨hend, hfreshThen.lt⟩,
      ⟨Nat.lt_succ_of_lt hend, hfreshMerge.lt⟩, hgood.fits.dom⟩ rfl hidleArm
    ⟨(hw.walks hb).toToward, rfl, (hfreshThen.tends hfork'.toTends id).idle hidleArm⟩
    (ih hb hbefore hw) hp hi ⟨ha.toToward, rfl, hfreshLast⟩

/-- **A branch with an alternative.** -/
theorem tours_ifElse (h : (Stmt.ifElse condition body otherwise).Walks s flow y)
    (hs : last.Before s) (ha : last.Ahead y) (ih : body.Toured last)
    (ih' : otherwise.Toured last) :
    (Stmt.ifElse condition body otherwise).Tours last s flow y := by
  cases h with
  | @ifElse _ _ _ _ t u w x cond c d e flow flow' _ hc hfork hf hvacant hthen hb hp
      harm helse ho hp' harm' hl hmerge =>
  have ht := (hc.answered hs.site).site hs.site
  have hm := ((ht.newBlock "then").newBlock "else").newBlock "merge"
  have hend := ht.endBlock_lt
  have hne : t.graph.size + 2 ≠ endBlock := Nat.ne_of_gt (Nat.lt_add_right 2 hend)
  have hn : t.graph.size + 2 ≠ t.graph.size := Nat.ne_of_gt (Nat.lt_add_of_pos_right (by decide))
  have hg := hf.steps.grows hm.wf
  have he := (harm.steps.grows hf.wired.wf).isBlock hf.onFalse.isBlock
  -- What is ahead of the stages in between, from the last one back.
  have hi := idle_begin harm'.wired hl hmerge
  have hy := ha.quiet hi.toTends harm'.wired.wf
  obtain ⟨hpassing', hx, hidleArm', hz, hfresh'⟩ := ahead_arm harm.wired he helse ho
    hne hp' harm'.wired hy
  obtain ⟨hpassing, hw, hidleArm, hu, hfresh⟩ := ahead_arm hf.wired hf.onTrue.isBlock hthen
    hb hne hp harm.wired hz
  have hfork' := inert_fork hfork hend (Nat.lt_succ_of_lt hend) hg
  have hblocks := ((idle_newBlock t "then" (by decide)).trans (idle_newBlock _ "else" (by decide))
    ht.wf).trans (idle_newBlock _ "merge" (by decide)) ht.wf
  have htt := (hu.toToward.back hg hm.wf).back hblocks.grows ht.wf
  have hv : last.Values condition s cond t := ⟨hc, hs, htt⟩
  obtain ⟨hbt, hgood⟩ := hv.after
  obtain ⟨-, hfreshThen, hfreshElse, hfreshMerge⟩ := untouched_threeBlocks ht hbt.unwritten
    "then" "else" "merge" (by decide) (by decide) (by decide)
  have hf' :=
    (hfresh (hfreshElse.tends hfork'.toTends id) (Nat.succ_ne_self _)).idle hidleArm'
  have hfreshLast := (hfresh' (hfresh (hfreshMerge.tends hfork'.toTends id) hn)
    (Nat.succ_ne_self _)).idle hi
  have hforked : Acted 0 s u :=
    .single (.fork hs.site hc ["then", "else", "merge"] (by decide) hfork hf)
  have hbefore := (hs.keeps (keeps_of_acted (hforked.trans (acted_begin hf.wired
    hf.onTrue.isBlock (Nat.zero_le _) hthen))) hb.site (hw.walks hb).toToward).1
  have hbefore' := (hs.keeps (keeps_of_acted ((hforked.trans (acted_arm hf.wired
    hf.onTrue.isBlock (Nat.zero_le _) hthen hb hb.acted hp harm hvacant.isBlock hne)).trans
    (acted_begin harm.wired he (Nat.zero_le _) helse))) ho.site
    (hx.walks ho).toToward).1
  exact .ifElse hv hblocks
    ⟨⟨hm, hfork, hf.wired, rfl, hfork', hu⟩, ⟨hend, hfreshThen.lt⟩,
      ⟨Nat.lt_succ_of_lt hend, hfreshElse.lt⟩, hgood.fits.dom⟩ rfl hidleArm
    ⟨(hw.walks hb).toToward, rfl, (hfreshThen.tends hfork'.toTends id).idle hidleArm⟩
    (ih hb hbefore hw) hpassing hidleArm' ⟨(hx.walks ho).toToward, rfl, hf'⟩
    (ih' ho hbefore' hx) hpassing' hi ⟨ha.toToward, rfl, hfreshLast⟩

/-- **A loop.** -/
theorem tours_loop (h : (Stmt.loop condition body).Walks s flow y) (hs : last.Before s)
    (ha : last.Ahead y) (ih : body.Toured last) :
    (Stmt.loop condition body).Tours last s flow y := by
  cases h with
  | @loop _ _ _ t u v w cond c d e flow _ hh hl hsite hc hfork hf hblock hbody hpass
      harm hheader hwired hentry hexit =>
  have hvalue := hc.answered hsite
  have hu := hvalue.site hsite
  have ht := hl.wired
  have hm := ((hs.site.newBlock "header").newBlock "body").newBlock "exit"
  have hend := hs.site.endBlock_lt
  have hne : s.graph.size ≠ endBlock := Nat.ne_of_gt hend
  have hcurrent : u.current = s.graph.size := hvalue.current
  have hheaderBlock := (harm.steps.grows hf.wired.wf).isBlock
    ((hf.steps.grows hu.wf).isBlock (hcurrent ▸ hu.current))
  -- What is ahead of the stages in between, from the last one back.
  have hidleLast := (idle_seal harm.wired hheaderBlock hheader).trans
    (idle_begin hwired hentry.isBlock hexit) harm.wired.wf
  have hx := ha.quiet hidleLast.toTends harm.wired.wf
  obtain ⟨hp, hw, hidleArm, hv, hleft⟩ := ahead_arm hf.wired hf.onTrue.isBlock hblock
    hbody hne hpass harm.wired hx
  have hfork' := inert_fork hfork (Nat.lt_succ_of_lt hend) (Nat.lt_add_right 2 hend)
    (hf.steps.grows hu.wf)
  have hau := hv.quiet hfork'.toTends hu.wf
  have hhe := hau.back (hc.tends hsite) hsite.wf fun _ hn => hn ▸ hsite.isOpen
  have hi := idle_enter t s.graph.size
  have hat := hhe.quiet hi.toTends ht.wf
  have hj : Inert (((s.newBlock "header").newBlock "body").newBlock "exit") t := by
    have hg := hl.steps.grows hm.wf
    subst hh
    exact inert_leave rfl (fun he => Nat.ne_of_lt hend (mem_singleton.1 he)) hg
  obtain ⟨hblocks, hfreshHeader, hfreshBody, hfreshExit⟩ := untouched_threeBlocks hs.site
    hs.unwritten "header" "body" "exit" (by decide) (by decide) (by decide)
  have hfresh : ∀ {n}, (((s.newBlock "header").newBlock "body").newBlock "exit").Untouched n →
      n ≠ s.graph.size → v.Untouched n := fun h hne =>
    (((h.tends hj.toTends id).idle hi).tends (hc.tends hsite) hne).tends
      hfork'.toTends id
  have hneExit : s.graph.size + 2 ≠ s.graph.size := Nat.ne_of_gt (Nat.lt_add_of_pos_right (by decide))
  have hfreshLast := (hleft (hfresh hfreshExit hneExit) (Nat.succ_ne_self _)).idle hidleLast
  have hb := (hs.keeps (keeps_of_acted (acted_head hs.site (Nat.zero_le _) hh
    hl.steps hsite)) hsite hhe.toToward).1
  have hvalues : last.Values condition (t.enter s.graph.size) cond u :=
    ⟨hc, hb, hau.toToward⟩
  have hforked : Acted 0 (t.enter s.graph.size) v :=
    .single (.fork hsite hc [] (nil_subset _) hfork hf)
  have hbefore := (hb.keeps (keeps_of_acted (hforked.trans (acted_begin hf.wired
    hf.onTrue.isBlock (Nat.zero_le _) hblock))) hbody.site (hw.walks hbody).toToward).1
  have hlt : s.graph.size + 2 < u.graph.size :=
    Nat.lt_of_lt_of_le ((hfreshExit.tends hj.toTends id).idle hi).lt
      (hc.tends hsite).grows.size_le
  exact .loop hs.site hblocks rfl ⟨⟨hm, hh, ht, rfl, hj, hat⟩, hne⟩ hi
    ⟨hhe.toToward, rfl, (hfreshHeader.tends hj.toTends id).idle hi⟩ hvalues
    ⟨⟨hu, hfork, hf.wired, rfl, hfork', hv⟩, ⟨Nat.lt_succ_of_lt hend, Nat.lt_of_succ_lt hlt⟩,
      ⟨Nat.lt_add_right 2 hend, hlt⟩, hvalues.after.2.fits.dom⟩ hidleArm
    ⟨(hw.walks hbody).toToward, rfl, (hfresh hfreshBody (Nat.succ_ne_self _)).idle hidleArm⟩
    (ih hbody hbefore hw) hp hidleLast ⟨ha.toToward, rfl, hfreshLast⟩

/-- **Every walk on the way to the last stage is a tour.** -/
theorem Stmt.Walks.tours (h : body.Walks s flow t) (hs : last.Before s) (hahead : last.Ahead t) :
    body.Tours last s flow t := by
  induction body generalizing s flow t with
  | skip =>
    cases h
    exact .skip
  | seq _ _ ih ih' =>
    cases h with
    | done h => exact .done (ih h hs hahead)
    | next h hrest =>
      have ht := hahead.walks hrest
      exact .next (ih h hs ht) (ih' hrest (hs.keeps h.keeps hrest.site ht.toToward).1 hahead)
  | declare =>
    cases h with
    | declare => exact .declare
    | define _ he =>
      have ht := (he.answered hs.site).site hs.site
      exact .define ⟨he, hs, hahead.toToward.back (grows_put ht.wf _ _ ht.isOpen) ht.wf⟩
  | assign =>
    cases h with
    | assign _ he =>
      have ht := (he.answered hs.site).site hs.site
      exact .assign ⟨he, hs, hahead.toToward.back (grows_put ht.wf _ _ ht.isOpen) ht.wf⟩
    | update _ he hread h =>
      have hv := he.answered hs.site
      have ht := hv.site hs.site
      have ho := answered_read ht.toWired hread
      have hc := ho.site ht
      have hn := h.answered hc ho.answer (ho.usable _ hv.answer)
      have hu := hn.site hc
      have htu := hahead.toToward.back (grows_put hu.wf _ _ hu.isOpen) hu.wf
      exact .update ⟨he, hs, ho.toward ht.toWired (hn.toward hc.toWired htu)⟩ hread h htu
  | ifThen _ _ ih => exact tours_ifThen h hs hahead ih
  | ifElse _ _ _ ih ih' => exact tours_ifElse h hs hahead ih ih'
  | loop _ _ ih => exact tours_loop h hs hahead ih
  | ret =>
    cases h with
    | @ret _ _ t n effect c _ he hread =>
      have hv := he.answered hs.site
      have ht := hv.site hs.site
      have hr := answered_read ht.toWired hread
      have hc := hr.site ht
      have hstep : Step (t.on c) ((t.on c).leave .ret [effect, n]) := step_leave hc.toWired rfl
        (fun a ha => (usable_pair hr.answer (hr.usable _ hv.answer) a ha).lt) fun target hm =>
          mem_singleton.1 hm ▸ ⟨hc.final, hc.finalOpen⟩
      have hg := hstep.grows hc.wf
      exact .ret ⟨he, hs, hr.toward ht.toWired (hahead.toToward.back hg hc.wf)⟩ hread
        ⟨hc, rfl, (walked_ret hv hs.site hread).wired, rfl, inert_leave rfl not_mem_nil hg, hahead⟩

end

/-! ## Functions -/

namespace Translated

variable {f : Function} {s : Stage} {flow : Flow} {r : FunctionGraph}

theorem finished (h : Translated f s flow r) : s.Finished :=
  ⟨h.wired, h.right, fun _ hblock hne => h.isSealed hblock hne, fun _ hn => h.blockOf_terminator hn⟩

theorem before_first (h : Translated f s flow r) : s.Before (first f.name true) := by
  have hwf := (site_first f.name true).wf
  have ht := h.wired.toward_plan.back h.walks.tends.grows hwf
  refine ⟨site_first f.name true, right_first (ht.agrees hwf), ht, fun n hn => ?_⟩
  funext slot
  exact if_neg fun he => Nat.ne_of_gt ((by decide : startBlock < 4).trans_le hn) he.1

theorem tours (h : Translated f s flow r) : f.body.Tours s (first f.name true) flow s :=
  h.walks.tours h.before_first (ahead_refl h.wired)

end Translated

end SsaCompiler
