import SsaCompiler.Proofs.Graph.Label
import SsaCompiler.Proofs.Program.Walk

/-!
# What the walk leaves alone

A part of the walk **tends** some blocks if it writes only in these and in new
ones, and makes operations that may trap nowhere else (`Stage.Tends`). The walk
over a statement tends the block it starts in. It gives every block it makes a
label of its own, so the labels of a function are told apart by the roles of its
blocks.
-/

namespace SsaCompiler

open List Builder Stage Kind
open Graph (startBlock endBlock)

variable {c : Builder} {own : NodeId → Prop} {block : NodeId}

theorem Kind.targets_eq_nil {k : Kind} (h : k.isTerminator = false) : k.targets = [] := by
  cases k <;> first | rfl | cases h

namespace Stage

variable {s t u : Stage} {own own' : NodeId → Prop} {kind : Kind} {block n : NodeId}
  {operands : List NodeId} {slot : Slot} {role : String}

/-- **A part of a construction tends some blocks**: of the blocks that were there
before, it writes only in these and makes operations that may trap only in
these. Its jumps do not go to the end block, and blocks keep labels of their
own. -/
structure Tends (own : NodeId → Prop) (s t : Stage) : Prop where
  grows : Grows s t
  written : ∀ n < s.graph.size, ¬ own n → t.written n = s.written n
  traps : ∀ m, s.graph.size ≤ m → (t.graph.kind m).mayTrap = true →
    own (t.graph.blockOf m) ∨ s.graph.size ≤ t.graph.blockOf m
  targets : ∀ m, s.graph.size ≤ m → endBlock ∉ t.graph.targets m
  labelled : (∃ names, s.graph.Labelled names) → ∃ names, t.graph.Labelled names

theorem Tends.trans (h : Tends own s t) (h' : Tends own' t u) (hwf : s.WellFormed)
    (hown : ∀ n, own' n → own n ∨ s.graph.size ≤ n) : Tends own s u where
  grows := h.grows.trans h'.grows hwf
  written := fun n hn hnot => by
    refine (h'.written n (hn.trans_le h.grows.size_le) fun ho => ?_).trans
      (h.written n hn hnot)
    exact (hown n ho).elim hnot (Nat.not_le_of_lt hn)
  traps := fun m hm ht => by
    by_cases hlt : m < t.graph.size
    · rw [h'.grows.kind m hlt] at ht
      rw [h'.grows.blockOf m hlt]
      exact h.traps m hm ht
    · rcases h'.traps m (not_lt.1 hlt) ht with ho | hle
      · exact hown _ ho
      · exact .inr (h.grows.size_le.trans hle)
  targets := fun m hm => by
    by_cases hlt : m < t.graph.size
    · unfold Graph.targets
      rw [h'.grows.kind m hlt]
      exact h.targets m hm
    · exact h'.targets m (not_lt.1 hlt)
  labelled := fun hs => h'.labelled (h.labelled hs)

theorem Tends.mono (h : Tends own s t) (hown : ∀ n, own n → own' n) : Tends own' s t where
  grows := h.grows
  written := fun n hn hnot => h.written n hn fun ho => hnot (hown n ho)
  traps := fun m hm ht => (h.traps m hm ht).imp_left (hown _)
  targets := h.targets
  labelled := h.labelled

theorem endBlock_not_mem_targets {g : Graph} {m : NodeId} (h : (g.kind m).isTerminator = false) :
    endBlock ∉ g.targets m := by
  rw [Graph.targets, targets_eq_nil h]
  exact not_mem_nil

theorem Tends.refl (own : NodeId → Prop) (s : Stage) : Tends own s s where
  grows := .refl s
  written := fun _ _ _ => rfl
  traps := fun m hm ht => by
    rw [kind_of_size_le _ hm] at ht
    cases ht
  targets := fun m hm => endBlock_not_mem_targets (by rw [kind_of_size_le _ hm]; rfl)
  labelled := id

/-! ## Single steps -/

theorem tends_of_evolves {old : Nat} (h : Builder.Evolves old s.toBuilder c) :
    Tends (fun _ => False) s (s.on c) where
  grows := grows_of_evolves h
  written := fun _ _ _ => rfl
  traps := fun m hm ht => by
    have ht : (c.graph.kind m).mayTrap = true := ht
    rcases h.fresh m hm with hphi | hu
    · cases (mayTrap_eq_false_of_isPhi hphi).symm.trans ht
    · rw [hu] at ht
      cases ht
  targets := fun m hm => endBlock_not_mem_targets (isTerminator_of_evolves h hm)
  labelled := fun ⟨names, hn⟩ => ⟨names, hn.mono h.name h.roles fun n hb => by
    by_cases hlt : n < s.graph.size
    · exact h.kind n hlt
    · exact absurd ((not_isBlock_of_evolves h (not_lt.1 hlt)).symm.trans hb) nofun⟩

theorem SealStep.tends (h : SealStep block s t) (hwf : s.WellFormed) :
    Tends (fun _ => False) s t := by
  obtain ⟨c, hev, -, hg, -⟩ := h.evolves
  have hc := tends_of_evolves hev
  refine ⟨h.step.grows hwf, fun n _ _ => congrFun h.written n, fun m hm ht => ?_,
    fun m hm => endBlock_not_mem_targets (h.isTerminator hm), fun hs => ?_⟩
  · rw [hg] at ht ⊢
    exact hc.traps m hm ht
  · rw [hg]
    exact hc.labelled hs

theorem tends_of_adds {d : Draft} (ha : s.toDraft.Adds kind block d)
    (hnot : kind.isBlock = false) (hterm : kind.isTerminator = false) :
    Tends (fun n => kind.mayTrap ∧ n = block) s
      (s.on { s.toBuilder with toDraft := d }) where
  grows := grows_of_adds ha.appends
  written := fun _ _ _ => rfl
  traps := fun m hm ht => by
    have ht : (d.graph.kind m).mayTrap = true := ht
    show (_ ∧ d.graph.blockOf m = _) ∨ _ ≤ d.graph.blockOf m
    rw [ha.kind] at ht
    rw [ha.blockOf]
    by_cases he : m = s.graph.size
    · rw [if_pos he] at ht ⊢
      exact .inl ⟨ht, rfl⟩
    · rw [if_neg he, kind_of_size_le s.graph hm] at ht
      cases ht
  targets := fun m hm => endBlock_not_mem_targets (by
    rcases kind_of_appends ha.appends hm with hk | hk
    · exact (congrArg Kind.isTerminator hk).trans hterm
    · exact congrArg Kind.isTerminator hk)
  labelled := fun ⟨names, hn⟩ => ⟨names, hn.mono ha.name ha.roles fun n hb => by
    have hb : (d.graph.kind n).isBlock = true := hb
    show d.graph.kind n = _
    rw [ha.kind] at hb ⊢
    by_cases he : n = s.graph.size
    · rw [if_pos he, hnot] at hb
      cases hb
    · rw [if_neg he]⟩

theorem tends_make (kind : Kind) (block : NodeId) (operands : List NodeId)
    (hnot : kind.isBlock = false) (ht : kind.isTerminator = false) :
    Tends (fun n => kind.mayTrap ∧ n = block) s (s.make kind block operands).2 :=
  tends_of_adds (s.add_spec kind block operands).1 hnot ht

theorem tends_place (kind : Kind) (block : NodeId) (operands : List NodeId)
    (hnot : kind.isBlock = false) (ht : kind.isTerminator = false) :
    Tends (fun n => kind.mayTrap ∧ n = block) s
      (s.on (s.toBuilder.place kind block operands).2) :=
  tends_of_adds (s.adds_addNode kind block operands) hnot ht

theorem tends_put (slot : Slot) (hwf : s.WellFormed) (ho : s.Open block) :
    Tends (· = block) s (s.put slot block n) where
  grows := grows_put hwf slot n ho
  written := fun _ _ hne => funext fun _ => if_neg fun h => hne h.1
  traps := (Tends.refl (· = block) s).traps
  targets := (Tends.refl (· = block) s).targets
  labelled := id

theorem tends_enter (s : Stage) (block : NodeId) : Tends (fun _ => False) s (s.enter block) where
  grows := { Grows.refl s with }
  written := fun _ _ _ => rfl
  traps := (Tends.refl (fun _ => False) s).traps
  targets := (Tends.refl (fun _ => False) s).targets
  labelled := id

theorem tends_newBlock (s : Stage) (role : String) (hr : role ∈ bodyRoles) :
    Tends (fun _ => False) s (s.newBlock role) where
  grows := grows_newBlock s role
  written := fun _ _ _ => rfl
  traps := fun m hm ht => by
    obtain ⟨label, hk | hk⟩ := s.exists_kind_newBlock role hm <;> rw [hk] at ht <;> cases ht
  targets := fun m hm => endBlock_not_mem_targets (by
    rw [isTerminator_newBlock, kind_of_size_le _ hm]
    rfl)
  labelled := fun ⟨_, hn⟩ => ⟨_, hn.newBlock hr⟩

theorem tends_leave (hk : kind.isTerminator) (htargets : endBlock ∉ kind.targets)
    (hg : Grows s (s.leave kind operands)) :
    Tends (fun _ => False) s (s.leave kind operands) where
  grows := hg
  written := fun _ _ _ => rfl
  traps := fun m hm ht => by
    have ht : ((s.toBuilder.leave kind s.current operands).graph.kind m).mayTrap = true := ht
    rw [kind_leave] at ht
    split at ht
    · rw [mayTrap_eq_false_of_isTerminator hk] at ht
      cases ht
    · rw [kind_of_size_le _ hm] at ht
      cases ht
  targets := fun m hm => by
    show endBlock ∉ ((s.toBuilder.leave kind s.current operands).graph.kind m).targets
    rw [kind_leave]
    split
    · exact htargets
    · rw [kind_of_size_le _ hm]
      exact not_mem_nil
  labelled := fun ⟨names, hn⟩ => by
    have hsame := s.sameNodes_leave kind s.current operands
    have ha := s.adds_addNode kind s.current operands
    refine ⟨names, hn.mono (hsame.name.trans ha.name) (hsame.roles.trans ha.roles) fun n hb => ?_⟩
    have hb : ((s.toBuilder.leave kind s.current operands).graph.kind n).isBlock = true := hb
    show (s.toBuilder.leave kind s.current operands).graph.kind n = _
    rw [kind_leave] at hb ⊢
    by_cases he : n = s.graph.size
    · rw [if_pos he, isBlock_eq_false_of_isTerminator hk] at hb
      cases hb
    · rw [if_neg he]

theorem tends_fork {a b cond : NodeId} (h : t = s.leave (.condJump a b) [cond])
    (hf : Forks a b s t) (hwf : s.WellFormed) : Tends (fun _ => False) s t := by
  have hg := hf.steps.grows hwf
  subst h
  refine tends_leave rfl (fun hmem => ?_) hg
  rcases mem_pair.1 hmem with he | he
  · exact hf.onTrue.notFinal he.symm
  · exact hf.onFalse.notFinal he.symm

/-! ## Expressions -/

theorem tends_read {value : NodeId} (hs : s.Wired)
    (h : s.read slot s.current = .ok (value, c)) : Tends (· = s.current) s (s.on c) :=
  (tends_of_evolves (tidy_read hs.wf hs.current h).evolves).mono
    fun _ => False.elim

theorem tends_trapping {op : BinOp} {lhs rhs effect : NodeId} (hs : s.Site)
    (hops : ∀ a ∈ [lhs, rhs, effect], a < s.graph.size) :
    Tends (· = s.current) s (s.trapping op lhs rhs effect) := by
  obtain ⟨one, two, hone, ht, hr, -, -, hstep, hstep', -, -⟩ :=
    exists_steps_trapping op hs.current hs.isOpen hops
  have hwf := hs.wf
  have hw := hstep.wf hwf
  have hwfTwo := hstep'.wf hw
  have ho : one.Open s.current := hone ▸ open_place hs.isOpen rfl
  have hopen : two.Open s.current := ht ▸ open_place ho rfl
  have hf : Tends (· = s.current) s one := by
    rw [hone]
    exact (tends_place _ _ _ rfl rfl).mono fun _ => And.right
  have hsecond : Tends (· = s.current) one two := by
    rw [ht]
    exact (tends_place _ _ _ rfl rfl).mono fun _ => And.right
  have hput : Tends (· = s.current) two (two.put .effect s.current (s.graph.size + 1)) :=
    tends_put .effect hwfTwo hopen
  have hl : Tends (· = s.current) (two.put .effect s.current (s.graph.size + 1))
      (s.trapping op lhs rhs effect) := by
    rw [hr]
    exact (tends_place _ _ _ rfl rfl).mono fun _ => And.right
  exact ((hf.trans hsecond hwf fun _ => .inl).trans hput hwf fun _ => .inl).trans hl hwf
    fun _ => .inl

end Stage

open Stage

section

variable {s t u : Stage} {lhs rhs n : NodeId} {op : Operator} {e : Expr} {flow : Flow}
  {body : Stmt}

theorem Stage.tends_constant (s : Stage) (kind : Kind) (hk : kind.isPlain)
    (ht : kind.mayTrap = false) : Tends (· = s.current) s (s.constant kind).2 :=
  (tends_make kind _ _ (isPlain_iff.1 hk).1 (isPlain_iff.1 hk).2.2).mono fun _ h =>
    absurd (ht.symm.trans h.1) nofun

theorem Stage.tends_compute {kind : Kind} {operands : List NodeId} (hk : kind.isPlain) :
    Tends (· = s.current) s (s.compute kind operands).2 :=
  (tends_make kind _ _ (isPlain_iff.1 hk).1 (isPlain_iff.1 hk).2.2).mono fun _ => And.right

theorem Stage.Tends.then (h : Tends (· = s.current) s t) (h' : Tends (· = t.current) t u)
    (hs : s.Wired) (hc : t.current = s.current) : Tends (· = s.current) s u :=
  h.trans h' hs.wf fun _ hn => .inl (hn.trans hc)

theorem Stage.Does.tends {he : List NodeId} (h : s.Does he n t) (hs : s.Site)
    (hh : ∀ a ∈ he, s.Usable a) : Tends (· = s.current) s t := by
  cases h with
  | constant h hk _ hc =>
    have ht := tends_constant s _ (isPlain_of_isShareable hk)
      (Bool.eq_false_iff.2 fun h => Bool.eq_false_iff.1 hc (isComputation_of_mayTrap h))
    rwa [h] at ht
  | read h => exact tends_read hs.toWired h
  | compute hk => exact tends_compute (isPlain_of_isShareable hk)
  | traps _ hl hr hread =>
    have hstay := answered_read hs.toWired hread
    exact (tends_read hs.toWired hread).then (tends_trapping (hstay.site hs) fun a ha =>
      (usable_triple (hstay.usable _ (hh _ hl)) (hstay.usable _ (hh _ hr)) hstay.answer
        a ha).lt) hs.toWired hstay.current

theorem Stage.Works.tends {he more : List NodeId} (h : s.Works he more t) (hs : s.Site)
    (hh : ∀ a ∈ he, s.Usable a) : Tends (· = s.current) s t := by
  induction h with
  | refl => exact .refl _ _
  | step hw hd ih =>
    obtain ⟨hstays, hu⟩ := hw.stays hs hh
    exact ih.then (hd.tends (hstays.site hs) hu) hs.toWired hstays.current

/-- The walk over an expression tends the current block. -/
theorem Expr.Builds.tends (h : e.Builds s n t) (hs : s.Site) : Tends (· = s.current) s t :=
  have ⟨_, hw⟩ := h.works []
  hw.tends hs fun _ ha => absurd ha not_mem_nil

/-! ## Statements, deed by deed -/

/-- **One deed of the walk over a statement.** It enters only blocks that are new. -/
inductive Stage.Acts (old : Nat) (s : Stage) : Stage → Prop
  | put {name : String} {n : NodeId} {more : List NodeId} {t : Stage} (hs : s.Site)
      (h : s.Works [] (n :: more) t) : Acts old s (t.put (.var name) t.current n)
  | newBlock {role : String} (hrole : role ∈ bodyRoles) : Acts old s (s.newBlock role)
  | fork {e : Expr} {cond a b : NodeId} {t u : Stage} (hs : s.Site) (he : e.Builds s cond t)
      (roles : List String) (hroles : roles ⊆ bodyRoles)
      (hfork : u = (roles.foldl Stage.newBlock t).leave (.condJump a b) [cond])
      (hforks : Forks a b (roles.foldl Stage.newBlock t) u) : Acts old s u
  | jump {target : NodeId} (hs : s.toBuilder.WellFormed)
      (hsteps : Steps s (s.leave (.jump target) []))
      (hblock : ((s.leave (.jump target) []).graph.kind target).isBlock = true)
      (hne : target ≠ endBlock) : Acts old s (s.leave (.jump target) [])
  | seals {block : NodeId} {c : Builder} (hs : s.Wired)
      (hblock : (s.graph.kind block).isBlock = true)
      (h : s.toBuilder.sealBlock block = .ok c) : Acts old s (s.on c)
  | enter {block : NodeId} (hblock : (s.graph.kind block).isBlock = true) (hle : old ≤ block) :
      Acts old s (s.enter block)
  | ret {value : Expr} {n effect : NodeId} {t : Stage} {c : Builder} (hs : s.Site)
      (he : value.Builds s n t) (hread : t.toBuilder.read .effect t.current = .ok (effect, c)) :
      Acts old s ((t.on c).leave .ret [effect, n])

/-- **Deeds one after the other.** -/
abbrev Stage.Acted (old : Nat) : Stage → Stage → Prop :=
  Relation.ReflTransGen (Acts old)

variable {old : Nat} {target : NodeId} {condition : Expr}

section

variable (hs : s.Wired) (hblock : (s.graph.kind block).isBlock) (hle : old ≤ block)
  (hseal : s.toBuilder.sealBlock block = .ok c)

include hs hblock hle hseal

theorem Stage.acted_begin : Acted old s ((s.on c).enter block) :=
  .tail (.single (.seals hs hblock hseal))
    (.enter (((sealStep hs.wf hblock hseal).isBlock_eq block).trans hblock) hle)

/-- **An arm**: its block is sealed and entered, its body is walked, and it is
left. -/
theorem Stage.acted_arm (hb : body.Walks ((s.on c).enter block) flow t)
    (ih : old ≤ ((s.on c).enter block).graph.size → Acted old ((s.on c).enter block) t)
    (hp : Steps t (t.passOn flow target))
    (harm : Arm block target flow s (t.passOn flow target))
    (ht : (s.graph.kind target).isBlock) (hne : target ≠ endBlock) :
    Acted old s (t.passOn flow target) := by
  have hsize := lt_of_isBlock
    (((sealStep hs.wf hblock hseal).isBlock_eq block).trans hblock)
  have hw : Acted old s t :=
    (acted_begin hs hblock hle hseal).trans (ih (hle.trans hsize.le))
  have ht' := (harm.steps.grows hs.wf).isBlock ht
  cases flow with
  | continues => exact hw.tail (.jump hb.walked.wired.wf hp ht' hne)
  | returns => exact hw

end

/-- **The head of a loop** is entered. -/
theorem Stage.acted_head (hs : s.Site) (hold : old ≤ s.graph.size)
    (hh : t = (((s.newBlock "header").newBlock "body").newBlock "exit").leave
      (.jump s.graph.size) [])
    (hsteps : Steps (((s.newBlock "header").newBlock "body").newBlock "exit") t)
    (hsite : (t.enter s.graph.size).Site) : Acted old s (t.enter s.graph.size) := by
  have hblock := hsite.current
  have hm := ((hs.newBlock "header").newBlock "body").newBlock "exit"
  subst hh
  have hb : Acted old s (((s.newBlock "header").newBlock "body").newBlock "exit") :=
    ((Relation.ReflTransGen.single (.newBlock (by decide))).tail (.newBlock (by decide))).tail
      (.newBlock (by decide))
  exact (hb.tail (.jump hm.wf hsteps hblock hs.endBlock_lt.ne')).tail
    (.enter hblock hold)

/-- **The walk over a statement is made of deeds.** -/
theorem Stmt.Walks.acted (h : body.Walks s flow t) (hold : old ≤ s.graph.size) :
    Acted old s t := by
  induction h with
  | skip | declare => exact .refl
  | done _ ih => exact ih hold
  | next h _ ih ih' =>
    exact (ih hold).trans (ih' (Nat.le_trans hold (h.walked.steps.grows h.site.wf).size_le))
  | define hs he | assign hs he =>
    obtain ⟨_, hw⟩ := he.works []
    exact .single (.put hs hw)
  | update hs he hr h =>
    obtain ⟨_, hw⟩ := he.works []
    obtain ⟨_, hj⟩ := h.works _ (.head _) (.tail _ (.head _))
    exact .single (.put hs ((hw.step (.read hr)).trans hj))
  | ifThen hs hc hfork hf ht hb hp ha hentry hm ih =>
    have hle := hold.trans (hc.tends hs).grows.size_le
    have hforked : Acted old _ _ :=
      .single (.fork hs hc ["then", "merge"] (by decide) hfork hf)
    exact (hforked.trans (acted_arm hf.wired hf.onTrue.isBlock hle ht hb ih hp ha
      hf.onFalse.isBlock hf.onFalse.notFinal)).trans
      (acted_begin ha.wired hentry.isBlock (Nat.le_succ_of_le hle) hm)
  | ifElse hs hc hfork hf hv ht hb hp ha helse ho hp' ha' hlast
      hm ih ih' =>
    have hle := hold.trans (hc.tends hs).grows.size_le
    have hg := ha.steps.grows hf.wired.wf
    have hforked : Acted old _ _ :=
      .single (.fork hs hc ["then", "else", "merge"] (by decide) hfork hf)
    have hfirst := hforked.trans (acted_arm hf.wired hf.onTrue.isBlock hle ht hb ih
      hp ha hv.isBlock hv.notFinal)
    exact (hfirst.trans (acted_arm ha.wired (hg.isBlock hf.onFalse.isBlock)
      (Nat.le_succ_of_le hle) helse ho ih' hp' ha' (hg.isBlock hv.isBlock)
      hv.notFinal)).trans (acted_begin ha'.wired hlast (Nat.le_add_right_of_le hle) hm)
  | @loop _ _ s _ u _ _ _ _ _ _ _ hs hhead hjump hsite hc hfork hf hblock hb hp ha
      hheader hwired hentry hexit ih =>
    have hvalue := hc.answered hsite
    have hu := hvalue.site hsite
    have hcurrent : u.current = s.graph.size := hvalue.current
    have hh := (hf.steps.grows hu.wf).isBlock (hcurrent ▸ hu.current)
    have hforked := (acted_head hs hold hhead hjump.steps hsite).tail
      (.fork hsite hc [] (nil_subset _) hfork hf)
    have hl := hforked.trans (acted_arm hf.wired hf.onTrue.isBlock
      (Nat.le_succ_of_le hold) hblock hb ih hp ha hh hs.endBlock_lt.ne')
    exact (hl.tail (.seals ha.wired ((ha.steps.grows hf.wired.wf).isBlock
      hh) hheader)).trans (acted_begin hwired hentry.isBlock (Nat.le_add_right_of_le hold) hexit)
  | ret hs he hr => exact .single (.ret hs he hr)

theorem Stage.Tends.quiet (h : Tends own s t) (h' : Tends (fun _ => False) t u) (hs : s.Site) :
    Tends own s u :=
  h.trans h' hs.wf fun _ => False.elim

theorem Stage.Site.newBlocks (hs : s.Site) (roles : List String) :
    (roles.foldl Stage.newBlock s).Site ∧ (roles.foldl Stage.newBlock s).current = s.current := by
  induction roles generalizing s with
  | nil => exact ⟨hs, rfl⟩
  | cons role _ ih => exact ih (hs.newBlock role)

theorem Stage.tends_newBlocks {roles : List String} (hs : s.Site) (hr : roles ⊆ bodyRoles) :
    Tends (fun _ => False) s (roles.foldl newBlock s) := by
  induction roles generalizing s with
  | nil => exact .refl _ s
  | cons role roles ih =>
    exact (tends_newBlock s role (hr (.head _))).quiet
      (ih (hs.newBlock role) fun _ h => hr (.tail _ h)) hs

/-- **A deed tends the current block**, and the walk goes on there or in a new block. -/
theorem Stage.Acts.tends (h : s.Acts old t) :
    Tends (· = s.current) s t ∧ (t.current = s.current ∨ old ≤ t.current) := by
  cases h with
  | put hs h =>
    have hstays := (h.stays hs fun _ ha => absurd ha not_mem_nil).1
    have ht := hstays.site hs
    exact ⟨(h.tends hs fun _ ha => absurd ha not_mem_nil).then
      (tends_put _ ht.wf ht.isOpen) hs.toWired hstays.current, .inl hstays.current⟩
  | newBlock hrole => exact ⟨(tends_newBlock s _ hrole).mono fun _ => False.elim, .inl rfl⟩
  | fork hs he roles hroles hf hforks =>
    have hv := he.answered hs
    have ht := hv.site hs
    obtain ⟨hmade, hcurrent⟩ := ht.newBlocks roles
    refine ⟨((he.tends hs).quiet (tends_newBlocks ht hroles) hs).quiet
      (tends_fork hf hforks hmade.wf) hs, .inl ?_⟩
    rw [hf, current_leave, hcurrent]
    exact hv.current
  | jump hs hsteps _ hne =>
    exact ⟨(tends_leave rfl (fun he => hne (mem_singleton.1 he).symm)
      (hsteps.grows hs)).mono fun _ => False.elim, .inl rfl⟩
  | seals hs hblock h =>
    have hseal := sealStep hs.wf hblock h
    exact ⟨(hseal.tends hs.wf).mono fun _ => False.elim, .inl hseal.current⟩
  | enter _ hle => exact ⟨(tends_enter s _).mono fun _ => False.elim, .inr hle⟩
  | ret hs he hread =>
    have hv := he.answered hs
    have ht := hv.site hs
    have hr := answered_read ht.toWired hread
    have hc := hr.site ht
    have hread' := (he.tends hs).then (tends_read ht.toWired hread) hs.toWired hv.current
    refine ⟨hread'.quiet (tends_leave rfl not_mem_nil ?_) hs, .inl (hr.current.trans hv.current)⟩
    exact (Step.grows (step_leave hc.toWired rfl
      (fun a ha => (usable_pair hr.answer (hr.usable _ hv.answer) a ha).lt) fun target hm =>
        mem_singleton.1 hm ▸ ⟨hc.final, hc.finalOpen⟩) hc.wf)

/-- **The walk over a statement tends the block it starts in.** -/
theorem Stmt.Walks.tends (h : body.Walks s flow t) : Tends (· = s.current) s t := by
  have hwf := h.site.wf
  have ha := h.acted le_rfl
  clear h
  suffices hall : Tends (· = s.current) s t ∧ (t.current = s.current ∨ s.graph.size ≤ t.current)
    from hall.1
  induction ha with
  | refl => exact ⟨.refl _ _, .inl rfl⟩
  | tail _ hacts ih =>
    obtain ⟨ht, hc⟩ := hacts.tends
    refine ⟨ih.1.trans ht hwf fun n hn => hn ▸ ih.2, ?_⟩
    rcases hc with he | hle
    · exact he ▸ ih.2
    · exact .inr hle

end

end SsaCompiler
