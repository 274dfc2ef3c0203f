import SsaCompiler.Proofs.Program.Expression

/-!
# The parts of the walk over a statement

What the walk over a statement does is confined to the current block and to new
blocks, it seals all blocks it makes, and control comes from all of them to the
block in which it ends or to a return. `Walked` says this, and the parts of which
the walk consists are here: single statements, forks and arms.
-/

namespace SsaCompiler

open List Builder
open Graph (startBlock endBlock)

open Stage

/-- **Leave an arm**: jump on, unless it has returned. -/
def Stage.passOn (s : Stage) (flow : Flow) (target : NodeId) : Stage :=
  match flow with
  | .continues => s.leave (.jump target) []
  | .returns => s

/-- **How two arms end together.** -/
def Flow.join (first second : Flow) : Flow :=
  if first = .returns ∧ second = .returns then .returns else .continues

/-! ## What the walk leaves -/

/-- **A part that keeps to the current block** and to new ones. -/
abbrev Stage.Inside (goal pending : NodeId → Prop) (s t : Stage) : Prop :=
  Part (· = s.current) (fun _ => False) (fun _ => False) (· = s.current) goal pending s t

/-- **What the walk over a statement leaves**, and where it has ended. -/
structure Walked (s : Stage) (flow : Flow) (t : Stage) : Prop
    extends Part (· = s.current) (fun _ => False) (fun _ => False) (· = s.current)
      (fun n => flow = .continues ∧ n = t.current ∨ n = endBlock) (fun _ => False) s t where
  current : t.current = s.current ∨ s.graph.size ≤ t.current
  site : flow = .continues → t.Open t.current ∧ t.graph.Reaches t.current

section

variable {s t u v w x : Stage} {flow flow' : Flow} {block target cond n a b : NodeId}
  {role : String} {kind : Kind} {operands : List NodeId} {ended sealing joined : NodeId → Prop}

/-! ### Sites, entries and vacant blocks -/

theorem Stage.Site.current_lt (h : s.Site) : s.current < s.graph.size := lt_of_isBlock h.current

theorem Stage.Site.own_lt (h : s.Site) : ∀ n, n = s.current → n < s.graph.size :=
  fun _ hn => hn ▸ h.current_lt

theorem Stage.Wired.endBlock_lt (h : s.Wired) : endBlock < s.graph.size := lt_of_isBlock h.final

/-- A site remains one as long as nothing ends its block. -/
theorem Stage.Site.of_confined (hs : s.Site) (h : Confined ended sealing joined s t)
    (ht : t.Wired) (hc : t.current = s.current) (hne : ¬ ended s.current) : t.Site := by
  have hg := h.steps.grows hs.wf
  refine { ht with isOpen := ?_, reached := ?_, notFinal := hc ▸ hs.notFinal }
  · rw [hc]
    exact h.isOpen hs.wf hs.current_lt hs.isOpen hne
  · rw [hc]
    exact hg.reaches hs.wf hs.current hs.reached

theorem Stage.Site.newBlock (hs : s.Site) (role : String) : (s.newBlock role).Site :=
  hs.of_confined (confined_newBlock s role (fun _ => False) (fun _ => False) fun _ => False)
    (hs.toWired.newBlock role) rfl id

/-- **A block at which an arm can begin.** -/
structure Entry (s : Stage) (block : NodeId) : Prop where
  isBlock : (s.graph.kind block).isBlock = true
  isOpen : s.Open block
  reaches : s.graph.Reaches block
  notFinal : block ≠ endBlock

/-- An entry remains one as long as nothing ends it. -/
theorem Entry.of_confined (h : Entry s block) (hc : Confined ended sealing joined s t)
    (hwf : s.WellFormed) (hne : ¬ ended block) : Entry t block :=
  have hg := hc.steps.grows hwf
  ⟨hg.isBlock h.isBlock, hc.isOpen hwf (lt_of_isBlock h.isBlock) h.isOpen hne,
    hg.reaches hwf h.isBlock h.reaches, h.notFinal⟩

theorem Entry.site (h : Entry s block) (hs : s.Wired) (hseal : SealStep block s t) :
    (t.enter block).Site := by
  have ht := hs.seals h.isBlock h.notFinal hseal
  have he := h.of_confined (hseal.confined (fun _ => False) (fun _ => False)) hs.wf id
  exact { ht.enter he.isBlock with
    isOpen := he.isOpen, reached := he.reaches, notFinal := h.notFinal }

/-- **A block to which nothing was done yet.** -/
structure Vacant (s : Stage) (block : NodeId) : Prop where
  isBlock : (s.graph.kind block).isBlock = true
  isOpen : s.Open block
  unsealed : s.isSealed block = false
  bare : s.graph.operands block = []
  notFinal : block ≠ endBlock

theorem vacant_newBlock (hs : s.Wired) (role : String) : Vacant (s.newBlock role) s.graph.size where
  isBlock := (s.isBlock_newBlock role _).2 (.inl rfl)
  isOpen := fun m hm he => by
    rw [isTerminator_newBlock] at hm
    have hlt := lt_of_isTerminator hm
    rw [show (s.newBlock role).graph.blockOf m = s.graph.blockOf m from
      (Graph.blockOf_newBlock s.graph role m).trans (if_neg hlt.ne)] at he
    exact Nat.lt_irrefl _ (he ▸ lt_of_isBlock (hs.wf.home m hlt))
  unsealed := by
    refine Bool.eq_false_iff.2 fun hsealed => ?_
    exact Nat.lt_irrefl _ (lt_of_isBlock (hs.isBlock _ hsealed))
  bare := (s.operands_newBlock role _).trans (s.graph.operands_of_size_le le_rfl)
  notFinal := Nat.ne_of_gt hs.endBlock_lt

theorem Vacant.of_confined (h : Vacant s block) (hc : Confined ended sealing joined s t)
    (hwf : s.WellFormed) (he : ¬ ended block) (hsealing : ¬ sealing block)
    (hj : ¬ joined block) : Vacant t block :=
  have hlt := lt_of_isBlock h.isBlock
  ⟨(hc.steps.grows hwf).isBlock h.isBlock, hc.isOpen hwf hlt h.isOpen he,
    (hc.isSealed block hlt hsealing).trans h.unsealed,
    (hc.jumps block h.isBlock hj h.notFinal).trans h.bare, h.notFinal⟩

theorem Vacant.newBlock (h : Vacant s block) (hs : s.Wired) (role : String) :
    Vacant (s.newBlock role) block :=
  h.of_confined (confined_newBlock s role (fun _ => False) (fun _ => False) fun _ => False)
    hs.wf id id id

/-! ### Jumps -/

section Leave

variable (hs : s.Site) (hkind : kind.isTerminator = true) (hops : ∀ a ∈ operands, s.Usable a)
  (htargets : ∀ target ∈ kind.exits, (s.graph.kind target).isBlock = true ∧
    s.isSealed target = false)
  (hbranch : ∀ ifTrue ifFalse, kind = .condJump ifTrue ifFalse → ifTrue ≠ ifFalse ∧
    s.graph.operands ifTrue = [] ∧ s.graph.operands ifFalse = [])

include hs hkind hops htargets hbranch

/-- **A jump leads from the current block to its targets.** -/
theorem Stage.Site.part_leave (sealing pending : NodeId → Prop) :
    Part (· = s.current) sealing (· ∈ kind.exits) (fun n => n = s.current ∨ n ∈ kind.exits)
      (· ∈ kind.exits) pending s (s.leave kind operands) :=
  { confined_leave hs.toWired hkind (fun a ha => (hops a ha).lt) htargets sealing with
    wired := hs.leave hs.isOpen hs.reached hkind
      (fun a ha => ⟨(hops a ha).lt, (hops a ha).stands⟩) htargets hbranch
    onward := onward_leave hs.toWired hkind (fun a ha => (hops a ha).lt) htargets
    sealsBut := sealsBut_leave hkind pending }

theorem Stage.Site.reaches_leave (ht : target ∈ kind.exits) :
    (s.leave kind operands).graph.Reaches target := by
  have hp := hs.part_leave hkind hops htargets hbranch (fun _ => False) fun _ => False
  exact ((hp.steps.grows hs.wf).reaches hs.wf hs.current
    hs.reached).step (mem_preds_leave htargets ht)

end Leave

theorem Vacant.entry_leave (h : Vacant s block) (hs : s.Site) (hne : block ≠ s.current)
    (hp : Part (· = s.current) (fun _ => False) (· ∈ kind.exits)
      (fun n => n = s.current ∨ n ∈ kind.exits) (· ∈ kind.exits) (fun _ => False) s
      (s.leave kind operands))
    (hr : (s.leave kind operands).graph.Reaches block) :
    Entry (s.leave kind operands) block :=
  ⟨(hp.steps.grows hs.wf).isBlock h.isBlock, hp.isOpen hs.wf (lt_of_isBlock h.isBlock) h.isOpen hne,
    hr, h.notFinal⟩

/-- **The two ways of a jump on a condition.** -/
structure Forks (ifTrue ifFalse : NodeId) (s t : Stage) : Prop
    extends Part (· = s.current) (fun _ => False) (fun n => n = ifTrue ∨ n = ifFalse)
      (fun n => n = s.current ∨ n = ifTrue ∨ n = ifFalse)
      (fun n => n = ifTrue ∨ n = ifFalse) (fun _ => False) s t where
  onTrue : Entry t ifTrue
  onFalse : Entry t ifFalse
  edge : s.current ∈ t.graph.preds ifFalse

theorem Stage.Site.forks (hs : s.Site) (hcond : s.Usable cond) (ha : Vacant s a)
    (hb : Vacant s b) (hne : a ≠ b) (hc : a ≠ s.current ∧ b ≠ s.current) :
    Forks a b s (s.leave (.condJump a b) [cond]) := by
  have hops : ∀ m ∈ [cond], s.Usable m := fun m hm => mem_singleton.1 hm ▸ hcond
  have hmem : ∀ n, n ∈ (Kind.condJump a b).exits ↔ n = a ∨ n = b := fun n => by
    simp [Kind.exits, Kind.targets]
  have htargets : ∀ target ∈ (Kind.condJump a b).exits,
      (s.graph.kind target).isBlock = true ∧ s.isSealed target = false := fun target ht => by
    rcases (hmem target).1 ht with rfl | rfl
    · exact ⟨ha.isBlock, ha.unsealed⟩
    · exact ⟨hb.isBlock, hb.unsealed⟩
  have hbranch : ∀ ifTrue ifFalse, Kind.condJump a b = .condJump ifTrue ifFalse →
      ifTrue ≠ ifFalse ∧ s.graph.operands ifTrue = [] ∧ s.graph.operands ifFalse = [] := by
    rintro _ _ ⟨⟩
    exact ⟨hne, ha.bare, hb.bare⟩
  have hp := hs.part_leave rfl hops htargets hbranch (fun _ => False) fun _ => False
  have hr : ∀ target ∈ (Kind.condJump a b).exits,
      (s.leave (.condJump a b) [cond]).graph.Reaches target :=
    fun _ ht => hs.reaches_leave rfl hops htargets hbranch ht
  exact { hp.mono (fun _ => id) (fun _ => id) (fun n => (hmem n).1)
      (fun n hn => hn.imp_right (hmem n).2) (fun n => (hmem n).1) with
    onTrue := ha.entry_leave hs hc.1 hp (hr a ((hmem a).2 (.inl rfl)))
    onFalse := hb.entry_leave hs hc.2 hp (hr b ((hmem b).2 (.inr rfl)))
    edge := mem_preds_leave htargets ((hmem b).2 (.inr rfl)) }

/-- A jump without a condition. -/
theorem Stage.Site.part_jump (hs : s.Site) (hb : (s.graph.kind target).isBlock)
    (hu : s.isSealed target = false) :
    Part (· = s.current) (fun _ => False) (· = target) (fun n => n = s.current ∨ n = target)
        (· = target) (fun _ => False) s (s.leave (.jump target) []) ∧
      (s.leave (.jump target) []).graph.Reaches target := by
  have hops : ∀ m ∈ ([] : List NodeId), s.Usable m := forall_mem_nil _
  have hmem : ∀ n, n ∈ (Kind.jump target).exits ↔ n = target := fun n => mem_singleton
  have htargets : ∀ m ∈ (Kind.jump target).exits,
      (s.graph.kind m).isBlock = true ∧ s.isSealed m = false := fun m hm =>
    (hmem m).1 hm ▸ ⟨hb, hu⟩
  have hbranch : ∀ ifTrue ifFalse, Kind.jump target = .condJump ifTrue ifFalse →
      ifTrue ≠ ifFalse ∧ s.graph.operands ifTrue = [] ∧ s.graph.operands ifFalse = [] := nofun
  refine ⟨?_, hs.reaches_leave rfl hops htargets hbranch ((hmem target).2 rfl)⟩
  exact (hs.part_leave rfl hops htargets hbranch (fun _ => False) fun _ => False).mono
    (fun _ => id) (fun _ => id) (fun n => (hmem n).1) (fun n hn => hn.imp_right (hmem n).2)
    fun n => (hmem n).1

/-! ### Single statements -/

/-- The walk goes on where the statement ends, if it does not return. -/
theorem Walked.toSite (h : Walked s .continues t) (hs : s.Site) : t.Site := by
  obtain ⟨ho, hr⟩ := h.site rfl
  refine { h.wired with isOpen := ho, reached := hr, notFinal := ?_ }
  rcases h.current with he | hle
  · exact he ▸ hs.notFinal
  · exact Nat.ne_of_gt (hs.endBlock_lt.trans_le hle)

theorem Stage.Quiet.walked (h : Quiet s t) (hs : s.Site) (ht : t.Wired)
    (hc : t.current = s.current) : Walked s .continues t := by
  have hsite := hs.of_confined (h.confined (fun _ => False) (fun _ => False) fun _ => False) ht
    hc id
  exact { h.confined (· = s.current) (fun _ => False) (fun _ => False) with
    wired := ht
    onward := (h.onward (· = s.current)).mono (fun _ => id)
      fun n hn => .inl ⟨rfl, hn.trans hc.symm⟩
    sealsBut := h.sealsBut _
    current := .inl hc
    site := fun _ => ⟨hsite.isOpen, hsite.reached⟩ }

theorem Stage.Answered.walked_put (h : Answered s n t) (hs : s.Site) (name : String) :
    Walked s .continues (t.put (.var name) t.current n) := by
  have ht := h.site hs
  have hq : Quiet s (t.put (.var name) t.current n) := h.toQuiet.trans
    (quiet_put ht.toOngoing.current ht.isOpen h.answer.lt) hs.wf
  exact hq.walked hs (ht.toWired.put ht.isOpen ht.toOngoing.current h.answer.lt) h.current

/-- **One statement after another.** -/
theorem Walked.trans (h : Walked s .continues t) (h' : Walked t flow u) (hs : s.Site) :
    Walked s flow u := by
  have hle := (h.steps.grows hs.wf).size_le
  have hp := h.toPart.trans (h'.toPart.frame (· = endBlock)) hs.toWired hs.own_lt
    (fun n hn => hn ▸ h.current) (fun _ => False.elim) (fun _ => False.elim)
    (fun n hn => hn.imp_left And.right) (fun _ => False.elim) (fun _ => id)
  refine { hp with
    onward := hp.onward.mono (fun _ => id) fun n hn => hn.elim id .inr
    current := ?_, site := h'.site }
  rcases h'.current with he | hlt
  · exact he ▸ h.current
  · exact .inr (hle.trans hlt)

theorem Stage.current_leave : (s.leave kind operands).current = s.current := rfl

theorem walked_ret {effect : NodeId} {c : Builder} (h : Answered s n t) (hs : s.Site)
    (hread : t.read .effect t.current = .ok (effect, c)) :
    Walked s .returns ((t.on c).leave .ret [effect, n]) := by
  have hr := answered_read (h.site hs).toWired hread
  have ha := h.trans hr hs.toWired
  have hc := ha.site hs
  have hops : ∀ a ∈ [effect, n], (t.on c).Usable a := usable_pair hr.answer (hr.usable _ h.answer)
  have htargets : ∀ target ∈ Kind.ret.exits, ((t.on c).graph.kind target).isBlock = true ∧
      (t.on c).isSealed target = false := fun target hm =>
    mem_singleton.1 hm ▸ ⟨hc.final, hc.finalOpen⟩
  have hl := hc.part_leave rfl hops htargets nofun (fun _ => False) fun _ => False
  -- Edges to the end block do not count, so nothing is joined.
  have hl' : Part (· = s.current) (fun _ => False) (fun _ => False)
      (fun n => n = s.current ∨ n = endBlock) (· = endBlock) (fun _ => False)
      (t.on c) ((t.on c).leave .ret [effect, n]) :=
    { hl with
      ends := fun m hm ht => (hl.ends m hm ht).imp_left (·.trans ha.current)
      jumps := fun n hn _ hne => hl.jumps n hn (fun hm => hne (mem_singleton.1 hm)) hne
      onward := hl.onward.mono
        (fun n hn => hn.imp (·.trans ha.current.symm) mem_singleton.2)
        fun _ => mem_singleton.1 }
  have hp : Inside (· = endBlock) (fun _ => False) s
      ((t.on c).leave .ret [effect, n]) :=
    (ha.part hc.toWired _ _ _ _ _).trans hl' hs.toWired hs.own_lt (fun _ => .inl)
      (fun _ => .inl) (fun _ => .inl) (fun _ => .inl) (fun _ => False.elim) fun _ => id
  exact { hp with
    onward := hp.onward.mono (fun _ => id) fun _ => .inr
    current := .inl (current_leave.trans ha.current), site := fun he => absurd he nofun }

/-! ### Arms -/

/-- **What an arm leaves**: a statement from a block on, and the jump out of
it. -/
structure Arm (block target : NodeId) (flow : Flow) (s t : Stage) : Prop
    extends Part (· = block) (· = block) (fun n => flow = .continues ∧ n = target) (· = block)
      (fun n => flow = .continues ∧ n = target ∨ n = endBlock) (fun _ => False) s t where
  done : t.isSealed block = true
  reaches : flow = .continues → t.graph.Reaches target

theorem Walked.arm (h : Walked (t.enter block) flow u) (hs : s.Wired) (hentry : Entry s block)
    (hseal : SealStep block s t) (ht : (s.graph.kind target).isBlock)
    (hu : s.isSealed target = false) (hne : target ≠ block) :
    Steps u (u.passOn flow target) ∧ Arm block target flow s (u.passOn flow target) := by
  have hsite := hentry.site hs hseal
  have ho : ∀ n, n = block → n < s.graph.size := fun n hn =>
    hn ▸ lt_of_isBlock hentry.isBlock
  -- Up to the end of the body.
  have henter := (hseal.part (hs.seals hentry.isBlock hentry.notFinal hseal) (· = block)
    (fun n => flow = .continues ∧ n = target) (· = block) (fun _ => False)).quiet hs ho
    (quiet_enter hsite.current) hsite.toWired
  have hb := henter.trans h.toPart hs ho (fun _ => .inl) (fun _ => False.elim)
    (fun _ => False.elim) (fun _ => id) (fun _ => False.elim) (fun _ => id)
  have hd : u.isSealed block = true :=
    (h.steps.grows hsite.wf).isSealed block ((hseal.isSealed block).2 (.inl rfl))
  cases flow with
  | returns =>
    refine ⟨.refl, { hb with
      onward := hb.onward.mono (fun _ => id) fun n hn => .inr (hn.resolve_left fun he => ?_)
      done := hd, reaches := fun he => absurd he nofun }⟩
    exact absurd he.1 nofun
  | continues =>
    have hsiteU := h.toSite hsite
    obtain ⟨hj, hr⟩ := hsiteU.part_jump
      ((hb.steps.grows hs.wf).isBlock ht)
      ((hb.isSealed target (lt_of_isBlock ht) hne).trans hu)
    have hc : ∀ n, n = u.current → n = block ∨ s.graph.size ≤ n := fun n hn =>
      hn ▸ h.current.imp_right (Nat.le_trans (hseal.step.grows hs.wf).size_le)
    have hp := hb.trans (hj.frame (· = endBlock)) hs ho hc
      (fun _ => False.elim) (fun n hn => .inl ⟨rfl, hn⟩)
      (fun n hn => hn.imp_left fun hn => .inl hn.2) (fun n hn => .inl (.inr hn)) (fun _ => id)
    exact ⟨hj.steps, { hp with
      onward := hp.onward.mono (fun _ => id) fun n hn => hn.imp_left fun he => ⟨rfl, he⟩
      done := (hj.steps.grows hsiteU.wf).isSealed block hd
      reaches := fun _ => hr }⟩

/-! ### Branches and loops -/

theorem Stage.Usable.newBlock (h : s.Usable n) (role : String) : (s.newBlock role).Usable n :=
  ⟨(Nat.lt_succ_of_lt h.lt).trans_eq (s.size_newBlock role).symm, h.stands⟩

section Inside

variable {goal goal' pending : NodeId → Prop}

/-- A part goes on with the fork at its end. -/
theorem Stage.Part.forks (h : Inside goal pending s t) (hs : s.Site) (hf : Forks a b t u)
    (hc : t.current = s.current ∨ s.graph.size ≤ t.current)
    (hg : ∀ n, goal n → n = t.current) (ha : s.graph.size ≤ a) (hb : s.graph.size ≤ b) :
    Inside (fun n => n = a ∨ n = b) pending s u :=
  h.trans hf.toPart hs.toWired hs.own_lt (fun _ hn => hn ▸ hc) (fun _ => False.elim)
    (fun _ hn => .inr (hn.elim (· ▸ ha) (· ▸ hb))) (fun n hn => .inl (hg n hn))
    (fun _ => .inr) fun _ => False.elim

theorem Stage.Part.arm (h : Inside goal pending s t) (hs : s.Site)
    (harm : Arm block target flow t u) (hb : s.graph.size ≤ block)
    (ht : s.graph.size ≤ target) (hg : ∀ n, goal n → n = block ∨ goal' n)
    (ho : ∀ n, flow = .continues ∧ n = target ∨ n = endBlock → goal' n) :
    Inside goal' pending s u := by
  have hp := h.trans (harm.frame goal') hs.toWired hs.own_lt (fun n hn => .inr (hn ▸ hb))
    (fun n hn => .inr (hn ▸ hb)) (fun n hn => .inr (hn.2 ▸ ht)) hg
    (fun n hn => .inr (ho n (.inl hn))) fun _ => False.elim
  exact { hp with onward := hp.onward.mono (fun _ => id) fun n hn => hn.elim (ho n) id }

/-- **A branch or loop ends** in a new block that is sealed and entered at
last. -/
theorem Stage.Part.walked
    (h : Inside (fun n => flow = .continues ∧ n = block ∨ n = endBlock) pending s t)
    (hs : s.Site) (hle : s.graph.size ≤ block) (hblock : (t.graph.kind block).isBlock)
    (ho : t.Open block) (hr : flow = .continues → t.graph.Reaches block)
    (hpending : ∀ n, pending n → t.isSealed n ∨ n = block) (hseal : SealStep block t u) :
    Walked s flow (u.enter block) := by
  have hne : block ≠ endBlock :=
    Nat.ne_of_gt (hs.endBlock_lt.trans_le hle)
  have hu := h.wired.seals hblock hne hseal
  have hblockU : (u.graph.kind block).isBlock = true := (hseal.isBlock_eq block).trans hblock
  have he := (h.seals hs.toWired hs.own_lt hseal hu hle).quiet hs.toWired hs.own_lt
    (quiet_enter hblockU) (hu.enter hblockU)
  refine { he with
    sealsBut := fun n hn hb => .inl ((he.sealsBut n hn hb).elim id fun hp => ?_)
    current := .inr hle, site := fun hf => ⟨?_, ?_⟩ }
  · exact (hseal.isSealed n).2 (hpending n hp).symm
  · exact (hseal.confined (fun _ => False) (fun _ => False)).isOpen h.wired.wf
      (lt_of_isBlock hblock) ho id
  · exact (hseal.step.grows h.wired.wf).reaches h.wired.wf hblock (hr hf)

end Inside

theorem Stage.Quiet.newBlocks (h : Quiet s t) (hs : s.Site) (ht : t.Wired) (a b : String)
    {pending : NodeId → Prop} (hp : ∀ n, n = t.graph.size ∨ n = t.graph.size + 1 → pending n) :
    Inside (· = s.current) pending s ((t.newBlock a).newBlock b) := by
  have hlt : ∀ n, n = s.current → n < t.graph.size := fun n hn =>
    (hs.own_lt n hn).trans_le (h.steps.grows hs.wf).size_le
  have hsize := t.size_newBlock a
  refine ((h.part ht _ _ _ _ _).newBlock hs.toWired hs.own_lt hlt a (hp _ (.inl rfl))).newBlock
    hs.toWired hs.own_lt (fun n hn => ?_) b (hp _ (.inr hsize))
  exact hsize ▸ Nat.lt_succ_of_lt (hlt n hn)

theorem Stage.Quiet.threeBlocks (h : Quiet s t) (hs : s.Site) (ht : t.Wired) (a b c : String) :
    Inside (· = s.current)
      (fun n => n = t.graph.size ∨ n = t.graph.size + 1 ∨ n = t.graph.size + 2) s
      (((t.newBlock a).newBlock b).newBlock c) := by
  have hlt := hs.current_lt.trans_le (h.steps.grows hs.wf).size_le
  have hsize : ((t.newBlock a).newBlock b).graph.size = t.graph.size + 2 := by
    rw [size_newBlock, size_newBlock]
  refine (h.newBlocks hs ht a b fun n hn => hn.imp_right .inl).newBlock hs.toWired hs.own_lt
    (fun n hn => ?_) c (.inr (.inr hsize))
  exact hsize ▸ hn ▸ Nat.lt_add_right 2 hlt

/-- **The fork of a branch without an alternative.** -/
theorem forks_ifThen (ht : t.Site) (hc : t.Usable cond)
    (hfork : u = ((t.newBlock "then").newBlock "merge").leave
      (.condJump t.graph.size (t.graph.size + 1)) [cond]) :
    Forks t.graph.size (t.graph.size + 1) ((t.newBlock "then").newBlock "merge") u ∧
      u.isSealed (t.graph.size + 1) = false := by
  have hthen := ht.newBlock "then"
  have hvThen := (vacant_newBlock ht.toWired "then").newBlock hthen.toWired "merge"
  have hv := vacant_newBlock hthen.toWired "merge"
  rw [size_newBlock] at hv
  have hlt := ht.current_lt
  have hf := (hthen.newBlock "merge").forks ((hc.newBlock "then").newBlock "merge") hvThen
    hv (Nat.lt_succ_self _).ne
    ⟨Nat.ne_of_gt hlt, Nat.ne_of_gt (Nat.lt_succ_of_lt hlt)⟩
  rw [hfork]
  exact ⟨hf, (hf.isSealed _ (lt_of_isBlock hv.isBlock) id).trans hv.unsealed⟩

theorem vacant_newBlocks (hs : s.Wired) (a b c : String) :
    Vacant (((s.newBlock a).newBlock b).newBlock c) s.graph.size ∧
      Vacant (((s.newBlock a).newBlock b).newBlock c) (s.graph.size + 1) ∧
      Vacant (((s.newBlock a).newBlock b).newBlock c) (s.graph.size + 2) := by
  have ha := hs.newBlock a
  have hb := ha.newBlock b
  have hvb := vacant_newBlock ha b
  have hvc := vacant_newBlock hb c
  rw [size_newBlock] at hvb
  rw [size_newBlock, size_newBlock] at hvc
  exact ⟨((vacant_newBlock hs a).newBlock ha b).newBlock hb c, hvb.newBlock hb c, hvc⟩

/-- **The fork of a branch with an alternative.** -/
theorem forks_ifElse (ht : t.Site) (hc : t.Usable cond)
    (hfork : u = (((t.newBlock "then").newBlock "else").newBlock "merge").leave
      (.condJump t.graph.size (t.graph.size + 1)) [cond]) :
    Forks t.graph.size (t.graph.size + 1)
        (((t.newBlock "then").newBlock "else").newBlock "merge") u ∧
      Vacant u (t.graph.size + 2) := by
  obtain ⟨hvThen, hvElse, hv⟩ := vacant_newBlocks ht.toWired "then" "else" "merge"
  have hlt := ht.current_lt
  have hsite := ((ht.newBlock "then").newBlock "else").newBlock "merge"
  have hf := hsite.forks (((hc.newBlock "then").newBlock "else").newBlock "merge") hvThen
    hvElse (Nat.lt_succ_self _).ne
    ⟨Nat.ne_of_gt hlt, Nat.ne_of_gt (Nat.lt_succ_of_lt hlt)⟩
  rw [hfork]
  refine ⟨hf, hv.of_confined hf.toConfined hsite.wf ?_ id ?_⟩
  · exact Nat.ne_of_gt (Nat.lt_add_right 2 hlt)
  · show ¬ (t.graph.size + 2 = t.graph.size ∨ t.graph.size + 2 = t.graph.size + 1)
    omega

/-- **The head of a loop**, with the blocks of the loop, is where its condition
is built. -/
theorem loop_head (hs : s.Site)
    (hh : t = (((s.newBlock "header").newBlock "body").newBlock "exit").leave
      (.jump s.graph.size) []) :
    Inside (· = s.graph.size)
        (fun n => n = s.graph.size ∨ n = s.graph.size + 1 ∨ n = s.graph.size + 2) s
        (t.enter s.graph.size) ∧
      (t.enter s.graph.size).Site ∧ (t.enter s.graph.size).isSealed s.graph.size = false ∧
      Vacant (t.enter s.graph.size) (s.graph.size + 1) ∧
      Vacant (t.enter s.graph.size) (s.graph.size + 2) := by
  obtain ⟨hvHeader, hvBody, hvExit⟩ := vacant_newBlocks hs.toWired "header" "body" "exit"
  have hsite := ((hs.newBlock "header").newBlock "body").newBlock "exit"
  obtain ⟨hj, hr⟩ := hsite.part_jump hvHeader.isBlock hvHeader.unsealed
  rw [← hh] at hj hr
  have hlt := hs.current_lt
  have hlt' : s.current < s.graph.size + 1 := Nat.lt_succ_of_lt hlt
  have hneBody : s.graph.size + 1 ≠ s.graph.size := by omega
  have hneExit : s.graph.size + 2 ≠ s.graph.size := by omega
  have hb := (hj.steps.grows hsite.wf).isBlock hvHeader.isBlock
  have hq := quiet_enter hb
  have hw := hj.wired.enter hb
  have hk : ∀ {block}, Vacant (((s.newBlock "header").newBlock "body").newBlock "exit") block →
      block ≠ s.current → block ≠ s.graph.size → Vacant (t.enter s.graph.size) block :=
    fun hv hne hne' => (hv.of_confined hj.toConfined hsite.wf hne id hne').of_confined
      (hq.confined (fun _ => False) (fun _ => False) fun _ => False) hj.wired.wf
      id id id
  refine ⟨?_, { hw with isOpen := ?_, reached := hr, notFinal := hvHeader.notFinal },
    ?_, hk hvBody hlt'.ne' hneBody,
    hk hvExit (Nat.lt_succ_of_lt hlt').ne' hneExit⟩
  · exact (((Quiet.refl s).threeBlocks hs hs.toWired "header" "body" "exit").trans hj hs.toWired
      hs.own_lt (fun _ => .inl) (fun _ => False.elim) (fun n hn => .inr hn.symm.le)
      (fun _ => .inl) (fun _ => .inr) fun _ => False.elim).quiet hs.toWired hs.own_lt hq hw
  · exact hj.isOpen hsite.wf (lt_of_isBlock hvHeader.isBlock)
      hvHeader.isOpen hlt.ne'
  · exact (hj.isSealed _ (lt_of_isBlock hvHeader.isBlock) id).trans
      hvHeader.unsealed

/-- **The fork of a loop** at the end of its head. -/
theorem forks_loop (hs : s.Site)
    (hh : t = (((s.newBlock "header").newBlock "body").newBlock "exit").leave
      (.jump s.graph.size) [])
    (hc : Answered (t.enter s.graph.size) cond u)
    (hfork : v = u.leave (.condJump (s.graph.size + 1) (s.graph.size + 2)) [cond]) :
    Forks (s.graph.size + 1) (s.graph.size + 2) u v ∧ v.isSealed s.graph.size = false := by
  obtain ⟨-, hsite, hunsealed, hvBody, hvExit⟩ := loop_head hs hh
  have hu := hc.site hsite
  have hcurrent : u.current = s.graph.size := hc.current
  have hk : ∀ {block}, Vacant (t.enter s.graph.size) block → Vacant u block := fun hv =>
    hv.of_confined (hc.confined (fun _ => False) (fun _ => False) fun _ => False)
      hsite.wf id id id
  have hne : s.graph.size + 1 ≠ s.graph.size + 2 := by omega
  have hn : s.graph.size + 1 ≠ u.current ∧ s.graph.size + 2 ≠ u.current := by
    rw [hcurrent]
    omega
  have hf := hu.forks hc.answer (hk hvBody) (hk hvExit) hne hn
  rw [hfork]
  refine ⟨hf, (hf.isSealed _ ?_ id).trans ((hc.isSealed _).trans hunsealed)⟩
  exact hcurrent ▸ hu.current_lt

end

end SsaCompiler
