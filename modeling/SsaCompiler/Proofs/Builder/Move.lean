import SsaCompiler.Proofs.Builder.Settled

/-!
# What the caller of a builder does

A caller makes blocks and nodes, reads and writes slots, seals blocks and
ends them. `Builder.Move` lists these moves; nothing is asked of their order.
A **strict** caller adds no predecessor to a sealed block, and that is all
that strictness asks.

A move leaves a builder well formed and idle (`Move.idle`), hence so does any
number of them.
-/

namespace SsaCompiler

open List Graph Kind

variable {k : Kind} {strict : Bool}

/-- **Nodes that compute**: neither structure nor a merge nor the end of a
block. -/
def Kind.isPlain (k : Kind) : Bool :=
  !k.isBlock && !k.isPhi && !k.isTerminator

theorem Kind.isPlain_iff :
    k.isPlain ↔ k.isBlock = false ∧ k.isPhi = false ∧ k.isTerminator = false := by
  cases k <;> simp [isPlain, isBlock, isPhi, isTerminator]

theorem Kind.isPlain_of_isShareable (h : k.isShareable) : k.isPlain := by
  cases k <;> first | rfl | cases h

/-- Enter a node among the jumps to some blocks. -/
def Graph.pushJumps (g : Graph) (jump : NodeId) (targets : List NodeId) : Graph :=
  targets.foldl (·.pushOperand · jump) g

/-- **The blocks that the end of a block leads to.** A return leads to the end
block. -/
def Kind.exits : Kind → List NodeId
  | ret => [Graph.endBlock]
  | kind => kind.targets

/-- **End a block** with a node, which is entered among the jumps to the blocks
it leads to. -/
def Builder.leave (b : Builder) (kind : Kind) (block : NodeId) (operands : List NodeId) : Builder :=
  let c := (b.place kind block operands).2
  c.withGraph (c.graph.pushJumps b.graph.size kind.exits)

/-! ## Well-formedness -/

namespace Builder

variable {b c d : Builder} {slot : Slot} {block value target jump : NodeId} {kind : Kind}
  {operands targets : List NodeId}

section Place

variable (b) (kind) (block) (operands)

theorem size_place : (b.place kind block operands).2.graph.size = b.graph.size + 1 :=
  size_addNode b.graph kind block operands

theorem kind_place (n : NodeId) : (b.place kind block operands).2.graph.kind n =
      if n = b.graph.size then kind else b.graph.kind n :=
  kind_addNode b.graph kind block operands n

theorem blockOf_place (n : NodeId) : (b.place kind block operands).2.graph.blockOf n =
      if n = b.graph.size then block else b.graph.blockOf n :=
  blockOf_addNode b.graph kind block operands n

theorem operands_place (n : NodeId) : (b.place kind block operands).2.graph.operands n =
      if n = b.graph.size then operands else b.graph.operands n :=
  operands_addNode b.graph kind block operands n

end Place

/-- A new node that is no merge keeps a builder well formed. -/
theorem WellFormed.of_adds {d : Draft} (h : b.WellFormed) (ha : b.toDraft.Appends kind block d)
    (hc : d.graph.Coherent) (hknown : ∀ e ∈ d.known, e ∈ b.known ∨ kind.isShareable ∧
      e = (.of kind block (d.graph.operands b.graph.size), b.graph.size))
    (hblock : (b.graph.kind block).isBlock ∨ block = b.graph.size ∧ kind.isBlock)
    (hphi : kind.isPhi = false) (hbare : kind.isBlock → d.graph.operands b.graph.size = []) :
    WellFormed { b with toDraft := d } := by
  refine ⟨h.toShaped.of_adds ha hc hknown hblock
    (fun hk => hbare (by simpa [hphi] using hk)), fun n hn => ?_, h.slots⟩
  obtain ⟨hkind, hn, -, hb⟩ := ha.of_isPhi hphi hn
  rw [hkind, hb]
  exact h.marked n hn

section

variable (h : b.WellFormed) (hops : ∀ a ∈ operands, a < b.graph.size) (hnot : kind.isBlock = false)
  (hphi : kind.isPhi = false) (hblock : (b.graph.kind block).isBlock)

include h hops hnot hphi hblock

theorem WellFormed.compute : (b.lift (b.add kind block operands)).2.WellFormed :=
  h.of_adds (b.add_spec kind block operands).1.appends
    (b.coherent_add kind block operands h.coherent hops) (b.known_add kind block operands)
    (.inl hblock) hphi fun hk => absurd (hnot ▸ hk) nofun

theorem WellFormed.place : (b.place kind block operands).2.WellFormed :=
  h.of_adds (b.adds_addNode kind block operands).appends (h.coherent.addNode kind block hops)
    (fun _ he => .inl he) (.inl hblock) hphi fun hk => absurd (hnot ▸ hk) nofun

end

theorem WellFormed.pushJump (h : b.WellFormed) (ht : (b.graph.kind target).isBlock)
    (hj : (b.graph.kind jump).isTerminator) (hlt : jump < b.graph.size) :
    (b.withGraph (b.graph.pushOperand target jump)).WellFormed := by
  have hsame := sameNodes_pushOperand b.graph target jump
  have hm : ∀ {n}, (b.graph.kind n).isPhi = true → n ≠ target := fun hn he => by
    rw [he] at hn
    cases (isBlock_eq_false_of_isPhi hn).symm.trans ht
  refine ⟨?_, fun n hn => ?_, h.slots⟩
  · exact h.toShaped.pushOperand (lt_of_isBlock ht) hlt
      (Bool.eq_false_iff.2 fun hs =>
        Bool.eq_false_iff.1 (isBlock_eq_false_of_isShareable hs) ht)
      (stands_iff.2 fun e he => hm (h.retired e he).1)
      (fun q hq => hm (by rw [(h.waiting q hq).2.1]; rfl)) (fun _ => hj)
      fun hphi => absurd rfl (hm hphi)
  · show ∃ slot, (b.graph.pushOperand target jump).kind n = _ ∧ b.slotOf n = _ ∧
      b.firstDef slot ((b.graph.pushOperand target jump).blockOf n) = _
    rw [hsame.kind, hsame.blockOf]
    exact h.marked n (hsame.kind n ▸ hn)

theorem WellFormed.newBlock (h : b.WellFormed) (role : String) :
    (b.newBlock role).2.WellFormed := by
  obtain ⟨label, hnew⟩ := b.exists_appends_newBlock role
  exact h.of_adds hnew (h.coherent.newBlock role) (fun _ he => .inl he) (.inr ⟨rfl, rfl⟩) rfl
    fun _ => (operands_newBlock b.graph role _).trans (b.graph.operands_of_size_le le_rfl)

/-! ### Ending a block -/

theorem sameNodes_pushJumps (g : Graph) (jump : NodeId) (targets : List NodeId) :
    g.SameNodes (g.pushJumps jump targets) :=
  sameNodes_foldl _ (fun g target => sameNodes_pushOperand g target jump) targets g

theorem operands_pushJumps (g : Graph) (jump : NodeId) (h : ∀ target ∈ targets, target < g.size)
    (n : NodeId) :
    (g.pushJumps jump targets).operands n =
      g.operands n ++ List.replicate (targets.count n) jump := by
  induction targets generalizing g with
  | nil => exact (append_nil _).symm
  | cons target rest ih =>
    have hs := sameNodes_pushOperand g target jump
    have ht := h target (.head _)
    have hr : ∀ m ∈ rest, m < (g.pushOperand target jump).size := fun m hm =>
      hs.size ▸ h m (mem_cons_of_mem _ hm)
    refine (ih _ hr).trans ?_
    rw [operands_pushOperand g ht, count_cons]
    by_cases he : n = target
    · subst he
      rw [beq_self_eq_true, if_pos rfl, append_assoc]
      rfl
    · rw [if_neg he, if_neg (by simpa using Ne.symm he)]
      rfl

theorem WellFormed.pushJumps (h : b.WellFormed) (hj : (b.graph.kind jump).isTerminator)
    (hlt : jump < b.graph.size) (ht : ∀ target ∈ targets, (b.graph.kind target).isBlock) :
    (b.withGraph (b.graph.pushJumps jump targets)).WellFormed := by
  induction targets generalizing b with
  | nil => exact h
  | cons target rest ih =>
    have hs := sameNodes_pushOperand b.graph target jump
    refine ih (h.pushJump (ht target (.head _)) hj hlt)
      ((hs.kind _).symm ▸ hj) (hs.size.symm ▸ hlt) fun m hm => ?_
    exact (hs.kind m).symm ▸ ht m (mem_cons_of_mem _ hm)

section Leave

variable (b : Builder) (kind : Kind) (block : NodeId) (operands : List NodeId)

theorem sameNodes_leave : (b.place kind block operands).2.graph.SameNodes
      (b.leave kind block operands).graph :=
  sameNodes_pushJumps _ _ _

theorem size_leave : (b.leave kind block operands).graph.size = b.graph.size + 1 :=
  (b.sameNodes_leave kind block operands).size.trans (size_addNode _ _ _ _)

theorem kind_leave (n : NodeId) : (b.leave kind block operands).graph.kind n =
      if n = b.graph.size then kind else b.graph.kind n :=
  ((b.sameNodes_leave kind block operands).kind n).trans (kind_addNode _ _ _ _ n)

theorem blockOf_leave (n : NodeId) : (b.leave kind block operands).graph.blockOf n =
      if n = b.graph.size then block else b.graph.blockOf n :=
  ((b.sameNodes_leave kind block operands).blockOf n).trans
    (blockOf_addNode _ _ _ _ n)

variable {kind}

theorem operands_leave (h : ∀ target ∈ kind.exits, target < b.graph.size) (n : NodeId) :
    (b.leave kind block operands).graph.operands n = if n = b.graph.size then operands
      else b.graph.operands n ++ List.replicate (kind.exits.count n) b.graph.size := by
  have hlt : ∀ target ∈ kind.exits, target < (b.place kind block operands).2.graph.size :=
    fun target ht => Nat.lt_of_lt_of_eq (Nat.lt_succ_of_lt (h target ht))
      (size_addNode _ _ _ _).symm
  have hp : (b.place kind block operands).2.graph.operands n = _ :=
    operands_addNode b.graph kind block operands n
  refine (operands_pushJumps _ b.graph.size hlt n).trans ?_
  rw [hp]
  split
  · rename_i he
    rw [count_eq_zero_of_not_mem fun hm => Nat.ne_of_lt (h n hm) he]
    exact append_nil _
  · rfl

end Leave

theorem WellFormed.leave (h : b.WellFormed) (hk : kind.isTerminator)
    (hblock : (b.graph.kind block).isBlock) (hops : ∀ a ∈ operands, a < b.graph.size)
    (htargets : ∀ target ∈ kind.exits, (b.graph.kind target).isBlock) :
    (b.leave kind block operands).WellFormed := by
  have hnot : kind.isBlock = false := by
    cases kind <;> first | rfl | cases hk
  have hphi : kind.isPhi = false := by
    cases kind <;> first | rfl | cases hk
  have hp : ∀ n, (b.place kind block operands).2.graph.kind n = _ :=
    kind_addNode b.graph kind block operands
  refine (h.place hops hnot hphi hblock).pushJumps ?_ ?_ fun target ht => ?_
  · rw [hp, if_pos rfl]
    exact hk
  · exact (Nat.lt_succ_self _).trans_eq (size_addNode _ _ _ _).symm
  · rw [hp, if_neg (lt_of_isBlock (htargets target ht)).ne]
    exact htargets target ht

/-! ## Moves -/

/-- **One thing that a caller does.** The nodes it names are nodes of the graph,
and the blocks it names are blocks. -/
inductive Move (strict : Bool) (b : Builder) : Builder → Prop
  | newBlock (role : String) : Move strict b (b.newBlock role).2
  | enter {block : NodeId} (hblock : (b.graph.kind block).isBlock = true) :
      Move strict b (b.enter block)
  | write {slot : Slot} {block value : NodeId} (hblock : (b.graph.kind block).isBlock = true)
      (hvalue : value < b.graph.size) : Move strict b (b.write slot block value)
  | read {slot : Slot} {block value : NodeId} {c : Builder}
      (hblock : (b.graph.kind block).isBlock = true) (h : b.read slot block = .ok (value, c)) :
      Move strict b c
  | seals {block : NodeId} {c : Builder} (hblock : (b.graph.kind block).isBlock = true)
      (h : b.sealBlock block = .ok c) : Move strict b c
  | compute {kind : Kind} {block : NodeId} {operands : List NodeId} (hkind : kind.isPlain = true)
      (hblock : (b.graph.kind block).isBlock = true) (hops : ∀ a ∈ operands, a < b.graph.size) :
      Move strict b (b.lift (b.add kind block operands)).2
  | place {kind : Kind} {block : NodeId} {operands : List NodeId} (hkind : kind.isPlain = true)
      (hblock : (b.graph.kind block).isBlock = true) (hops : ∀ a ∈ operands, a < b.graph.size) :
      Move strict b (b.place kind block operands).2
  | leave {kind : Kind} {block : NodeId} {operands : List NodeId}
      (hkind : kind.isTerminator = true) (hblock : (b.graph.kind block).isBlock = true)
      (hops : ∀ a ∈ operands, a < b.graph.size)
      (htargets : ∀ target ∈ kind.exits, (b.graph.kind target).isBlock = true ∧
        (strict = true → b.isSealed target = false)) :
      Move strict b (b.leave kind block operands)

/-- **Any number of moves.** -/
abbrev Moves (strict : Bool) : Builder → Builder → Prop :=
  Relation.ReflTransGen (Move strict)

/-- **A move keeps a builder well formed.** -/
theorem Move.wf (h : Move strict b c) (hwf : b.WellFormed) : c.WellFormed := by
  cases h with
  | newBlock role => exact hwf.newBlock role
  | enter => exact { hwf with }
  | write _ hv => exact hwf.write _ _ hv
  | read hblock h => exact (tidy_read hwf hblock h).wf
  | seals hblock h =>
    obtain ⟨e, hr, rfl⟩ := sealBlock_spec hwf h
    exact { hr.wf with }
  | compute hk hblock hops =>
    obtain ⟨hnot, hphi, -⟩ := isPlain_iff.1 hk
    exact hwf.compute hops hnot hphi hblock
  | place hk hblock hops =>
    obtain ⟨hnot, hphi, -⟩ := isPlain_iff.1 hk
    exact hwf.place hops hnot hphi hblock
  | leave hk hblock hops htargets =>
    exact hwf.leave hk hblock hops fun target ht => (htargets target ht).1

/-- Where merges and the predecessors of sealed blocks stay as they are, a
builder stays idle. -/
theorem Idle.transport (h : Idle strict b) (hwf : c.WellFormed)
    (hphi : ∀ n, (c.graph.kind n).isPhi → (b.graph.kind n).isPhi ∧
      c.graph.operands n = b.graph.operands n ∧ c.graph.blockOf n = b.graph.blockOf n)
    (hj : strict → ∀ n, (b.graph.kind n).isBlock → b.isSealed n →
      c.graph.operands n = b.graph.operands n) (hf : c.forwarded = b.forwarded)
    (hp : c.placeholders = b.placeholders) (hsealed : c.sealedBlocks = b.sealedBlocks) :
    Idle strict c := by
  have hi : ∀ n, c.isSealed n = b.isSealed n := fun n => by
    unfold isSealed
    rw [hsealed]
  have hstands : ∀ n, c.Stands n ↔ b.Stands n := fun n => by
    unfold Stands
    rw [hf]
  refine ⟨hwf, fun q hq => ?_, h.settled.merging.transport (fun n hn hs _ => ?_)
    (hp ▸ List.Subset.refl _), fun n hn hs hnot => ?_⟩
  · rw [hi]
    exact h.settled.waiting q (hp ▸ hq)
  · obtain ⟨hk, hops, -⟩ := hphi n hn
    exact ⟨hk, (hstands n).1 hs, hops⟩
  · obtain ⟨hk, hops, hblock⟩ := hphi n hn
    rw [hops, hblock, hi, hp]
    refine (h.settled.full n hk ((hstands n).1 hs) hnot).imp_right fun ⟨hs', hl⟩ =>
      ⟨hs', fun hstrict => ?_⟩
    rw [hj hstrict _ (h.wf.home n (lt_of_isPhi hk)) hs']
    exact hl hstrict

theorem Idle.of_adds {d : Draft} (h : Idle strict b) (ha : b.toDraft.Appends kind block d)
    (hphi : kind.isPhi = false) (hwf : WellFormed { b with toDraft := d }) :
    Idle strict { b with toDraft := d } :=
  h.transport hwf (fun _ hn => (ha.of_isPhi hphi hn).2)
    (fun _ n hn _ => ha.operands n (lt_of_isBlock hn).ne) rfl rfl rfl

/-- **A move leaves a builder idle.** -/
theorem Move.idle (h : Move strict b c) (hi : Idle strict b) : Idle strict c := by
  have hwf := h.wf hi.wf
  cases h with
  | newBlock role =>
    obtain ⟨label, hnew⟩ := b.exists_appends_newBlock role
    exact hi.of_adds hnew rfl hwf
  | enter => exact ⟨hwf, { hi.settled with }⟩
  | write => exact ⟨hwf, hi.settled.write _ _ _⟩
  | read hblock h =>
    have hev := (tidy_read hi.wf hblock h).evolves
    have hsettled := settles_read hi.wf hblock h (fun _ hn => hn) hi.settled
    refine ⟨hwf, hsettled.waiting, hsettled.merging, ?_⟩
    unfold isSealed
    rw [hev.sealedBlocks]
    exact hsettled.full
  | seals _ h => exact hi.sealBlock h
  | compute hk =>
    exact hi.of_adds (b.add_spec _ _ _).1.appends (isPlain_iff.1 hk).2.1 hwf
  | place hk =>
    exact hi.of_adds (b.adds_addNode _ _ _).appends (isPlain_iff.1 hk).2.1 hwf
  | @leave kind block operands hk hblock hops htargets =>
    have ho := b.operands_leave block operands fun target ht =>
      lt_of_isBlock (htargets target ht).1
    have hkept : ∀ n < b.graph.size, n ∉ kind.exits →
        (b.leave kind block operands).graph.operands n = b.graph.operands n :=
      fun n hn hnot => by
        rw [ho, if_neg hn.ne, count_eq_zero_of_not_mem hnot]
        exact append_nil _
    have hphi : kind.isPhi = false := by
      cases kind <;> first | rfl | cases hk
    refine hi.transport hwf (fun n hn => ?_) (fun hstrict n hn hs => ?_) rfl rfl rfl
    · have hne : n ≠ b.graph.size := fun he => by
        rw [kind_leave, if_pos he, hphi] at hn
        cases hn
      rw [kind_leave, if_neg hne] at hn
      refine ⟨hn, hkept n (lt_of_isPhi hn) fun ht => ?_,
        (b.blockOf_leave kind block operands n).trans (if_neg hne)⟩
      cases (isBlock_eq_false_of_isPhi hn).symm.trans (htargets n ht).1
    · refine hkept n (lt_of_isBlock hn) fun ht => ?_
      cases hs.symm.trans ((htargets n ht).2 hstrict)

theorem Moves.idle (h : Moves strict b c) (hi : Idle strict b) : Idle strict c := by
  induction h with
  | refl => exact hi
  | tail _ hm ih => exact hm.idle ih

/-! ## The first builder -/

/-- A builder with nothing but a sealed start block, the origin of effects and
the end block. -/
def blank (name : String) (sharing : Bool) : Builder where
  toDraft := .init name sharing
  sealedBlocks := [Graph.startBlock]

theorem operands_blank (name : String) (sharing : Bool) (n : NodeId) :
    (blank name sharing).graph.operands n = [] := by
  rcases n with _ | _ | _ | n <;> rfl

theorem isPhi_blank (name : String) (sharing : Bool) (n : NodeId) :
    ((blank name sharing).graph.kind n).isPhi = false := by
  rcases n with _ | _ | _ | n <;> rfl

theorem wellFormed_blank (name : String) (sharing : Bool) : (blank name sharing).WellFormed := by
  have hops := operands_blank name sharing
  have hphi := isPhi_blank name sharing
  refine ⟨?_, fun n hn => absurd ((hphi n).symm.trans hn) nofun, fun q hq => absurd hq nofun⟩
  refine
    { coherent := ?_, entry := rfl, home := fun n hn => ?_,
      jumps := fun n _ a ha => absurd (hops n ▸ ha) not_mem_nil, forwards := .nil,
      retired := fun e he => absurd he not_mem_nil,
      merges := fun n hn => absurd ((hphi n).symm.trans hn) nofun,
      defined := fun e he => absurd he not_mem_nil, table := fun e he => ?_,
      shared := fun e he => ?_, waiting := fun q hq => absurd hq not_mem_nil, distinct := nodup_nil }
  · refine ⟨fun n a ha => absurd (hops n ▸ ha) not_mem_nil, fun a u => ?_⟩
    rw [hops]
    rcases a with _ | _ | _ | a <;> rfl
  · have hn : n < 3 := hn
    rcases n with _ | _ | _ | n
    · rfl
    · rfl
    · rfl
    · exact absurd hn (by omega)
  · cases sharing <;> cases he
  · cases sharing <;> cases he

theorem idle_blank (strict : Bool) (name : String) (sharing : Bool) :
    Idle strict (blank name sharing) := by
  have hphi := isPhi_blank name sharing
  exact ⟨wellFormed_blank name sharing, fun q hq => absurd hq nofun,
    fun n hn => absurd ((hphi n).symm.trans hn) nofun,
    fun n hn => absurd ((hphi n).symm.trans hn) nofun⟩

/-- A builder for an empty function is made by two moves: the first node of
the effect chain, and the definition of the chain by it. -/
theorem moves_init (strict : Bool) (name : String) (sharing : Bool) :
    Moves strict (blank name sharing) (init name sharing) := by
  have hp : Move strict (blank name sharing)
      ((blank name sharing).place (.proj .effect) Graph.startBlock [Graph.start]).2 :=
    .place rfl rfl fun a ha => mem_singleton.1 ha ▸ (show Graph.start < 3 by decide)
  exact .tail (.single hp) (.write rfl (Nat.lt_succ_self 3))

theorem idle_init (strict : Bool) (name : String) (sharing : Bool) :
    Idle strict (init name sharing) :=
  (moves_init strict name sharing).idle (idle_blank strict name sharing)

end Builder

end SsaCompiler
