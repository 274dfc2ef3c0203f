import SsaCompiler.Proofs.Builder.Stage

/-!
# Constructions and their blueprints

A construction begins with an empty function and goes on by steps. Its last
stage gives the blueprint by which all its stages are measured
(`Stage.blueprint`): that stage agrees with it, hence so do the earlier ones.
The steps that make or write nodes keep soundness if what they use is there
on every path.

At the end, **what a node stands for along a path can be read off the graph**:
`Graph.chase` follows the path backwards and takes, at every merge, the operand
of the edge by which the path came. In a sound stage it finds the origin that
the blueprint names (`Stage.Sound.chase_eq`).
-/

namespace SsaCompiler

open List Option Graph Builder Blueprint
open Graph (startBlock endBlock)

variable {lhs rhs effect : NodeId} {op : BinOp}

namespace Stage

variable {s t u : Stage}

/-! ## The first stage -/

/-- An empty function, in which nothing was written. -/
def blank (name : String) (sharing : Bool) : Stage :=
  ⟨.blank name sharing, fun _ _ => none⟩

/-- An empty function with the first node of its effect chain. -/
def started (name : String) (sharing : Bool) : Stage :=
  (blank name sharing).on
    ((blank name sharing).toBuilder.place (.proj .effect) startBlock [Graph.start]).2

/-- **The first stage of a construction.** The effect chain begins in the
start block. -/
def first (name : String) (sharing : Bool) : Stage :=
  (started name sharing).put .effect startBlock 3

theorem step_started (name : String) (sharing : Bool) :
    Step (blank name sharing) (started name sharing) :=
  .place rfl rfl fun a ha => mem_singleton.1 ha ▸ (show Graph.start < 3 by decide)

theorem open_started (name : String) (sharing : Bool) (block : NodeId) :
    (started name sharing).Open block := by
  intro n hn
  rcases n with _ | _ | _ | _ | n <;> cases hn

/-! ## Soundness -/

/-- What the stage has recorded is right, and no merge is pending. -/
abbrev Sound (F : Blueprint) (s : Stage) : Prop :=
  Builder.Sound F s.written [] s.toBuilder

/-- The stage is on the way to a blueprint. -/
abbrev Agrees (F : Blueprint) (s : Stage) : Prop :=
  Builder.Agrees F s.written s.toBuilder

/-- **A node of a kind may be made in a block from some operands**: they are
there on every path, and each is what is needed at its place. -/
structure MayMake (F : Blueprint) (kind : Kind) (block : NodeId) (operands : List NodeId) :
    Prop where
  dom : ∀ a ∈ operands, F.Dom (F.block a) block
  typed : ∀ (index : Nat) (a : NodeId), operands[index]? = some a →
    ∀ channel ∈ kind.takes index, F.Fits channel a

variable {F : Blueprint} {kind : Kind} {block value : NodeId} {operands : List NodeId}
  {slot : Slot}

theorem Sound.newBlock (h : s.Sound F) (role : String) :
    (s.on (s.toBuilder.newBlock role).2).Sound F := by
  have ho : ∀ n, (s.newBlock role).2.graph.operands n = s.graph.operands n :=
    operands_newBlock s.graph role
  have hs : (s.newBlock role).2.graph.size = s.graph.size + 1 :=
    size_newBlock s.graph role
  refine Builder.Sound.transport h (Nat.le_of_lt (Nat.lt_of_lt_of_eq (Nat.lt_succ_self _)
    hs.symm)) (fun n hn => ⟨(grows_newBlock s role).kind n hn, fun _ => ho n⟩)
    (fun n _ hle => ?_) (fun n hn => ?_) rfl rfl rfl rfl
  · rw [toBuilder_on, ho, s.graph.operands_of_size_le hle]
    exact ⟨fun a ha => absurd ha not_mem_nil, fun _ _ ha => absurd ha nofun⟩
  · have hne : n ≠ s.graph.size := fun he => by
      have hb := isBlock_newBlock s.graph role
      rw [he] at hn
      cases (Kind.isBlock_eq_false_of_isPhi hn).symm.trans hb
    have hk : (s.newBlock role).2.graph.kind n = s.graph.kind n :=
      kind_newBlock_of_ne s.graph role hne
    exact ⟨hk ▸ hn, ho n, (blockOf_newBlock s.graph role n).trans (if_neg hne)⟩

section

variable (h : s.Sound F) (hmay : MayMake F kind block operands)
  (hlt : ∀ a ∈ operands, a < s.graph.size) (hphi : kind.isPhi = false)

include h hmay hlt hphi

/-- **A node is made soundly** where it may be made; it comes after its
operands. -/
theorem Sound.of_new {c : Builder} (hagrees : Builder.Agrees F s.written c)
    (hs : c.graph.size = s.graph.size + 1)
    (hk : ∀ n, c.graph.kind n = if n = s.graph.size then kind else s.graph.kind n)
    (hb : ∀ n, c.graph.blockOf n = if n = s.graph.size then block else s.graph.blockOf n)
    (hnew : c.graph.operands s.graph.size = operands ∨ c.graph.operands s.graph.size = [])
    (ho : ∀ n, n ≠ s.graph.size → (s.graph.kind n).isBlock = false →
      c.graph.operands n = s.graph.operands n)
    (hf : c.forwarded = s.forwarded) (hd : c.defs = s.defs)
    (hp : c.placeholders = s.placeholders) (hsealed : c.sealedBlocks = s.sealedBlocks) :
    (s.on c).Sound F := by
  have hblock : F.block s.graph.size = block := by
    rw [hagrees.block _ (hs ▸ Nat.lt_succ_self _), hb, if_pos rfl]
  refine Builder.Sound.transport h (Nat.le_of_lt (Nat.lt_of_lt_of_eq (Nat.lt_succ_self _)
    hs.symm)) (fun n hn => ?_) (fun n hn hle => ?_) (fun n hn => ?_)
    hf hd hp hsealed
  · exact ⟨(hk n).trans (if_neg hn.ne), ho n hn.ne⟩
  · obtain rfl : n = s.graph.size :=
      (Nat.le_of_lt_succ (hn.trans_eq hs)).antisymm hle
    rw [toBuilder_on, hk, if_pos rfl]
    rcases hnew with hnew | hnew
    · rw [hnew]
      refine ⟨fun a ha => ⟨hblock.symm ▸ hmay.dom a ha, fun _ _ => .inr (.inr (hlt a ha))⟩,
        hmay.typed⟩
    · rw [hnew]
      exact ⟨fun a ha => absurd ha not_mem_nil, fun _ _ ha => absurd ha nofun⟩
  · have hne : n ≠ s.graph.size := fun he => by
      rw [toBuilder_on, hk, if_pos he, hphi] at hn
      cases hn
    rw [toBuilder_on, hk, if_neg hne] at hn
    exact ⟨hn, ho n hne (Kind.isBlock_eq_false_of_isPhi hn), (hb n).trans (if_neg hne)⟩

theorem Sound.compute
    (hagrees : Builder.Agrees F s.written (s.toBuilder.lift (s.toDraft.add kind block operands)).2) :
    (s.on (s.toBuilder.lift (s.toDraft.add kind block operands)).2).Sound F := by
  obtain ⟨ha, hanswer⟩ := s.add_spec kind block operands
  exact h.of_new hmay hlt hphi hagrees ha.size ha.kind ha.blockOf hanswer.operands_new
    (fun n hn _ => ha.operands n hn) rfl rfl rfl rfl

theorem Sound.place
    (hagrees : Builder.Agrees F s.written (s.toBuilder.place kind block operands).2) :
    (s.on (s.toBuilder.place kind block operands).2).Sound F := by
  have ha := s.adds_addNode kind block operands
  refine h.of_new hmay hlt hphi hagrees ha.size ha.kind ha.blockOf (.inl ?_)
    (fun n hn _ => ha.operands n hn) rfl rfl rfl rfl
  exact (operands_addNode s.graph kind block operands _).trans (if_pos rfl)

theorem Sound.leave (htargets : ∀ target ∈ kind.exits, (s.graph.kind target).isBlock)
    (ha : Builder.Agrees F s.written (s.toBuilder.leave kind block operands)) :
    (s.on (s.toBuilder.leave kind block operands)).Sound F := by
  have ho := s.operands_leave block operands fun target ht =>
    lt_of_isBlock (htargets target ht)
  refine h.of_new hmay hlt hphi ha (s.size_leave kind block operands)
    (s.kind_leave kind block operands)
    (s.blockOf_leave kind block operands)
    (.inl ((ho _).trans (if_pos rfl))) (fun n hn hb => ?_) rfl rfl rfl rfl
  rw [ho, if_neg hn, count_eq_zero_of_not_mem fun ht => ?_]
  · exact append_nil _
  · cases hb.symm.trans (htargets n ht)

end

/-- **The caller may write** a node that is there on every path. -/
theorem Sound.put (h : s.Sound F) (hdom : F.Dom (F.block value) block)
    (hf : F.Fits slot.channel value) : (s.put slot block value).Sound F := by
  have hd : ∀ slot' block', (s.put slot block value).definition? slot' block' =
      if (block', slot') = (block, slot) then some value else s.definition? slot' block' :=
    fun slot' block' => definition?_write_eq s.toBuilder slot block value slot' block'
  have hw : ∀ {slot' block'}, (block', slot') ≠ (block, slot) →
      (s.put slot block value).written block' slot' = s.written block' slot' := fun hne =>
    if_neg fun he => hne (by rw [he.1, he.2])
  refine
    { entry := h.entry, pending_lt := h.pending_lt, feeds := h.feeds, complete := h.complete,
      start := h.start, holds := fun slot' block' n hn => ?_, defined := fun slot' block' hn => ?_,
      same := h.same, waiting := h.waiting, uses := h.uses, typed := h.typed }
  · rw [hd] at hn
    split at hn
    · rename_i he
      obtain ⟨rfl, rfl⟩ := Prod.mk.inj he
      obtain rfl := some.inj hn
      refine ⟨hdom, hf, fun path _ hl => ?_⟩
      unfold Blueprint.current
      rw [show (s.put slot' block' value).written (Path.last path) slot' = some value from
        if_pos ⟨hl, rfl⟩]
      rfl
    · rename_i hne
      obtain ⟨hdom', hf', ho⟩ := h.holds slot' block' n hn
      refine ⟨hdom', hf', fun path hp hl => ?_⟩
      rw [ho path hp hl]
      unfold Blueprint.current
      rw [hl, hw hne]
  · rw [hd] at hn
    split at hn
    · cases hn
    · rename_i hne
      rw [hw hne]
      exact h.defined slot' block' hn

/-- The caller makes an operation that may trap. -/
def trapping (s : Stage) (op : BinOp) (lhs rhs effect : NodeId) : Stage :=
  let t := s.on (s.toBuilder.place (.binary op) s.current [lhs, rhs, effect]).2
  let t := t.on (t.toBuilder.place (.proj .effect) s.current [s.graph.size]).2
  let t := t.put .effect s.current (s.graph.size + 1)
  t.on (t.toBuilder.place (.proj .value) s.current [s.graph.size]).2

/-- **What an operation that may trap consists of**: the operation and its two
outputs, made after each other. -/
structure Trapped (op : BinOp) (lhs rhs effect : NodeId) (s t : Stage) : Prop where
  size : t.graph.size = s.graph.size + 3
  kind : t.graph.kind s.graph.size = .binary op
  kindEffect : t.graph.kind (s.graph.size + 1) = .proj .effect
  kindValue : t.graph.kind (s.graph.size + 2) = .proj .value
  operands : t.graph.operands s.graph.size = [lhs, rhs, effect]
  operandsEffect : t.graph.operands (s.graph.size + 1) = [s.graph.size]
  operandsValue : t.graph.operands (s.graph.size + 2) = [s.graph.size]
  blockOf : ∀ n, s.graph.size ≤ n → n < t.graph.size → t.graph.blockOf n = s.current
  written : ∀ block slot, t.written block slot =
    if block = s.current ∧ slot = .effect then some (s.graph.size + 1) else s.written block slot

theorem trapped_trapping (op : BinOp) (lhs rhs effect : NodeId) (s : Stage) :
    Trapped op lhs rhs effect s (s.trapping op lhs rhs effect) := by
  have hg : (s.trapping op lhs rhs effect).graph =
      ((((s.graph.addNode (.binary op) s.current [lhs, rhs, effect]).2.addNode (.proj .effect)
        s.current [s.graph.size]).2).addNode (.proj .value) s.current [s.graph.size]).2 := rfl
  have hne : s.graph.size ≠ s.graph.size + 1 + 1 := Nat.ne_of_lt (by omega)
  refine ⟨?_, ?_, ?_, ?_, ?_, ?_, ?_, fun n hn hlt => ?_, fun block slot => rfl⟩
  · simp [hg]
  · simp [hg, kind_addNode, hne]
  · simp [hg, kind_addNode]
  · simp [hg, kind_addNode]
  · simp [hg, operands_addNode, hne]
  · simp [hg, operands_addNode]
  · simp [hg, operands_addNode]
  · simp only [hg, size_addNode] at hlt
    simp only [hg, blockOf_addNode, size_addNode]
    split
    · rfl
    split
    · rfl
    rename_i h h'
    have hlt := Nat.lt_of_le_of_ne (Nat.le_of_lt_succ hlt) h
    exact if_pos (Nat.le_antisymm
      (Nat.le_of_lt_succ (Nat.lt_of_le_of_ne (Nat.le_of_lt_succ hlt) h')) hn)

/-- The three nodes stay what they are. -/
theorem Trapped.grown {u : Stage} (h : Trapped op lhs rhs effect s t)
    (hkind : ∀ n < t.graph.size, u.graph.kind n = t.graph.kind n)
    (hb : ∀ n < t.graph.size, u.graph.blockOf n = t.graph.blockOf n) :
    (∀ k ≤ 2, s.graph.size + k < t.graph.size ∧ u.graph.blockOf (s.graph.size + k) = s.current) ∧
      u.graph.kind s.graph.size = .binary op ∧ u.graph.kind (s.graph.size + 1) = .proj .effect ∧
      u.graph.kind (s.graph.size + 2) = .proj .value := by
  have hlt : ∀ k ≤ 2, s.graph.size + k < t.graph.size := fun k hk => by
    rw [h.size]
    exact Nat.add_lt_add_left (Nat.lt_succ_of_le hk) _
  exact ⟨fun k hk => ⟨hlt k hk, (hb _ (hlt k hk)).trans
    (h.blockOf _ (Nat.le_add_right _ _) (hlt k hk))⟩, (hkind _ (hlt 0 (by decide))).trans h.kind,
    (hkind _ (hlt 1 (by decide))).trans h.kindEffect,
    (hkind _ (hlt 2 (by decide))).trans h.kindValue⟩

theorem open_place {b : Builder} {block' : NodeId} (h : b.Open block')
    (hk : kind.isTerminator = false) : (b.place kind block operands).2.Open block' := by
  intro n hn
  rw [kind_place] at hn
  rw [blockOf_place]
  split at hn
  · cases hk.symm.trans hn
  · rw [if_neg ‹_›]
    exact h n hn

/-- An operation that may trap is made in four steps. -/
theorem exists_steps_trapping (op : BinOp) (hc : (s.graph.kind s.current).isBlock)
    (ho : s.Open s.current) (hops : ∀ a ∈ [lhs, rhs, effect], a < s.graph.size) :
    ∃ one two : Stage, one = s.on (s.toBuilder.place (.binary op) s.current [lhs, rhs, effect]).2 ∧
      two = one.on (one.toBuilder.place (.proj .effect) s.current [s.graph.size]).2 ∧
      s.trapping op lhs rhs effect = (two.put .effect s.current (s.graph.size + 1)).on
          ((two.put .effect s.current (s.graph.size + 1)).toBuilder.place (.proj .value) s.current
            [s.graph.size]).2 ∧
      one.graph.size = s.graph.size + 1 ∧ two.graph.size = s.graph.size + 2 ∧ Step s one ∧
      Step one two ∧ Step two (two.put .effect s.current (s.graph.size + 1)) ∧
      Step (two.put .effect s.current (s.graph.size + 1)) (s.trapping op lhs rhs effect) := by
  have hlt := lt_of_isBlock hc
  obtain ⟨one, hone⟩ : ∃ one, one =
    s.on (s.place (.binary op) s.current [lhs, rhs, effect]).2 := ⟨_, rfl⟩
  obtain ⟨two, ht⟩ : ∃ two, two =
    one.on (one.place (.proj .effect) s.current [s.graph.size]).2 := ⟨_, rfl⟩
  have hs : one.graph.size = s.graph.size + 1 := by rw [hone, toBuilder_on, size_place]
  have hs' : two.graph.size = s.graph.size + 2 := by
    rw [ht, toBuilder_on, size_place, hs]
  have hb : (one.graph.kind s.current).isBlock = true := by
    rw [hone, toBuilder_on, kind_place, if_neg hlt.ne, hc]
  have hb' : (two.graph.kind s.current).isBlock = true := by
    rw [ht, toBuilder_on, kind_place, hs, if_neg (Nat.lt_succ_of_lt hlt).ne, hb]
  have ho' : two.Open s.current := by
    rw [ht]
    refine open_place ?_ rfl
    rw [hone]
    exact open_place ho rfl
  have hr : s.trapping op lhs rhs effect = (two.put .effect s.current (s.graph.size + 1)).on
        ((two.put .effect s.current (s.graph.size + 1)).place (.proj .value) s.current
          [s.graph.size]).2 := by
    rw [ht, hone]
    rfl
  refine ⟨one, two, hone, ht, hr, hs, hs', hone ▸ .place rfl hc hops,
    ht ▸ .place rfl hb fun a ha => ?_, .write hb' ho' (hs' ▸ Nat.lt_succ_self _),
    hr ▸ .place rfl hb' fun a ha => ?_⟩
  · rw [mem_singleton.1 ha, hs]
    exact Nat.lt_succ_self _
  · rw [mem_singleton.1 ha]
    exact (Nat.lt_add_of_pos_right (by decide)).trans_eq hs'.symm

theorem steps_trapping (hc : (s.graph.kind s.current).isBlock) (ho : s.Open s.current)
    (hops : ∀ a ∈ [lhs, rhs, effect], a < s.graph.size) :
    Steps s (s.trapping op lhs rhs effect) := by
  obtain ⟨_, _, -, -, -, -, -, hone, htwo, hput, hl⟩ :=
    exists_steps_trapping op hc ho hops
  exact .tail (.tail (.tail (.single hone) htwo) hput) hl

/-- **An operation that may trap is made soundly** from operands and an effect
that are there on every path. -/
theorem Sound.trapping (h : s.Sound F) (hwf : s.WellFormed)
    (hc : (s.graph.kind s.current).isBlock) (ho : s.Open s.current)
    (hops : ∀ a ∈ [lhs, rhs, effect], a < s.graph.size)
    (hmay : MayMake F (.binary op) s.current [lhs, rhs, effect])
    (hagrees : (s.trapping op lhs rhs effect).Agrees F) :
    (s.trapping op lhs rhs effect).Sound F := by
  obtain ⟨one, two, hone, htwo, hr, hs, hs', hstep, hstep', hput, hl⟩ :=
    exists_steps_trapping op hc ho hops
  have hw := hstep.wf hwf
  have hwfTwo := hstep'.wf hw
  have hwfPut := hput.wf hwfTwo
  have hagreesPut := agrees_of_grows hagrees (hl.grows hwfPut) hwfPut
  have hagreesTwo := agrees_of_grows hagreesPut (hput.grows hwfTwo) hwfTwo
  have hagreesOne := agrees_of_grows hagreesTwo (hstep'.grows hw) hw
  -- The operation and its outputs are in the current block.
  have hb : F.block s.graph.size = s.current := by
    rw [hagreesOne.block _ (hs ▸ Nat.lt_succ_self _), hone, toBuilder_on, blockOf_place, if_pos rfl]
  have hb' : F.block (s.graph.size + 1) = s.current := by
    rw [hagreesTwo.block _ (hs' ▸ Nat.lt_succ_self _), htwo, toBuilder_on,
      blockOf_place, if_pos hs.symm]
  have hp : ∀ channel, MayMake F (.proj channel) s.current [s.graph.size] := fun channel =>
    ⟨fun a ha => by rw [mem_singleton.1 ha, hb]; exact .refl _ _,
      fun _ _ _ _ ht => absurd ht nofun⟩
  have hsoundOne : one.Sound F := by
    rw [hone] at hagreesOne ⊢
    exact h.place hmay hops rfl hagreesOne
  have hsoundTwo : two.Sound F := by
    rw [htwo] at hagreesTwo ⊢
    refine hsoundOne.place (hp .effect) (fun a ha => ?_) rfl hagreesTwo
    rw [mem_singleton.1 ha, hs]
    exact Nat.lt_succ_self _
  have hsoundPut : (two.put .effect s.current (s.graph.size + 1)).Sound F := by
    refine hsoundTwo.put ?_ (hagreesTwo.output _ (hs' ▸ Nat.lt_succ_self _) ?_)
    · rw [hb']
      exact .refl _ _
    · rw [htwo, toBuilder_on, kind_place, if_pos hs.symm]
  rw [hr] at hagrees ⊢
  refine hsoundPut.place (hp .value) (fun a ha => ?_) rfl hagrees
  rw [mem_singleton.1 ha]
  exact (Nat.lt_add_of_pos_right (by decide)).trans_eq hs'.symm

theorem sound_blank (F : Blueprint) (name : String) (sharing : Bool) :
    (blank name sharing).Sound F := by
  have ho := operands_blank name sharing
  have hphi : ∀ {n}, ((blank name sharing).graph.kind n).isPhi ≠ true := fun {n} hn =>
    absurd ((isPhi_blank name sharing n).symm.trans hn) nofun
  exact
    { entry := rfl, pending_lt := fun n hn => absurd hn not_mem_nil,
      feeds := fun n hn => absurd hn hphi, complete := fun n hn => absurd hn hphi,
      start := fun n hn => absurd hn hphi, holds := fun _ _ n hn => absurd hn nofun,
      defined := fun _ _ _ => rfl, same := fun e he => absurd he not_mem_nil,
      waiting := fun q hq => absurd hq not_mem_nil,
      uses := fun n _ _ _ a ha => absurd (ho n ▸ ha) not_mem_nil,
      typed := fun n _ _ index a ha => absurd (ho n ▸ ha) nofun }

theorem sound_first {name : String} {sharing : Bool} (hagrees : (first name sharing).Agrees F) :
    (first name sharing).Sound F := by
  have hb : ∀ n < 4, F.block n = (first name sharing).graph.blockOf n := hagrees.block
  have hstart : F.block Graph.start = startBlock := hb 1 (by decide)
  have he : F.block 3 = startBlock := hb 3 (by decide)
  have hmay : MayMake F (.proj .effect) startBlock [Graph.start] := by
    refine ⟨fun a ha => ?_, fun index a _ _ ht => absurd ht nofun⟩
    rw [mem_singleton.1 ha, hstart]
    exact .refl _ _
  have hwf := (step_started name sharing).wf (wellFormed_blank name sharing)
  have hs := agrees_of_grows hagrees (grows_put hwf .effect 3 (open_started name sharing _)) hwf
  refine Sound.put ((sound_blank F name sharing).place hmay (fun a ha => ?_) rfl hs) ?_
    (hagrees.output 3 (show 3 < 4 by decide) rfl)
  · exact mem_singleton.1 ha ▸ (show Graph.start < 3 by decide)
  · rw [he]
    exact .refl _ _

/-! ## The last stage -/

/-- **The blueprint of a stage**: what the stage has come to. `value` tells the
nodes that variables may hold, `effect` those that the effect chain may hold. The
node for a slot that was never written is
the one that the merge for it in the start block was retired for; if no read
went there, it is `other`. -/
def blueprint (t : Stage) (value : NodeId → Prop) (other : NodeId)
    (effect : NodeId → Prop := fun _ => True) : Blueprint where
  preds := fun block => (t.graph.operands block).map t.graph.blockOf
  block := t.graph.blockOf
  slot := fun n => if (t.graph.kind n).isPhi then t.slotOf n else none
  written := t.written
  unset := fun slot => ((t.forwarded.find? fun e =>
    t.graph.blockOf e.1 = startBlock ∧ t.slotOf e.1 = some slot ∧
      t.graph.kind e.2 = .undefined).map (·.2)).getD other
  value := value
  effect := effect
  leaf := fun n => t.graph.kind n = .undefined

theorem agrees_blueprint (hwf : t.WellFormed)
    (hentry : t.graph.operands startBlock = []) {other : NodeId} {value effect : NodeId → Prop}
    (hu : ∀ n, t.graph.kind n = .undefined →
      ∀ channel, (t.blueprint value other effect).Fits channel n)
    (ho : ∀ n, t.graph.kind n = .proj .effect → effect n)
    (hc : ∀ n channel, t.graph.kind n = .phi channel →
      (t.blueprint value other effect).Fits channel n)
    (hother : ∀ n channel, t.graph.kind n = .phi channel → ∀ channel' ≠ channel,
      (t.blueprint value other effect).Fits channel' n →
        ∀ m, (t.blueprint value other effect).Fits channel' m) :
    t.Agrees (t.blueprint value other effect) where
  entry := by
    show (t.graph.operands startBlock).map _ = []
    rw [hentry]
    rfl
  block := fun _ _ => rfl
  plain := fun _ _ hk => if_neg (by rw [hk]; exact nofun)
  merge := fun _ _ hk hslot => (if_pos hk).trans hslot
  preds := fun _ _ _ => rfl
  written := fun _ _ _ _ => rfl
  unset := fun e he slot hstart hslot hkind => by
    show ((t.forwarded.find? _).map _).getD other = e.2
    cases hfind : t.forwarded.find? fun e => t.graph.blockOf e.1 = startBlock ∧
        t.slotOf e.1 = some slot ∧ t.graph.kind e.2 = .undefined with
    | none =>
      have := find?_eq_none.1 hfind e he
      exact absurd (decide_eq_true ⟨hstart, hslot, hkind⟩) this
    | some e' =>
      -- A slot has one merge in the start block, and that was retired once.
      have hfound := find?_some hfind
      obtain ⟨hstart', hslot', -⟩ := of_decide_eq_true hfound
      have he' := mem_of_find?_eq_some hfind
      have hf : ∀ e ∈ t.forwarded, t.graph.blockOf e.1 = startBlock →
          t.slotOf e.1 = some slot → t.firstDef slot startBlock = some e.1 := by
        intro e he hs hsl
        obtain ⟨slot', -, hslot', hf⟩ := hwf.marked e.1 (hwf.retired e he).1
        cases hslot'.symm.trans hsl
        exact hs ▸ hf
      have hsame : e'.1 = e.1 := some.inj
        ((hf e' he' hstart' hslot').symm.trans (hf e he hstart hslot))
      have hl := hwf.forwards.lookup_eq_some he
      have hl' := hwf.forwards.lookup_eq_some he'
      rw [hsame] at hl'
      exact some.inj (hl'.symm.trans hl)
  leaf := fun _ _ hk => hk
  undefined := fun n _ hk => hu n hk
  output := fun n _ hk => ho n hk
  channel := fun n _ => hc n
  other := hother

end Stage

/-- **Follow a node backwards along a path**: a merge in the block that the
path has entered last is replaced by its operand for that edge. The answer is
a node that is no merge, with the number of edges after which the path came
to it; there is none if an operand is missing. -/
def Graph.chase (g : Graph) : Path → NodeId → Option Origin
  | [], n => if (g.kind n).isPhi then none else some (n, 0)
  | (block, index) :: path, n =>
    if g.blockOf n ≠ block then g.chase path n
    else if (g.kind n).isPhi then (g.operand? n index).bind (g.chase path)
    else some (n, path.length + 1)

namespace Stage

variable {t : Stage} {F : Blueprint} {n : NodeId} {path : Path}

/-- **In a sound stage, what a node stands for can be read off the graph**,
along any path through sealed blocks. -/
theorem Sound.chase_eq (h : t.Sound F) (hwf : t.WellFormed) (hagrees : t.Agrees F)
    (hp : IsPath F.preds path) (hsealed : ∀ block, Path.Visits path block → t.isSealed block)
    (hlt : n < t.graph.size) (hstands : t.Stands n) (hd : F.Dom (F.block n) (Path.last path)) :
    t.graph.chase path n = some (F.origin path n) := by
  -- A merge that stands is complete unless its block is not sealed.
  have hc : ∀ n, (t.graph.kind n).isPhi = true → t.Stands n →
      t.isSealed (t.graph.blockOf n) = true →
      (t.graph.operands n).length = (F.preds (t.graph.blockOf n)).length := fun n hn hs hsealed => by
    rcases h.complete n hn hs List.not_mem_nil with hlen | ⟨q, hq, rfl⟩
    · exact hlen
    · rw [(hwf.waiting q hq).2.2.1, h.waiting q hq] at hsealed
      cases hsealed
  induction hp generalizing n with
  | nil =>
    have hb : F.block n = Graph.startBlock := hd [] .nil rfl
    have hphi : (t.graph.kind n).isPhi = false := by
      by_contra hphi
      exact absurd (h.start n (Bool.not_eq_false _ ▸ hphi) (hagrees.block n hlt ▸ hb) hstands)
        List.not_mem_nil
    rw [origin_self hb (hagrees.plain n hlt hphi)]
    unfold Graph.chase
    rw [hphi]
    rfl
  | @cons path block index hp he ih =>
    have hr : ∀ block, Path.Visits path block → t.isSealed block = true := fun block hv =>
      hsealed block (.inr hv)
    unfold Graph.chase
    rw [← hagrees.block n hlt]
    by_cases hb : F.block n = block
    · rw [if_neg (not_not.2 hb)]
      by_cases hphi : (t.graph.kind n).isPhi = true
      · rw [if_pos hphi]
        obtain ⟨slot, -, -, hslot⟩ := hagrees.exists_slot hwf hphi
        have hl := hc n hphi hstands
          (hsealed _ (.inl ((hagrees.block n hlt).symm.trans hb)))
        rw [← hagrees.block n hlt, hb] at hl
        obtain ⟨hi, -⟩ := List.getElem?_eq_some_iff.1 he
        have ha := List.getElem?_eq_getElem (hl ▸ hi)
        have hm := List.mem_of_getElem? ha
        have hf := h.feeds n hphi index _ ha (Path.last path) (hb.symm ▸ he)
        rw [show t.graph.operand? n index = _ from ha, bind_some,
          ih hr (hwf.coherent.closed n _ hm) (hwf.merges n hphi _ hm) hf.1,
          origin_merge hb hslot]
        exact congrArg some ((hf.2 slot hslot).2 path hp rfl)
      · rw [if_neg hphi]
        have hslot := hagrees.plain n hlt (Bool.eq_false_iff.2 hphi)
        rw [origin_self hb hslot]
        rfl
    · rw [if_pos hb, ih hr hlt hstands (hd.of_edge hb he), origin_cons hb]

end Stage

end SsaCompiler
