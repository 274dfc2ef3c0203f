import SsaCompiler.Proofs.Builder.Move

/-!
# Requests to a builder

All that a caller can ask of a builder is a `Request`, and a **run** is any
number of requests that were answered. A request names nodes of the graph,
and blocks where blocks are due; otherwise requests come in any order, and
blocks are sealed early, late or twice. In a *strict* run no request adds a
predecessor to a sealed block.

Every answer is the result of some moves (`moves_answer`), so what moves keep
holds after any run. In particular **retired merges never come back**
(`Run.retired_merges_stay_retired`).
-/

namespace SsaCompiler.Builder

open List Option

variable {n : Option NodeId} {r : Request}

/-- **What can be asked of a builder.** -/
inductive Request where
  | newBlock (role : String)
  | enter (block : NodeId)
  | constInt (value : Word)
  | constBool (value : Bool)
  | undefined
  | binary (op : BinOp) (lhs rhs : NodeId)
  | compare (op : CmpOp) (lhs rhs : NodeId)
  | condValue (cond ifTrue ifFalse : NodeId)
  | jump (target : NodeId)
  | condJump (cond ifTrue ifFalse : NodeId)
  | ret (result : NodeId)
  | write (slot : Slot) (block value : NodeId)
  | read (slot : Slot) (block : NodeId)
  | seals (block : NodeId)

namespace Request

/-- The nodes that a request uses. -/
def uses : Request → List NodeId
  | binary _ lhs rhs | compare _ lhs rhs => [lhs, rhs]
  | condValue cond ifTrue ifFalse => [cond, ifTrue, ifFalse]
  | condJump cond _ _ => [cond]
  | ret result => [result]
  | write _ _ value => [value]
  | _ => []

/-- The blocks that get a predecessor. -/
def targets : Request → List NodeId
  | jump target => [target]
  | condJump _ ifTrue ifFalse => [ifTrue, ifFalse]
  | ret _ => [Graph.endBlock]
  | _ => []

/-- The blocks that a request names. -/
def blocks : Request → List NodeId
  | enter block | write _ block _ | read _ block | seals block => [block]
  | r => r.targets

/-- **A request makes sense**: it uses nodes of the graph and names blocks where
blocks are due. A strict one gives no predecessor to a sealed block. -/
structure Valid (strict : Bool) (b : Builder) (r : Request) : Prop where
  uses : ∀ n ∈ r.uses, n < b.graph.size
  blocks : ∀ n ∈ r.blocks, (b.graph.kind n).isBlock = true
  targets : strict = true → ∀ n ∈ r.targets, b.isSealed n = false

instance (strict : Bool) (b : Builder) (r : Request) : Decidable (r.Valid strict b) :=
  decidable_of_iff ((∀ n ∈ r.uses, n < b.graph.size) ∧
    (∀ n ∈ r.blocks, (b.graph.kind n).isBlock = true) ∧
    (strict = true → ∀ n ∈ r.targets, b.isSealed n = false))
    ⟨fun h => ⟨h.1, h.2.1, h.2.2⟩, fun h => ⟨h.uses, h.blocks, h.targets⟩⟩

end Request

/-- **The answer to a request**: a node, if there is one to name, and the builder
afterwards. -/
def answer (b : Builder) : Request → Except Fault (Option NodeId × Builder)
  | .newBlock role => .ok ((b.newBlock role).map some id)
  | .enter block => .ok (none, b.enter block)
  | .constInt value => .ok ((b.constInt value).map some id)
  | .constBool value => .ok ((b.constBool value).map some id)
  | .undefined => .ok (b.undefined.map some id)
  | .binary op lhs rhs => (b.binary op lhs rhs).map (·.map some id)
  | .compare op lhs rhs => .ok ((b.compare op lhs rhs).map some id)
  | .condValue cond ifTrue ifFalse => .ok ((b.condValue cond ifTrue ifFalse).map some id)
  | .jump target => .ok ((b.jump target).map some id)
  | .condJump cond ifTrue ifFalse => .ok ((b.condJump cond ifTrue ifFalse).map some id)
  | .ret result => (b.ret result).map (·.map some id)
  | .write slot block value => .ok (none, b.write slot block value)
  | .read slot block => (b.read slot block).map (·.map some id)
  | .seals block => (b.sealBlock block).map (none, ·)

/-- **A run**: any number of requests that make sense and are answered. -/
inductive Run (strict : Bool) (b : Builder) : Builder → Prop
  | refl : Run strict b b
  | ask {c d : Builder} {r : Request} {n : Option NodeId} (h : Run strict b c)
      (hvalid : r.Valid strict c) (hanswer : c.answer r = .ok (n, d)) : Run strict b d

/-- Ask for something that makes sense. -/
def ask? (strict : Bool) (b : Builder) (r : Request) : Option Builder :=
  if r.Valid strict b then (b.answer r).toOption.map (·.2) else none

/-- Asking for one thing after the other is a run. -/
theorem Run.of_foldlM {strict : Bool} {b c d : Builder} {requests : List Request}
    (h : Run strict b c) (hd : requests.foldlM (ask? strict) c = some d) : Run strict b d := by
  induction requests generalizing c with
  | nil => exact some.inj hd ▸ h
  | cons r rest ih =>
    obtain ⟨e, he, hr⟩ := bind_eq_some_iff.1 hd
    unfold ask? at he
    split at he
    · obtain ⟨⟨n, e'⟩, ha, rfl⟩ := map_eq_some_iff.1 he
      exact ih (h.ask ‹_› (Except.toOption_eq_some.1 ha)) hr
    · cases he

/-! ## How requests are answered -/

variable {b c d : Builder} {strict : Bool} {slot : Slot} {kind : Kind}
  {block value lhs rhs result : NodeId} {operands : List NodeId} {op : BinOp}

theorem lift_add_of_not_shareable (hk : kind.isShareable = false) :
    b.lift (b.add kind block operands) = b.place kind block operands := by
  have hnew : (b.graph.addNode kind block operands).2.kind b.graph.size = kind :=
    (Graph.kind_addNode b.graph kind block operands _).trans (if_pos rfl)
  obtain h | ⟨_, _, hs, _⟩ := Draft.offer_cases
    { b.toDraft with graph := (b.graph.addNode kind block operands).2 } b.graph.size
  · exact congrArg b.lift h
  · rw [hnew, hk] at hs
    cases hs

/-- **Make an operation that may trap**, after an effect. Three nodes come in
addition: the operation, its effect and its value. -/
def trapping (b : Builder) (op : BinOp) (lhs rhs effect : NodeId) : Builder :=
  let c := (b.place (.binary op) b.current [lhs, rhs, effect]).2
  let c := (c.place (.proj .effect) b.current [b.graph.size]).2
  let c := c.write .effect b.current (b.graph.size + 1)
  (c.place (.proj .value) b.current [b.graph.size]).2

theorem forwarded_trapping (b : Builder) (op : BinOp) (lhs rhs effect : NodeId) :
    (b.trapping op lhs rhs effect).forwarded = b.forwarded := by
  have hp : ∀ (c : Builder) (kind : Kind) (block : NodeId) (operands : List NodeId),
      (c.place kind block operands).2.forwarded = c.forwarded := fun _ _ _ _ => rfl
  have hw : ∀ (c : Builder) (slot : Slot) (block value : NodeId),
      (c.write slot block value).forwarded = c.forwarded := fun _ _ _ _ => rfl
  simp only [trapping, hp, hw]

theorem binary_of_not_hasEffect (hop : op.hasEffect = false) :
    b.binary op lhs rhs = .ok (b.compute (.binary op) [lhs, rhs]) := by
  unfold binary
  rw [hop]
  rfl

theorem withGraph_project {n : NodeId} (h : b.graph.blockOf n = block) (channel : Channel) :
    b.withGraph (b.graph.project n channel).2 = (b.place (.proj channel) block [n]).2 := by
  subst h
  rfl

theorem binary_of_hasEffect (hop : op.hasEffect) :
    b.binary op lhs rhs = (b.read .effect b.current).map fun r =>
      (r.2.graph.size + 2, r.2.trapping op lhs rhs r.1) := by
  unfold binary
  rw [if_pos hop]
  cases b.read .effect b.current with
  | error => rfl
  | ok r =>
    obtain ⟨effect, c⟩ := r
    have hk : (Kind.binary op).isShareable = false := by
      show (!op.hasEffect) = false
      rw [hop]
      rfl
    have hc : c.compute (.binary op) [lhs, rhs, effect] =
        c.place (.binary op) c.current [lhs, rhs, effect] := by
      exact lift_add_of_not_shareable hk
    -- The outputs are in the block of the operation.
    have hb : (c.place (.binary op) c.current [lhs, rhs, effect]).2.graph.blockOf
        c.graph.size = c.current := by
      rw [blockOf_place, if_pos rfl]
    have hb' : (((c.place (.binary op) c.current [lhs, rhs, effect]).2.place
        (.proj .effect) c.current [c.graph.size]).2.write .effect c.current
          (c.graph.size + 1)).graph.blockOf c.graph.size = c.current := by
      show ((c.place (.binary op) c.current [lhs, rhs, effect]).2.place
        (.proj .effect) c.current [c.graph.size]).2.graph.blockOf c.graph.size = c.current
      rw [blockOf_place, size_place, if_neg (Nat.lt_succ_self _).ne, hb]
    have ha : ∀ (d : Builder) (n : NodeId) (channel : Channel),
        (d.graph.project n channel).1 = d.graph.size := fun _ _ _ => rfl
    have hcurrent : (c.place (.binary op) c.current [lhs, rhs, effect]).2.current = c.current := rfl
    have hnew : (c.place (.binary op) c.current [lhs, rhs, effect]).1 = c.graph.size := rfl
    simp only [bind, Except.bind, hc, hnew, hcurrent, ha,
      withGraph_project hb, size_place, withGraph_project hb']
    have hs : (((c.place (.binary op) c.current [lhs, rhs, effect]).2.place
        (.proj .effect) c.current [c.graph.size]).2.write .effect c.current
          (c.graph.size + 1)).graph.size = c.graph.size + 2 := by
      show ((c.place (.binary op) c.current [lhs, rhs, effect]).2.place
        (.proj .effect) c.current [c.graph.size]).2.graph.size = c.graph.size + 2
      rw [size_place, size_place]
    rw [hs]
    rfl

theorem ret_eq (b : Builder) (result : NodeId) :
    b.ret result = (b.read .effect b.current).map fun r =>
      (r.2.graph.size, r.2.leave .ret r.2.current [r.1, result]) := by
  unfold ret
  cases b.read .effect b.current with
  | error | ok r => rfl

namespace Request

/-- The kind of node that a request asks for, if the answer may be shared. -/
def kind? : Request → Option Kind
  | constInt value => some (.constInt value)
  | constBool value => some (.constBool value)
  | undefined => some .undefined
  | binary op _ _ => if op.hasEffect then none else some (.binary op)
  | compare op _ _ => some (.compare op)
  | condValue _ _ _ => some .condValue
  | _ => none

/-- The jump that a request ends the current block with, if it needs no effect. -/
def exit? : Request → Option Kind
  | jump target => some (.jump target)
  | condJump _ ifTrue ifFalse => some (.condJump ifTrue ifFalse)
  | _ => none

/-- The block for which a request answers a node. -/
def home (current : NodeId) : Request → NodeId
  | constInt _ | constBool _ | undefined => Graph.startBlock
  | read _ block => block
  | _ => current

variable {r : Request}

theorem isShareable_of_kind? (h : r.kind? = some kind) : kind.isShareable := by
  cases r with
  | constInt | constBool | undefined | compare | condValue =>
    cases h
    rfl
  | binary op lhs rhs =>
    cases hop : op.hasEffect with
    | true => simp [kind?, hop] at h
    | false =>
      obtain rfl : Kind.binary op = kind := by simpa [kind?, hop] using h
      show (!op.hasEffect) = true
      rw [hop]
      rfl
  | _ => cases h

/-- What is computed from nodes is computed in the current block. -/
theorem home_of_kind? (current : NodeId) (h : r.kind? = some kind) :
    r.uses = [] ∧ r.home current = Graph.startBlock ∨ r.home current = current := by
  cases r with
  | constInt | constBool | undefined => exact .inl ⟨rfl, rfl⟩
  | binary | compare | condValue => exact .inr rfl
  | _ => cases h

theorem isTerminator_of_exit? (h : r.exit? = some kind) :
    kind.isTerminator ∧ kind.exits = r.targets ∧ r.blocks = r.targets := by
  cases r with
  | jump | condJump =>
    cases h
    exact ⟨rfl, rfl, rfl⟩
  | _ => cases h

end Request

/-- **How a request is answered**: one rule for each way. -/
inductive Reply (b : Builder) : Request → Option NodeId → Builder → Prop
  | newBlock (role : String) : Reply b (.newBlock role) (some b.graph.size) (b.newBlock role).2
  | enter (block : NodeId) : Reply b (.enter block) none (b.enter block)
  | make {r : Request} {kind : Kind} (hkind : r.kind? = some kind) :
      Reply b r (some (b.lift (b.add kind (r.home b.current) r.uses)).1)
        (b.lift (b.add kind (r.home b.current) r.uses)).2
  | trapping {op : BinOp} {lhs rhs effect : NodeId} {c : Builder} (hop : op.hasEffect = true)
      (hread : b.read .effect b.current = .ok (effect, c)) :
      Reply b (.binary op lhs rhs) (some (c.graph.size + 2)) (c.trapping op lhs rhs effect)
  | leave {r : Request} {kind : Kind} (hkind : r.exit? = some kind) :
      Reply b r (some b.graph.size) (b.leave kind b.current r.uses)
  | ret {result effect : NodeId} {c : Builder}
      (hread : b.read .effect b.current = .ok (effect, c)) :
      Reply b (.ret result) (some c.graph.size) (c.leave .ret c.current [effect, result])
  | write (slot : Slot) (block value : NodeId) :
      Reply b (.write slot block value) none (b.write slot block value)
  | read {slot : Slot} {block n : NodeId} {c : Builder} (hread : b.read slot block = .ok (n, c)) :
      Reply b (.read slot block) (some n) c
  | seals {block : NodeId} {c : Builder} (hseal : b.sealBlock block = .ok c) :
      Reply b (.seals block) none c

/-- **Every answer is one of these.** -/
theorem reply_of_answer (h : b.answer r = .ok (n, c)) : Reply b r n c := by
  cases r with
  | newBlock role =>
    cases h
    exact .newBlock role
  | enter block =>
    cases h
    exact .enter block
  | constInt | constBool | undefined | compare | condValue =>
    cases h
    exact .make rfl
  | binary op lhs rhs =>
    have h : Except.map _ (b.binary op lhs rhs) = _ := h
    cases hop : op.hasEffect with
    | false =>
      rw [binary_of_not_hasEffect hop] at h
      cases h
      exact .make (by simp [Request.kind?, hop])
    | true =>
      rw [binary_of_hasEffect hop] at h
      cases hr : b.read .effect b.current with
      | error => rw [hr] at h; cases h
      | ok result =>
        rw [hr] at h
        cases h
        exact .trapping hop hr
  | jump target =>
    have h : Except.ok ((b.jump target).map some id) = _ := h
    cases h
    exact .leave rfl
  | condJump cond ifTrue ifFalse =>
    have h : Except.ok ((b.condJump cond ifTrue ifFalse).map some id) = _ := h
    cases h
    exact .leave rfl
  | ret result =>
    have h : Except.map _ (b.ret result) = _ := h
    rw [ret_eq] at h
    cases hr : b.read .effect b.current with
    | error => rw [hr] at h; cases h
    | ok found =>
      rw [hr] at h
      cases h
      exact .ret hr
  | write slot block value =>
    cases h
    exact .write slot block value
  | read slot block =>
    have h : Except.map _ (b.read slot block) = _ := h
    cases hr : b.read slot block with
    | error => rw [hr] at h; cases h
    | ok found =>
      rw [hr] at h
      cases h
      exact .read hr
  | seals block =>
    have h : Except.map _ (b.sealBlock block) = _ := h
    cases hs : b.sealBlock block with
    | error => rw [hs] at h; cases h
    | ok found =>
      rw [hs] at h
      cases h
      exact .seals hs

theorem Reply.of_kind? (h : Reply b r n c) (hk : r.kind? = some kind) :
    n = some (b.lift (b.add kind (r.home b.current) r.uses)).1 ∧
      c = (b.lift (b.add kind (r.home b.current) r.uses)).2 := by
  cases h with
  | make hk' =>
    cases hk.symm.trans hk'
    exact ⟨rfl, rfl⟩
  | trapping hop => simp [Request.kind?, hop] at hk
  | leave he => cases r <;> first | (cases he; done) | cases hk
  | _ => cases hk

theorem Reply.of_exit? (h : Reply b r n c) (he : r.exit? = some kind) :
    n = some b.graph.size ∧ c = b.leave kind b.current r.uses := by
  cases h with
  | make hk => cases r <;> first | (cases he; done) | cases hk
  | leave he' =>
    cases he.symm.trans he'
    exact ⟨rfl, rfl⟩
  | _ => cases he

theorem Reply.of_hasEffect (h : Reply b (.binary op lhs rhs) n c) (hop : op.hasEffect) :
    ∃ effect d, b.read .effect b.current = .ok (effect, d) ∧
      n = some (d.graph.size + 2) ∧ c = d.trapping op lhs rhs effect := by
  cases h with
  | make hk => simp [Request.kind?, hop] at hk
  | trapping _ hr => exact ⟨_, _, hr, rfl, rfl⟩
  | leave he => cases he

theorem Reply.of_read (h : Reply b (.read slot block) n c) :
    ∃ m, n = some m ∧ b.read slot block = .ok (m, c) := by
  cases h with
  | make hk => cases hk
  | leave he => cases he
  | read hr => exact ⟨_, rfl, hr⟩

/-! ## Requests are moves -/

/-- **A builder at work**: it is idle between two requests, and computations go
to a block. -/
structure Ongoing (strict : Bool) (b : Builder) : Prop extends Idle strict b where
  current : (b.graph.kind b.current).isBlock = true

/-- A move does not change what a node is, and it leaves a block current. -/
theorem Move.current (h : Move strict b c) (hi : Idle strict b)
    (hcurrent : (b.graph.kind b.current).isBlock) :
    (c.graph.kind c.current).isBlock := by
  have hlt := lt_of_isBlock hcurrent
  have hkept : ∀ {c : Builder}, c.current = b.current →
      c.graph.kind b.current = b.graph.kind b.current →
      (c.graph.kind c.current).isBlock = true := fun hc hk => by rw [hc, hk, hcurrent]
  cases h with
  | newBlock role => exact hkept rfl (Graph.kind_newBlock_of_ne b.graph role hlt.ne)
  | enter hb => exact hb
  | write => exact hcurrent
  | read hb h =>
    have hev := (tidy_read hi.wf hb h).evolves
    exact hkept hev.current (hev.kind _ hlt)
  | seals hb h =>
    obtain ⟨e, hr, rfl⟩ := sealBlock_spec hi.wf h
    exact hkept hr.evolves.current (hr.evolves.kind _ hlt)
  | compute =>
    exact hkept rfl (((b.add_spec _ _ _).1.kind _).trans (if_neg hlt.ne))
  | place =>
    exact hkept rfl (((b.adds_addNode _ _ _).kind _).trans (if_neg hlt.ne))
  | leave => exact hkept rfl ((kind_leave _ _ _ _ _).trans (if_neg hlt.ne))

theorem Move.isSealed {n : NodeId} (h : Move strict b c) (hwf : b.WellFormed) (hn : b.isSealed n) :
    c.isSealed n := by
  cases h with
  | newBlock | enter | write | compute | place | leave => exact hn
  | read hb h =>
    unfold Builder.isSealed at hn ⊢
    rw [(tidy_read hwf hb h).evolves.sealedBlocks]
    exact hn
  | seals hb h =>
    obtain ⟨e, hr, rfl⟩ := sealBlock_spec hwf h
    refine (isSealed_mark e _ n).2 (.inr ?_)
    unfold Builder.isSealed at hn ⊢
    rw [hr.evolves.sealedBlocks]
    exact hn

theorem Moves.isSealed {n : NodeId} (h : Moves strict b c) (hwf : b.WellFormed)
    (hn : b.isSealed n) : c.isSealed n ∧ c.WellFormed := by
  induction h with
  | refl => exact ⟨hn, hwf⟩
  | tail _ hm ih => exact ⟨hm.isSealed ih.2 ih.1, hm.wf ih.2⟩

theorem Moves.ongoing (h : Moves strict b c) (ho : Ongoing strict b) : Ongoing strict c := by
  induction h with
  | refl => exact ho
  | tail _ hm ih => exact ⟨hm.idle ih.toIdle, hm.current ih.toIdle ih.current⟩

/-- An operation that may trap is made by four moves. -/
theorem moves_trapping {effect : NodeId} (hc : (b.graph.kind b.current).isBlock)
    (hops : ∀ a ∈ [lhs, rhs, effect], a < b.graph.size) :
    Moves strict b (b.trapping op lhs rhs effect) := by
  have hlt := lt_of_isBlock hc
  obtain ⟨one, ho⟩ : ∃ one, one = (b.place (.binary op) b.current [lhs, rhs, effect]).2 := ⟨_, rfl⟩
  have hs : one.graph.size = b.graph.size + 1 := by rw [ho, size_place]
  have hb : (one.graph.kind b.current).isBlock = true := by
    rw [ho, kind_place, if_neg hlt.ne, hc]
  obtain ⟨two, htwo⟩ : ∃ two, two = (one.place (.proj .effect) b.current [b.graph.size]).2 :=
    ⟨_, rfl⟩
  have hs' : two.graph.size = b.graph.size + 2 := by rw [htwo, size_place, hs]
  have hb' : (two.graph.kind b.current).isBlock = true := by
    rw [htwo, kind_place, hs, if_neg (Nat.lt_succ_of_lt hlt).ne, hb]
  have hr : b.trapping op lhs rhs effect =
      ((two.write .effect b.current (b.graph.size + 1)).place (.proj .value) b.current
        [b.graph.size]).2 := by
    rw [htwo, ho]
    rfl
  have hf : Move strict b one := by
    rw [ho]
    exact .place rfl hc hops
  have hsecond : Move strict one two := by
    rw [htwo]
    refine .place rfl hb fun a ha => ?_
    rw [mem_singleton.1 ha, hs]
    exact Nat.lt_succ_self _
  have ht : Move strict two (two.write .effect b.current (b.graph.size + 1)) :=
    .write hb' (hs' ▸ Nat.lt_succ_self _)
  rw [hr]
  refine .tail (.tail (.tail (.single hf) hsecond) ht) (.place rfl hb' fun a ha => ?_)
  rw [mem_singleton.1 ha]
  exact (Nat.lt_add_of_pos_right (by decide)).trans_eq hs'.symm

/-- **An answer is the result of moves.** -/
theorem moves_answer (h : Ongoing strict b) (hv : r.Valid strict b)
    (hanswer : b.answer r = .ok (n, c)) : Moves strict b c := by
  obtain ⟨hu, hb, ht⟩ := hv
  cases reply_of_answer hanswer with
  | newBlock role => exact .single (.newBlock role)
  | enter block => exact .single (.enter (hb block (.head _)))
  | make hk =>
    refine .single (.compute (Kind.isPlain_of_isShareable (Request.isShareable_of_kind? hk)) ?_ hu)
    rcases Request.home_of_kind? b.current hk with ⟨-, he⟩ | he
    · rw [he]
      exact h.wf.entry
    · rw [he]
      exact h.current
  | @trapping op lhs rhs effect d hop hread =>
    have hr := tidy_read h.wf h.current hread
    have hm : Move strict b d := .read h.current hread
    have hlt : ∀ a ∈ [lhs, rhs], a < d.graph.size := fun a ha =>
      (hu a ha).trans_le hr.evolves.size_le
    refine .trans (.single hm) (moves_trapping (hm.current h.toIdle h.current) ?_)
    simp only [forall_mem_cons] at hlt ⊢
    exact ⟨hlt.1, hlt.2.1, hr.value_lt, forall_mem_nil _⟩
  | leave hk =>
    obtain ⟨hterm, hexits, hto⟩ := Request.isTerminator_of_exit? hk
    exact .single (.leave hterm h.current hu fun a ha =>
      ⟨hb a (hto ▸ hexits ▸ ha), fun hs => ht hs a (hexits ▸ ha)⟩)
  | @ret result effect d hread =>
    have hr := tidy_read h.wf h.current hread
    have hm : Move strict b d := .read h.current hread
    refine .tail (.single hm) (.leave rfl (hm.current h.toIdle h.current) ?_ fun a ha =>
      ⟨hr.evolves.isBlock (hb a ha), fun hs => ?_⟩)
    · simp only [forall_mem_cons]
      exact ⟨hr.value_lt, Nat.lt_of_lt_of_le (hu result (.head _))
        hr.evolves.size_le, forall_mem_nil _⟩
    · unfold isSealed
      rw [hr.evolves.sealedBlocks]
      exact ht hs a ha
  | write slot block value =>
    exact .single (.write (hb block (.head _)) (hu value (.head _)))
  | read hread => exact .single (.read (hb _ (.head _)) hread)
  | seals hseal => exact .single (.seals (hb _ (.head _)) hseal)

theorem Run.moves (h : Run strict b c) (ho : Ongoing strict b) : Moves strict b c := by
  induction h with
  | refl => exact .refl
  | ask _ hv ha ih => exact ih.trans (moves_answer (ih.ongoing ho) hv ha)

theorem ongoing_init (strict : Bool) (name : String) (sharing : Bool) :
    Ongoing strict (init name sharing) :=
  ⟨idle_init strict name sharing, rfl⟩

theorem Run.ongoing {name : String} {sharing : Bool} (h : Run strict (init name sharing) b) :
    Ongoing strict b :=
  (h.moves (ongoing_init strict name sharing)).ongoing (ongoing_init strict name sharing)

/-! ## Retired merges -/

theorem exists_ne_of_two_le_merged {n : NodeId} (h : 2 ≤ (b.merged n).length) :
    ∃ x ∈ b.graph.operands n, ∃ y ∈ b.graph.operands n, x ≠ y ∧ x ≠ n ∧ y ≠ n := by
  match hm : b.merged n with
  | [] | [_] => simp [hm] at h
  | x :: y :: rest =>
    obtain ⟨hx, hxn⟩ := mem_merged.1 (hm ▸ mem_cons_self : x ∈ b.merged n)
    obtain ⟨hy, hyn⟩ := mem_merged.1
      (hm ▸ mem_cons_of_mem _ mem_cons_self : y ∈ b.merged n)
    refine ⟨x, hx, y, hy, fun he => ?_, hxn, hyn⟩
    unfold merged at hm
    cases hl : (b.graph.operands n).filter (· ≠ n) with
    | nil => rw [hl] at hm; cases hm
    | cons a l =>
      rw [hl, eraseDups_cons, List.cons.injEq] at hm
      have hmem : y ∈ (l.filter fun z => !z == a).eraseDups := hm.2 ▸ mem_cons_self
      simp [hm.1, he] at hmem

/-- **Retired merges never come back**, whatever is asked in whatever order.
Following what replaced a node ends, at a node that is not retired. Only
merges are retired, and they keep no operands. No read answers a retired merge
and no merge has one as an operand; and a merge that is neither retired nor
waiting in an unsealed block merges two nodes at least. -/
theorem Run.retired_merges_stay_retired {name : String} {sharing : Bool}
    (h : Run false (init name sharing) b) :
    (WellFounded fun m n => b.forwarded.lookup n = some m) ∧
    (∀ n, Relation.ReflTransGen (fun n m => b.forwarded.lookup n = some m) n (b.resolve n) ∧
      b.forwarded.lookup (b.resolve n) = none) ∧
    (∀ n m, b.forwarded.lookup n = some m →
      (b.graph.kind n).isPhi = true ∧ b.graph.operands n = []) ∧
    (∀ slot block n c, (b.graph.kind block).isBlock = true → b.read slot block = .ok (n, c) →
      c.forwarded.lookup n = none) ∧
    (∀ n, (b.graph.kind n).isPhi = true → ∀ a ∈ b.graph.operands n, b.forwarded.lookup a = none) ∧
    (∀ n, (b.graph.kind n).isPhi = true → b.forwarded.lookup n = none →
      (∀ p ∈ b.placeholders, p.phi = n → b.isSealed p.block = true) →
      ∃ x ∈ b.graph.operands n, ∃ y ∈ b.graph.operands n, x ≠ y ∧ x ≠ n ∧ y ≠ n) := by
  have hongoing := h.ongoing
  have hwf := hongoing.wf
  refine ⟨hwf.forwards.wellFounded, fun n => ?_, fun n m hn => ?_,
    fun slot block n c hblock hread => (tidy_read hwf hblock hread).value_stands, hwf.merges,
    fun n hn hs hwaits => ?_⟩
  · rw [resolve_eq_root hwf.forwards]
    exact ⟨hwf.forwards.reaches_root n, hwf.forwards.lookup_root n⟩
  · obtain ⟨hphi, hops, -⟩ := hwf.retired _ (mem_of_lookup_eq_some hn)
    exact ⟨hphi, hops⟩
  · rcases hongoing.settled.merging n hn hs List.not_mem_nil with ⟨q, hq, hqn⟩ | hmerged
    · exact absurd ((hongoing.settled.waiting q hq).symm.trans (hwaits q hq hqn)) nofun
    · exact exists_ne_of_two_le_merged hmerged

/-- A loop whose header is read before the way back is known: the merge made
there turns out to have one value only when the header is sealed. -/
def loopRequests : List Request :=
  [.newBlock "header", .jump 4, .enter 4, .read .effect 4, .jump 4, .seals 4]

/-- The merge of such a loop is retired for what the loop began with. -/
theorem loop_merge_stays_retired : ∃ b, Run false (init "f" true) b ∧ b.forwarded = [(6, 3)] ∧
    (b.graph.kind 6).isPhi = true ∧ b.graph.operands 6 = [] := by
  have hrun : (loopRequests.foldlM (ask? false) (init "f" true)).map (·.forwarded) =
      some [(6, 3)] := by decide +kernel
  obtain ⟨b, hb, hforwarded⟩ := Option.map_eq_some_iff.1 hrun
  have hrun := Run.refl.of_foldlM hb
  exact ⟨b, hrun, hforwarded,
    (Run.retired_merges_stay_retired hrun).2.2.1 6 3 (by rw [hforwarded]; rfl)⟩

end SsaCompiler.Builder
