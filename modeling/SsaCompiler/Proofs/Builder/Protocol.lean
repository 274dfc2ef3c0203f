import SsaCompiler.Proofs.Builder.Construction

/-!
# Reads find the definition that reaches them

A **construction** is a run of requests that keeps to a protocol: no
predecessor is added to a sealed block, nothing is written in a block that has
come to its end, a block is ended once, and every node is used where it is
there on every path of the finished graph. The order of the requests and the
shape of the control flow are free.

What a variable holds at a point of a path is told by the writes of the caller
alone: `reachingAt` goes back along the path to the last one. The main result
is that **a node answered to a read stands for what was written there**, along
every path to the block of the read: in the finished graph both lead back to
the same node at the same point of the path
(`Construction.read_finds_reaching_write`).
-/

namespace SsaCompiler

open List Option
open Graph (startBlock endBlock)

variable {last b : Builder} {block value : NodeId} {slot : Slot} {x : String} {t : Stage}

namespace Builder

namespace Request

/-- The block where a request uses nodes. -/
def place (b : Builder) : Request → NodeId
  | write _ block _ => block
  | _ => b.current

/-- The blocks that a request writes in or ends. -/
def touches (b : Builder) : Request → List NodeId
  | write _ block _ => [block]
  | binary op _ _ => if op.hasEffect then [b.current] else []
  | jump _ | condJump _ _ _ | ret _ => [b.current]
  | _ => []

/-- What a request writes for a variable in a block. -/
def wrote (block : NodeId) (name : String) : Request → Option NodeId
  | write (.var name') block' value => if block' = block ∧ name' = name then some value else none
  | _ => none

/-- **A request comes at the right time**: it makes sense, and it writes or ends
no block that has come to its end. -/
structure Timely (b : Builder) (r : Request) : Prop where
  valid : r.Valid true b
  opened : ∀ block ∈ r.touches b, b.Open block

/-- **A request keeps to the protocol** of a construction that comes to
`last`. -/
structure Orderly (last b : Builder) (r : Request) : Prop where
  valid : r.Valid true b
  opened : ∀ block ∈ r.touches b, b.Open block
  dominated : ∀ n ∈ r.uses, Dominates last.graph.preds (b.graph.blockOf n) (r.place b)

theorem Orderly.timely {r : Request} (h : r.Orderly last b) : r.Timely b := ⟨h.valid, h.opened⟩

end Request

/-- **A construction that comes to `last`**: requests that keep to the protocol
and are answered. -/
inductive Construction (last : Builder) : Builder → List Request → Builder → Prop
  | nil {b : Builder} : Construction last b [] b
  | cons {b c d : Builder} {r : Request} {rest : List Request} {n : Option NodeId}
      (horderly : r.Orderly last b) (hanswer : b.answer r = .ok (n, c))
      (hrest : Construction last c rest d) : Construction last b (r :: rest) d

/-- Ask for something that keeps to the protocol because it uses nodes of the
start block or of its own block only. -/
def askNear? (b : Builder) (r : Request) : Option Builder :=
  if r.Valid true b ∧ (∀ block ∈ r.touches b, ∀ n ∈ b.graph.ids,
      (b.graph.kind n).isTerminator = true → b.graph.blockOf n ≠ block) ∧
      ∀ n ∈ r.uses, b.graph.blockOf n = startBlock ∨ b.graph.blockOf n = r.place b then
    (b.answer r).toOption.map (·.2)
  else none

theorem Construction.of_foldlM {c : Builder} {requests : List Request}
    (h : requests.foldlM askNear? b = some c) : Construction last b requests c := by
  induction requests generalizing b with
  | nil => exact some.inj h ▸ .nil
  | cons r rest ih =>
    obtain ⟨e, he, hr⟩ := bind_eq_some_iff.1 h
    unfold askNear? at he
    split at he
    · rename_i hnear
      obtain ⟨hv, ho, hnear⟩ := hnear
      obtain ⟨⟨n, e'⟩, ha, rfl⟩ := map_eq_some_iff.1 he
      refine .cons ⟨hv, fun block hb n hn => ?_, fun n hn => ?_⟩
        (Except.toOption_eq_some.1 ha) (ih hr)
      · exact ho block hb n (mem_range.2 (lt_of_isTerminator hn)) hn
      · rcases hnear n hn with he | he
        · rw [he]
          exact startBlock_dominates _ _
        · rw [he]
          exact .refl _ _
    · cases he

end Builder

/-- What was written last for a variable in a block. -/
def lastWrite (requests : List Builder.Request) (name : String) (block : NodeId) : Option NodeId :=
  requests.reverse.findSome? (·.wrote block name)

/-- **The write that reaches the end of a path**: what was written, and the part
of the path that leads there. -/
def reachingWrite (written : NodeId → Option NodeId) : Path → Option (NodeId × Path)
  | [] => (written startBlock).map (·, [])
  | edge :: path =>
    match written edge.1 with
    | some value => some (value, edge :: path)
    | none => reachingWrite written path

/-- **The write that reaches a point** in the last block of a path, where `sofar`
are the writes before that point and `all` the writes of the whole
construction. -/
def reachingAt (sofar all : NodeId → Option NodeId) (path : Path) : Option (NodeId × Path) :=
  match sofar (Path.last path), path with
  | some value, _ => some (value, path)
  | none, [] => none
  | none, _ :: rest => reachingWrite all rest

namespace Stage

open Builder

variable {s t : Stage} {F : Blueprint} {c : Builder} {r : Request} {n : Option NodeId}
  {kind : Kind} {operands : List NodeId}

/-- **What an answer comes to**: steps that write what the request says, and that
keep a stage sound if all that the request uses is there on every path. -/
structure Answers (r : Request) (s t : Stage) : Prop where
  steps : Steps s t
  written : ∀ block name, t.written block (.var name) =
    (r.wrote block name).or (s.written block (.var name))
  /-- A request without nodes writes nothing. -/
  unwritten : r.uses = [] → t.written = s.written
  sound : ∀ F : Blueprint, (∀ channel m, F.Fits channel m) →
    (∀ a ∈ r.uses, F.Dom (F.block a) (r.place s.toBuilder)) → s.Sound F → t.Agrees F → t.Sound F

theorem mayMake_of_dom (hf : ∀ channel m, F.Fits channel m)
    (hdom : ∀ a ∈ operands, F.Dom (F.block a) block) : MayMake F kind block operands :=
  ⟨hdom, fun _ a _ channel _ => hf channel a⟩

/-- A node that may be shared. -/
theorem answers_make (ho : Ongoing true s.toBuilder) (ht : r.Timely s.toBuilder)
    (hk : r.kind? = some kind) :
    Answers r s (s.on (s.toBuilder.lift (s.toDraft.add kind (r.home s.current) r.uses)).2) := by
  have hp := Kind.isPlain_of_isShareable (Request.isShareable_of_kind? hk)
  have hh := Request.home_of_kind? s.current hk
  have hb : (s.graph.kind (r.home s.current)).isBlock = true := by
    rcases hh with ⟨-, he⟩ | he
    · rw [he]
      exact ho.wf.entry
    · rw [he]
      exact ho.current
  have hplace : r.place s.toBuilder = s.current := by
    cases r <;> first | rfl | cases hk
  have hw : ∀ block name, r.wrote block name = none := fun block name => by
    cases r <;> first | rfl | cases hk
  refine ⟨.single (.compute hp hb ht.valid.uses), fun block name => by
    rw [hw]; rfl, fun _ => rfl, fun F hf hdom hs hagrees => ?_⟩
  refine hs.compute (mayMake_of_dom hf fun a ha => ?_) ht.valid.uses
    (Kind.isPlain_iff.1 hp).2.1 hagrees
  rcases hh with ⟨hnil, -⟩ | he
  · exact absurd (hnil ▸ ha) not_mem_nil
  · rw [he, ← hplace]
    exact hdom a ha

theorem answers_read (hwf : s.WellFormed) (hb : (s.graph.kind block).isBlock)
    (hr : s.read slot block = .ok (value, c))
    (hw : ∀ block name, r.wrote block name = none) : Answers r s (s.on c) where
  steps := .single (.read hb hr)
  written := fun block name => by rw [hw]; rfl
  unwritten := fun _ => rfl
  sound := fun F _ _ hs ha => (rightRead_read hwf hb hr hs ha).1

theorem timely_of_evolves {old : Nat} (htimely : r.Timely s.toBuilder)
    (hev : Evolves old s.toBuilder c) : r.Timely c := by
  obtain ⟨⟨hu, hblocks, ht⟩, ho⟩ := htimely
  have htouches : r.touches c = r.touches s.toBuilder := by
    cases r <;> unfold Request.touches <;> first | rfl | rw [hev.current]
  refine ⟨⟨fun n hn => (hu n hn).trans_le hev.size_le,
    fun n hn => hev.isBlock (hblocks n hn), fun hs n hn => ?_⟩, fun block hb n hn => ?_⟩
  · unfold isSealed
    rw [hev.sealedBlocks]
    exact ht hs n hn
  · rw [htouches] at hb
    by_cases hlt : n < s.graph.size
    · rw [hev.kind n hlt] at hn
      rw [hev.blockOf n hlt]
      exact ho block hb n hn
    · -- What a read adds ends no block.
      rcases hev.fresh n (not_lt.1 hlt) with hphi | hk
      · cases (Kind.isTerminator_eq_false_of_isPhi hphi).symm.trans hn
      · rw [hk] at hn
        cases hn

theorem answers_leave (kind : Kind) (operands : List NodeId) (ho : Ongoing true s.toBuilder)
    (htimely : r.Timely s.toBuilder) (hk : kind.isTerminator) (he : kind.exits = r.targets)
    (hb : r.blocks = r.targets) (hlt : ∀ a ∈ operands, a < s.graph.size) :
    Steps s (s.on (s.toBuilder.leave kind s.current operands)) ∧
      ∀ F : Blueprint, (∀ channel m, F.Fits channel m) →
        (∀ a ∈ operands, F.Dom (F.block a) s.current) → s.Sound F →
        (s.on (s.toBuilder.leave kind s.current operands)).Agrees F →
        (s.on (s.toBuilder.leave kind s.current operands)).Sound F := by
  have hphi : kind.isPhi = false := by
    cases kind <;> first | rfl | cases hk
  have htargets : ∀ target ∈ kind.exits, (s.graph.kind target).isBlock = true ∧
      s.isSealed target = false := fun target ht => by
    rw [he] at ht
    exact ⟨htimely.valid.blocks target (hb.symm ▸ ht), htimely.valid.targets rfl target ht⟩
  exact ⟨.single (.leave hk ho.current hlt htargets), fun F hf hdom hs ha =>
    hs.leave (mayMake_of_dom hf hdom) hlt hphi (fun target ht => (htargets target ht).1) ha⟩

section Effect

variable {effect : NodeId}

/-- Where a request begins with a read of the effect chain, the rest of it goes
on from there. -/
theorem ongoing_of_read (ho : Ongoing true s.toBuilder)
    (hread : s.read .effect s.current = .ok (effect, c)) :
    Ongoing true c ∧ effect < c.graph.size ∧ c.current = s.current ∧
      Evolves s.graph.size s.toBuilder c := by
  have hr := tidy_read ho.wf ho.current hread
  exact ⟨Moves.ongoing (.single (.read ho.current hread)) ho, hr.value_lt,
    hr.evolves.current, hr.evolves⟩

theorem answers_trapping {op : BinOp} {lhs rhs : NodeId} (hop : op.hasEffect)
    (ho : Ongoing true s.toBuilder) (ht : (Request.binary op lhs rhs).Timely s.toBuilder)
    (hr : s.read .effect s.current = .ok (effect, c)) :
    Answers (.binary op lhs rhs) s ((s.on c).trapping op lhs rhs effect) := by
  obtain ⟨ho', he, hc, hev⟩ := ongoing_of_read ho hr
  have ht' := timely_of_evolves ht hev
  have hopen : c.Open c.current := ht'.opened c.current (by simp [Request.touches, hop])
  have hops : ∀ a ∈ [lhs, rhs, effect], a < c.graph.size := by
    simp only [forall_mem_cons]
    exact ⟨ht'.valid.uses lhs (by simp [Request.uses]),
      ht'.valid.uses rhs (by simp [Request.uses]), he,
      fun a ha => absurd ha not_mem_nil⟩
  have hs : Steps (s.on c) ((s.on c).trapping op lhs rhs effect) :=
    steps_trapping ho'.current hopen hops
  refine ⟨.head (.read ho.current hr) hs,
    fun block name => if_neg fun h => Slot.noConfusion h.2, fun hnil => absurd hnil nofun,
    fun F hf hd hsound hagrees => ?_⟩
  have hagrees' := agrees_of_grows hagrees (hs.grows ho'.wf) ho'.wf
  obtain ⟨hsound', hh⟩ := rightRead_read ho.wf ho.current hr hsound
    hagrees'
  refine Sound.trapping hsound' ho'.wf ho'.current hopen hops
    (mayMake_of_dom hf ?_) hagrees
  show ∀ a ∈ [lhs, rhs, effect], F.Dom (F.block a) c.current
  rw [hc]
  simp only [forall_mem_cons]
  exact ⟨hd lhs (by simp [Request.uses]), hd rhs (by simp [Request.uses]), hh.dom,
    fun a ha => absurd ha not_mem_nil⟩

theorem answers_ret {result : NodeId} (ho : Ongoing true s.toBuilder)
    (ht : (Request.ret result).Timely s.toBuilder)
    (hr : s.read .effect s.current = .ok (effect, c)) :
    Answers (.ret result) s ((s.on c).on (c.leave .ret c.current [effect, result])) := by
  obtain ⟨ho', he, hc, hev⟩ := ongoing_of_read ho hr
  have ht' := timely_of_evolves ht hev
  have hresult := ht'.valid.uses result (.head _)
  obtain ⟨hs, hl⟩ := answers_leave (s := s.on c) .ret [effect, result] ho' ht'
    rfl rfl rfl (by
      simp only [forall_mem_cons]
      exact ⟨he, hresult, fun a ha => absurd ha not_mem_nil⟩)
  refine ⟨.head (.read ho.current hr) hs, fun _ _ => rfl, fun _ => rfl,
    fun F hf hdom hsound hagrees => ?_⟩
  have hagrees' := agrees_of_grows hagrees (hs.grows ho'.wf) ho'.wf
  obtain ⟨hsound', hh⟩ := rightRead_read ho.wf ho.current hr hsound
    hagrees'
  refine hl F hf ?_ hsound' hagrees
  show ∀ a ∈ [effect, result], F.Dom (F.block a) c.current
  rw [hc]
  simp only [forall_mem_cons]
  exact ⟨hh.dom, hdom result (.head _), fun a ha => absurd ha not_mem_nil⟩

end Effect

theorem answers_write (ht : (Request.write slot block value).Timely s.toBuilder) :
    Answers (.write slot block value) s (s.put slot block value) := by
  have hv := ht.valid
  have hlt := hv.uses value (.head _)
  have ho := ht.opened block (.head _)
  refine ⟨.single (.write (hv.blocks block (.head _)) ho hlt),
    fun block' name => ?_, fun hnil => absurd hnil nofun, fun F hf hdom hs _ =>
      hs.put (hdom value (.head _)) (hf _ _)⟩
  show (if block' = block ∧ Slot.var name = slot then some value else _) = _
  cases slot with
  | effect => exact if_neg fun h => absurd h.2 nofun
  | var name' =>
    show _ = (if block = block' ∧ name' = name then some value else none).or _
    by_cases h : block' = block ∧ name = name'
    · rw [if_pos ⟨h.1, congrArg _ h.2⟩, if_pos ⟨h.1.symm, h.2.symm⟩]
      rfl
    · rw [if_neg fun h' => h ⟨h'.1, Slot.var.inj h'.2⟩, if_neg fun h' => h ⟨h'.1.symm, h'.2.symm⟩]
      rfl

/-- **A request that comes at the right time is answered by steps.** -/
theorem exists_answer (ho : Ongoing true s.toBuilder) (ht : r.Timely s.toBuilder)
    (hanswer : s.toBuilder.answer r = .ok (n, c)) :
    ∃ t : Stage, t.toBuilder = c ∧ Answers r s t := by
  have hwf := ho.wf
  have hv := ht.valid
  cases reply_of_answer hanswer with
  | newBlock role =>
    exact ⟨s.on (s.newBlock role).2, rfl, .single (.newBlock role), fun _ _ => rfl,
      fun _ => rfl, fun F _ _ hs _ => hs.newBlock role⟩
  | enter block =>
    exact ⟨s.on (s.enter block), rfl, .single (.enter (hv.blocks block (.head _))), fun _ _ => rfl,
      fun _ => rfl, fun F _ _ hs _ => { hs with }⟩
  | make hk => exact ⟨_, rfl, answers_make ho ht hk⟩
  | trapping hop hr => exact ⟨_, rfl, answers_trapping hop ho ht hr⟩
  | @leave _ kind hk =>
    obtain ⟨hterm, he, hblocks⟩ := Request.isTerminator_of_exit? hk
    have hp : r.place s.toBuilder = s.current := by
      cases r <;> first | rfl | cases hk
    have hw : ∀ block name, r.wrote block name = none := fun block name => by
      cases r <;> first | rfl | cases hk
    obtain ⟨hsteps, hs⟩ := answers_leave kind r.uses ho ht hterm he hblocks
      hv.uses
    exact ⟨s.on (s.leave kind s.current r.uses), rfl, hsteps,
      fun block name => by rw [hw]; rfl, fun _ => rfl, fun F hf hdom =>
        hs F hf fun a ha => hp ▸ hdom a ha⟩
  | ret hr => exact ⟨_, rfl, answers_ret ho ht hr⟩
  | write => exact ⟨_, rfl, answers_write ht⟩
  | read hr =>
    exact ⟨s.on c, rfl, answers_read hwf (hv.blocks _ (.head _)) hr fun _ _ => rfl⟩
  | seals hseal =>
    have hb := hv.blocks _ (.head _)
    exact ⟨s.on c, rfl, .single (.seals hb hseal), fun _ _ => rfl, fun _ => rfl,
      fun F _ _ hs hagrees => sealBlock_sound hwf hseal hb hs hagrees⟩

end Stage

namespace Builder

open Stage

variable {last b c d : Builder} {s t : Stage} {requests before after : List Request}
  {name : String} {sharing : Bool} {block n : NodeId} {path : Path}

theorem lastWrite_cons (r : Request) (rest : List Request) (name : String) (block : NodeId) :
    lastWrite (r :: rest) name block = (lastWrite rest name block).or (r.wrote block name) := by
  have hs : [r].findSome? (·.wrote block name) = r.wrote block name := by
    rw [findSome?_cons]
    cases r.wrote block name <;> rfl
  unfold lastWrite
  rw [reverse_cons, findSome?_append, hs]

/-- What holds of the stages of a construction. -/
structure Construction.Lifted (last : Builder) (requests : List Request) (s t : Stage) : Prop where
  steps : Steps s t
  ongoing : Ongoing true t.toBuilder
  written : ∀ block name, t.written block (.var name) =
    (lastWrite requests name block).or (s.written block (.var name))
  sound : ∀ F : Blueprint, F.preds = last.graph.preds → (∀ channel m, F.Fits channel m) →
    s.Sound F → t.Agrees F → t.Sound F

/-- **A construction goes through stages.** -/
theorem Construction.exists_stage (h : Construction last b requests c) (hs : s.toBuilder = b)
    (ho : Ongoing true b) : ∃ t : Stage, t.toBuilder = c ∧ Lifted last requests s t := by
  induction h generalizing s with
  | nil => exact ⟨s, hs, .refl, hs ▸ ho, fun _ _ => rfl, fun _ _ _ hsound _ => hsound⟩
  | @cons b c d r rest n horderly hanswer hrest ih =>
    subst hs
    obtain ⟨t, ht, hanswers⟩ := exists_answer ho horderly.timely hanswer
    have ho' : Ongoing true c := (moves_answer ho horderly.valid hanswer).ongoing ho
    obtain ⟨u, hu, hl⟩ := ih ht ho'
    refine ⟨u, hu, hanswers.steps.trans hl.steps, hl.ongoing, fun block name => ?_,
      fun F hp hf hsound hagrees => ?_⟩
    · rw [hl.written, hanswers.written, lastWrite_cons, Option.or_assoc]
    · have hwf : t.WellFormed := ht ▸ ho'.wf
      have hagrees' := agrees_of_grows hagrees (hl.steps.grows hwf) hwf
      have hb := (agrees_of_grows hagrees' (hanswers.steps.grows ho.wf) ho.wf).block
      refine hl.sound F hp hf (hanswers.sound F hf (fun a ha => ?_) hsound hagrees')
        hagrees
      unfold Blueprint.Dom
      rw [hp, hb a (horderly.valid.uses a ha)]
      exact horderly.dominated a ha

theorem lastWrite_append (before after : List Request) (name : String) (block : NodeId) :
    lastWrite (before ++ after) name block =
      (lastWrite after name block).or (lastWrite before name block) := by
  unfold lastWrite
  rw [reverse_append, findSome?_append]

theorem Construction.dominated_of_lastWrite (h : Construction last b requests c)
    (ho : Ongoing true b) (hw : lastWrite requests name block = some value) :
    value < c.graph.size ∧ Dominates last.graph.preds (c.graph.blockOf value) block := by
  induction h with
  | nil => cases hw
  | @cons b c d r rest n horderly ha hrest ih =>
    have ho' : Ongoing true c := (moves_answer ho horderly.valid ha).ongoing ho
    rw [lastWrite_cons] at hw
    cases hr : lastWrite rest name block with
    | some value' =>
      rw [hr] at hw
      obtain rfl := some.inj hw
      exact ih ho' hr
    | none =>
      rw [hr] at hw
      obtain ⟨t, ht, hl⟩ := (Construction.cons horderly ha hrest).exists_stage
        (s := ⟨b, fun _ _ => none⟩) rfl ho
      have hg := hl.steps.grows ho.wf
      cases r with
      | write slot block' value' =>
        cases slot with
        | effect => cases hw
        | var name' =>
          have hw : (if block' = block ∧ name' = name then some value' else none) = some value := hw
          split at hw
          · rename_i he
            obtain rfl := some.inj hw
            have hlt := horderly.valid.uses value' (.head _)
            subst ht
            refine ⟨hlt.trans_le hg.size_le, ?_⟩
            rw [hg.blockOf value' hlt, ← he.1]
            exact horderly.dominated value' (.head _)
          · cases hw
      | _ => cases hw

end Builder

theorem Graph.lt_size_of_chase {g : Graph} (hg : g.Coherent) {path : Path} {n : NodeId}
    {origin : Origin} (h : g.chase path n = some origin) (hn : n < g.size) : origin.1 < g.size := by
  induction path generalizing n with
  | nil =>
    unfold chase at h
    split at h
    · cases h
    · exact some.inj h ▸ hn
  | cons edge path ih =>
    unfold chase at h
    split at h
    · exact ih h hn
    · split at h
      · obtain ⟨a, ha, hc⟩ := bind_eq_some_iff.1 h
        exact ih hc (hg.closed n a (mem_of_getElem? ha))
      · exact some.inj h ▸ hn

namespace Stage

variable {t : Stage} {F : Blueprint} {n : NodeId} {path : Path} {slot : Slot}

theorem Sound.chase_resolve (h : t.Sound F) (hwf : t.WellFormed) (ha : t.Agrees F)
    (hp : IsPath F.preds path) (hsealed : ∀ block, Path.Visits path block → t.isSealed block)
    (hlt : n < t.graph.size) (hd : F.Dom (F.block n) (Path.last path)) :
    t.graph.chase path (t.toBuilder.resolve n) = some (F.origin path n) := by
  have hs := Builder.Sound.same_resolve h hwf n
  rw [hs.origin path hp hd]
  exact h.chase_eq hwf ha hp hsealed (hwf.resolve_lt hlt) (hwf.stands_resolve n)
    (hs.dom.trans hd)

/-- **What reaches the end of a path leads back to the write that reaches it.** -/
theorem Sound.chase_reachingWrite (h : t.Sound F) (hwf : t.WellFormed)
    (ha : t.Agrees F) {written : NodeId → Option NodeId}
    (hw : ∀ block, F.written block slot = written block)
    (hd : ∀ block value, written block = some value →
      value < t.graph.size ∧ F.Dom (F.block value) block) (hp : IsPath F.preds path)
    (hs : ∀ block, Path.Visits path block → t.isSealed block) :
    match reachingWrite written path with
    | some (value, path') =>
      t.graph.chase path' (t.toBuilder.resolve value) = some (F.reaching path slot)
    | none => F.reaching path slot = (F.unset slot, 0) := by
  have hf : ∀ {path : Path} {value : NodeId}, IsPath F.preds path →
      (∀ block, Path.Visits path block → t.isSealed block = true) →
      written (Path.last path) = some value →
      t.graph.chase path (t.resolve value) = some (F.reaching path slot) := by
    intro path value hp hs hvalue
    obtain ⟨hlt, hdom⟩ := hd _ value hvalue
    rw [Blueprint.reaching_eq, hw, hvalue]
    exact h.chase_resolve hwf ha hp hs hlt hdom
  induction hp with
  | nil =>
    unfold reachingWrite
    cases hvalue : written startBlock with
    | none =>
      show F.reaching [] slot = _
      rw [Blueprint.reaching_eq, hw]
      exact hvalue ▸ rfl
    | some value => exact hf .nil hs hvalue
  | @cons path block index hp he ih =>
    unfold reachingWrite
    cases hvalue : written block with
    | none =>
      have hr : F.reaching ((block, index) :: path) slot = F.reaching path slot := by
        rw [Blueprint.reaching_eq, hw]
        show Option.elim (written block) _ _ = _
        rw [hvalue]
        rfl
      rw [hr]
      exact ih fun block' hv => hs block' (.inr hv)
    | some value => exact hf (hp.cons he) hs hvalue

end Stage

namespace Builder

open Stage

variable {b c d : Builder} {before after : List Request} {name : String} {sharing : Bool}
  {block n : NodeId} {path : Path}

/-- The stages of a construction with a read in between: the stage before the
read, and the last one, whose blueprint is right about both. -/
structure Construction.Around (before after : List Request) (x : String) (block n : NodeId)
    (b c d : Builder) (s t : Stage) : Prop where
  first : s.toBuilder = b
  last : t.toBuilder = d
  sofar : ∀ block', s.written block' (.var x) = lastWrite before x block'
  all : ∀ block', t.written block' (.var x) = lastWrite (before ++ after) x block'
  wf : d.WellFormed
  agrees : t.Agrees (t.blueprint (fun _ => True) d.graph.size)
  sound : t.Sound (t.blueprint (fun _ => True) d.graph.size)
  holds : (t.blueprint (fun _ => True) d.graph.size).Holds s.written (.var x) block n
  isBlock : (d.graph.kind block).isBlock = true
  answer_lt : n < d.graph.size
  dominated : ∀ block' value, lastWrite before x block' = some value ∨
    lastWrite (before ++ after) x block' = some value →
    value < d.graph.size ∧ Dominates d.graph.preds (d.graph.blockOf value) block'

theorem Construction.exists_around (hbefore : Construction d (init name sharing) before b)
    (hb : (b.graph.kind block).isBlock) (hr : b.read (.var x) block = .ok (n, c))
    (hafter : Construction d c after d) :
    ∃ s t : Stage, Around before after x block n b c d s t := by
  have hi := ongoing_init true name sharing
  obtain ⟨s, rfl, hs⟩ := hbefore.exists_stage (s := Stage.first name sharing) rfl hi
  have ho := hs.ongoing
  have hstep : Step s (s.on c) := .read hb hr
  have ho' : Ongoing true c := Moves.ongoing (.single (.read hb hr)) ho
  obtain ⟨t, rfl, ht⟩ := hafter.exists_stage (s := s.on c) rfl ho'
  -- The start block was sealed from the beginning, so it got no predecessors.
  have hg := hs.steps.grows hi.wf
  have hgrowsC := hstep.grows ho.wf
  have hgrows := ht.steps.grows ho'.wf
  have hgrowsAll := (hg.trans hgrowsC hi.wf).trans hgrows hi.wf
  have he : t.graph.operands startBlock = [] :=
    hgrowsAll.sealedJumps startBlock rfl rfl
  have hf : ∀ channel n, (t.blueprint (fun _ => True) t.graph.size).Fits channel n :=
    fun channel _ => by cases channel <;> trivial
  have ha : t.Agrees (t.blueprint (fun _ => True) t.graph.size) :=
    agrees_blueprint ht.ongoing.wf he (fun n _ channel => hf channel n)
      (fun _ _ => trivial) (fun n channel _ => hf channel n) fun _ _ _ channel _ _ => hf channel
  have hagreesC := agrees_of_grows ha hgrows ho'.wf
  have hagreesS := agrees_of_grows hagreesC hgrowsC ho.wf
  have hagreesFirst := agrees_of_grows hagreesS hg hi.wf
  have hsoundS := hs.sound _ rfl hf (sound_first hagreesFirst) hagreesS
  obtain ⟨hsoundC, hh⟩ := rightRead_read ho.wf hb hr hsoundS hagreesC
  have hsofar : ∀ block', s.written block' (.var x) = lastWrite before x block' := fun block' => by
    have hn : (Stage.first name sharing).written block' (.var x) = none :=
      if_neg fun h => absurd h.2 nofun
    rw [hs.written, hn, or_none]
  have hanswer := (tidy_read ho.wf hb hr).value_lt
  have hgrowsS := hgrowsC.trans hgrows ho.wf
  have hd : ∀ block' value, lastWrite before x block' = some value →
      value < t.graph.size ∧ Dominates t.graph.preds (t.graph.blockOf value) block' :=
    fun block' value hw => by
      obtain ⟨hlt, hdom⟩ := hbefore.dominated_of_lastWrite hi hw
      exact ⟨hlt.trans_le hgrowsS.size_le, (hgrowsS.blockOf value hlt).symm ▸ hdom⟩
  refine ⟨s, t, rfl, rfl, hsofar, fun block' => ?_, ht.ongoing.wf, ha,
    ht.sound _ rfl hf hsoundC ha, hh, hgrowsS.isBlock hb,
    hanswer.trans_le hgrows.size_le, fun block' value hw => ?_⟩
  · rw [ht.written, lastWrite_append, written_on, hsofar]
  · refine hw.elim (hd block' value) fun hw => ?_
    rw [lastWrite_append] at hw
    cases hwriteAfter : lastWrite after x block' with
    | some value' =>
      rw [hwriteAfter] at hw
      cases hw
      exact hafter.dominated_of_lastWrite ho' hwriteAfter
    | none =>
      rw [hwriteAfter] at hw
      exact hd block' value hw

/-- What stands for a variable that was never written is an undefined value, in the start
block like the merge that was retired for it. -/
theorem unset_spec (value : NodeId → Prop) (hs : t.Sound (t.blueprint value t.graph.size))
    (h : (t.blueprint value t.graph.size).unset slot < t.graph.size) :
    t.graph.kind ((t.blueprint value t.graph.size).unset slot) = .undefined ∧
      t.graph.blockOf ((t.blueprint value t.graph.size).unset slot) = startBlock := by
  unfold Stage.blueprint at h ⊢
  cases hf : t.forwarded.find? fun e => t.graph.blockOf e.1 = startBlock ∧
      t.slotOf e.1 = some slot ∧ t.graph.kind e.2 = .undefined with
  | none =>
    simp only [hf, map_none] at h
    exact absurd h (Nat.lt_irrefl _)
  | some e =>
    simp only [hf, map_some]
    have hfound := find?_some hf
    obtain ⟨hstart, -, hk⟩ := of_decide_eq_true hfound
    have hsame := hs.same e (mem_of_find?_eq_some hf)
    exact ⟨hk, hsame.dom [] .nil hstart.symm⟩

/-- **Around a read**: along a path to its block, through sealed blocks, the answer
leads back to the write that reaches the read, or to an undefined value. -/
theorem Construction.Around.exists_origin {s : Stage}
    (h : Around before after x block n b c d s t) (hp : IsPath d.graph.preds path)
    (hl : Path.last path = block)
    (hsealed : ∀ block', Path.Visits path block' → d.isSealed block') :
    ∃ origin, d.graph.chase path (d.resolve n) = some origin ∧
      match reachingAt (lastWrite before x) (lastWrite (before ++ after) x) path with
      | some (value, path') => d.graph.chase path' (d.resolve value) = some origin
      | none => origin.2 = 0 ∧ origin.1 < d.graph.size ∧ d.graph.kind origin.1 = .undefined ∧
        d.graph.blockOf origin.1 = startBlock := by
  obtain ⟨hs, ht, hsofar, hall, hwf, ha, hsound, hh, -, hn, hd⟩ := h
  subst hs ht
  have hc := hsound.chase_resolve hwf ha hp hsealed hn (hl.symm ▸ hh.dom)
  rw [hh.origin path hp hl] at hc
  refine ⟨_, hc, ?_⟩
  unfold Blueprint.current at hc ⊢
  rw [hsofar] at hc ⊢
  unfold reachingAt
  cases hvalue : lastWrite before x (Path.last path) with
  | some value =>
    obtain ⟨hlt, hdom⟩ := hd _ value (.inl hvalue)
    exact hsound.chase_resolve hwf ha hp hsealed hlt hdom
  | none =>
    rw [hvalue] at hc
    have hu : ∀ {origin : Origin}, t.graph.chase path (t.resolve n) = some origin →
        origin = ((t.blueprint (fun _ => True) t.graph.size).unset (.var x), 0) →
        origin.2 = 0 ∧ origin.1 < t.graph.size ∧ t.graph.kind origin.1 = .undefined ∧
          t.graph.blockOf origin.1 = startBlock := by
      rintro _ hc rfl
      have hlt := Graph.lt_size_of_chase hwf.coherent hc (hwf.resolve_lt hn)
      exact ⟨rfl, hlt, unset_spec (fun _ => True) hsound hlt⟩
    cases path with
    | nil => exact hu hc rfl
    | cons edge rest =>
      have hr := hsound.chase_reachingWrite hwf ha hall
        (fun block' value hw => hd block' value (.inr hw))
        (hp.of_suffix (suffix_cons edge rest)) fun block' hv => hsealed block' (.inr hv)
      show match reachingWrite (lastWrite (before ++ after) x) rest with
        | some (value, path') => _
        | none => _
      cases hw : reachingWrite (lastWrite (before ++ after) x) rest with
      | none =>
        rw [hw] at hr
        exact hu hc hr
      | some found =>
        rw [hw] at hr
        exact hr

/-- Every block on a path was given a node, namely the jump that leaves it, but
for the last one. -/
theorem isSealed_of_visits (hwf : d.WellFormed) (hentry : d.isSealed startBlock)
    (hg : ∀ m < d.graph.size, (d.graph.kind m).isBlock = false →
      d.graph.blockOf m ≠ endBlock → d.isSealed (d.graph.blockOf m))
    (hp : IsPath d.graph.preds path)
    (hend : d.isSealed endBlock ∨ ¬ Path.Visits path endBlock)
    (hb : (d.graph.kind (Path.last path)).isBlock) (hl : d.isSealed (Path.last path))
    (h : Path.Visits path block) :
    d.isSealed block := by
  induction hp with
  | nil => exact h ▸ hentry
  | @cons path block' index hp hedge ih =>
    rcases h with rfl | h
    · exact hl
    · unfold Graph.preds at hedge
      rw [getElem?_map] at hedge
      obtain ⟨jump, hj, hh⟩ := map_eq_some_iff.1 hedge
      have hm := mem_of_getElem? hj
      have hlt := hwf.coherent.closed block' jump hm
      have hk := Kind.isBlock_eq_false_of_isTerminator (hwf.jumps block' hb jump hm)
      refine ih (hend.imp_right fun hn hv => hn (.inr hv)) (hh ▸ hwf.home jump hlt) ?_ h
      by_cases he : d.graph.blockOf jump = endBlock
      · refine hend.elim (fun hs => hh ▸ he ▸ hs) fun hn => absurd ?_ hn
        exact .inr (he ▸ hh ▸ Path.visits_last path)
      · exact hh ▸ hg jump hlt hk he

/-- **A read finds the definition that reaches it.** Along every path to the
block of the read, the answer leads back to the same node at the same point as
what was written last before the read; where nothing was written on the path,
it leads back to an undefined value. Blocks that were given nodes and the block
of the read are sealed in the end. Of the end block that is not asked, since it
is left to the returns; but if it is not sealed, its merges stay without
operands, so no path may lead through it. -/
theorem Construction.read_finds_reaching_write {x : String}
    (hbefore : Construction d (init name sharing) before b)
    (hblock : (b.graph.kind block).isBlock = true)
    (hread : b.read (.var x) block = .ok (n, c)) (hafter : Construction d c after d)
    (hgiven : ∀ m < d.graph.size, (d.graph.kind m).isBlock = false →
      d.graph.blockOf m ≠ Graph.endBlock → d.isSealed (d.graph.blockOf m) = true)
    (hsealed : block ≠ Graph.endBlock → d.isSealed block = true)
    (hpath : IsPath d.graph.preds path) (hlast : Path.last path = block)
    (hend : d.isSealed Graph.endBlock = true ∨ ¬ Path.Visits path Graph.endBlock) :
    ∃ origin, d.graph.chase path (d.resolve n) = some origin ∧
      match reachingAt (lastWrite before x) (lastWrite (before ++ after) x) path with
      | some (value, path') => d.graph.chase path' (d.resolve value) = some origin
      | none => origin.2 = 0 ∧ origin.1 < d.graph.size ∧ d.graph.kind origin.1 = .undefined := by
  obtain ⟨s, t, haround⟩ := hbefore.exists_around hblock hread hafter
  have hvisited : ∀ block', Path.Visits path block' → d.isSealed block' = true := fun block' => by
    have hentry : d.isSealed Graph.startBlock = true := haround.last ▸ haround.sound.entry
    refine isSealed_of_visits haround.wf hentry hgiven hpath hend
      (hlast ▸ haround.isBlock) ?_
    rw [hlast]
    by_cases he : block = Graph.endBlock
    · exact hend.elim (he ▸ ·) fun hnot => absurd (he ▸ hlast ▸ Path.visits_last path) hnot
    · exact hsealed he
  obtain ⟨origin, hchase, hreach⟩ := haround.exists_origin hpath hlast hvisited
  refine ⟨origin, hchase, ?_⟩
  revert hreach
  cases reachingAt (lastWrite before x) (lastWrite (before ++ after) x) path with
  | none => exact fun ⟨hzero, hlt, hkind, _⟩ => ⟨hzero, hlt, hkind⟩
  | some found => exact id

/-- A loop that sets a variable: what comes before the variable is read in its
header, and what comes after. -/
def loopBefore : List Request :=
  [.constInt 7, .write (.var "x") 0 4, .newBlock "header", .jump 5, .enter 5]

def loopAfter : List Request :=
  [.constInt 1, .write (.var "x") 5 8, .jump 5, .seals 5]

/-- Around the loop once more, the read finds what the loop has written. -/
theorem loop_read_finds_reaching_write : ∃ b c d,
    Construction d (init "f" true) loopBefore b ∧ b.read (.var "x") 5 = .ok (7, c) ∧
    Construction d c loopAfter d ∧ d.graph.operands 7 = [4, 8] ∧
    ∃ origin, d.graph.chase [(5, 1), (5, 0)] (d.resolve 7) = some origin ∧
      d.graph.chase [(5, 0)] (d.resolve 8) = some origin := by
  have hrun : (do
      let b ← loopBefore.foldlM askNear? (init "f" true)
      let r ← (b.read (.var "x") 5).toOption
      let d ← loopAfter.foldlM askNear? r.2
      pure (r.1, (b.graph.kind 5).isBlock, d.graph.operands 7, d.isSealed 5, d.graph.preds 5,
        d.graph.ids.all fun m => (d.graph.kind m).isBlock || d.isSealed (d.graph.blockOf m))) =
      some (7, true, [4, 8], true, [0, 5], true) := by decide +kernel
  obtain ⟨b, hb, hrun⟩ := Option.bind_eq_some_iff.1 hrun
  obtain ⟨⟨n, c⟩, hc, hrun⟩ := Option.bind_eq_some_iff.1 hrun
  obtain ⟨d, hd, hrun⟩ := Option.bind_eq_some_iff.1 hrun
  obtain ⟨rfl, hblock, hops, hsealed, hpreds, hgiven⟩ : n = 7 ∧ (b.graph.kind 5).isBlock = true ∧
      d.graph.operands 7 = [4, 8] ∧ d.isSealed 5 = true ∧ d.graph.preds 5 = [0, 5] ∧
      (d.graph.ids.all fun m => (d.graph.kind m).isBlock || d.isSealed (d.graph.blockOf m)) =
        true := by
    simpa using hrun
  have hread := Except.toOption_eq_some.1 hc
  have hpath : IsPath d.graph.preds [(5, 1), (5, 0)] :=
    .cons (.cons .nil (by rw [hpreds]; rfl)) (by rw [hpreds]; rfl)
  refine ⟨b, c, d, .of_foldlM hb, hread, .of_foldlM hd, hops, ?_⟩
  have hfound := Construction.read_finds_reaching_write (.of_foldlM hb) hblock hread
    (.of_foldlM hd) (fun m hm hk _ => ?_) (fun _ => hsealed) hpath rfl (.inr ?_)
  · rwa [show reachingAt (lastWrite loopBefore "x") (lastWrite (loopBefore ++ loopAfter) "x")
      [(5, 1), (5, 0)] = some (8, [(5, 0)]) by decide +kernel] at hfound
  · have := List.all_eq_true.1 hgiven m (List.mem_range.2 hm)
    rwa [hk, Bool.false_or] at this
  · rintro (h | h | h)
    · exact absurd h (by decide)
    · exact absurd h (by decide)
    · exact absurd (show Graph.endBlock = Graph.startBlock from h) (by decide)

/-- A variable is set, and control goes to the end block. -/
def intoEnd : List Request :=
  [.constInt 5, .write (.var "x") 0 4, .jump endBlock]

/-- **A read in an end block that stays unsealed finds nothing.** It answers a merge that
never gets its operand, though all other blocks are sealed. -/
theorem unsealed_end_hides_write : ∃ b d,
    Construction d (init "f" true) intoEnd b ∧ b.read (.var "x") endBlock = .ok (6, d) ∧
    (∀ m < d.graph.size, (d.graph.kind m).isBlock = false →
      d.graph.blockOf m ≠ endBlock → d.isSealed (d.graph.blockOf m) = true) ∧
    IsPath d.graph.preds [(endBlock, 0)] ∧
    reachingAt (lastWrite intoEnd "x") (lastWrite intoEnd "x") [(endBlock, 0)] = some (4, []) ∧
    d.graph.chase [] (d.resolve 4) = some (4, 0) ∧
    d.graph.chase [(endBlock, 0)] (d.resolve 6) = none := by
  have hrun : (intoEnd.foldlM askNear? (init "f" true)).any (fun b =>
      (b.read (.var "x") endBlock).toOption.any fun r => r.1 = 6 ∧
        (∀ m < r.2.graph.size, (r.2.graph.kind m).isBlock = false →
          r.2.graph.blockOf m ≠ endBlock → r.2.isSealed (r.2.graph.blockOf m) = true) ∧
        (r.2.graph.preds endBlock)[0]? = some startBlock ∧
        r.2.graph.chase [] (r.2.resolve 4) = some (4, 0) ∧
        r.2.graph.chase [(endBlock, 0)] (r.2.resolve 6) = none) = true := by decide +kernel
  obtain ⟨b, hb, hrun⟩ := (Option.any_eq_true _ _).1 hrun
  obtain ⟨⟨n, d⟩, hd, hrun⟩ := (Option.any_eq_true _ _).1 hrun
  obtain ⟨rfl, hgiven, hedge, hchase⟩ := of_decide_eq_true hrun
  exact ⟨b, d, .of_foldlM hb, Except.toOption_eq_some.1 hd, hgiven, .cons .nil hedge, by decide,
    hchase⟩

end Builder

end SsaCompiler
