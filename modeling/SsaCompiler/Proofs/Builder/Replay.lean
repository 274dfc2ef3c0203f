import SsaCompiler.Proofs.Builder.Script

/-!
# Replays of a script

A script is **replayed** by asking one request after the other, each about the nodes
that were answered to the requests it names (`Script.Replay`). It may be replayed with
sharing and without, and the answers will differ.

The control flow does not: the blocks of the graph are those that the script names,
with the edges that the script makes (`Script.Draws`). So paths of the script are
paths of the graph, and what dominates in the script dominates in the graph.
-/

namespace SsaCompiler

open List Option Builder Request
open Graph (startBlock endBlock)

open Builder (Request)

variable {block value name : NodeId} {ν : NodeId → NodeId} {written : NodeId → Option NodeId}
  {edge : NodeId × Nat} {path : Path} {n : Option NodeId} {i : Nat} {function : String}
  {sharing : Bool} {state state' : List NodeId × Builder} {nodes nodes' : List NodeId}

/-! ## Names of paths -/

namespace Path

/-- The path with other names for the blocks. -/
def rename (ν : NodeId → NodeId) (path : Path) : Path :=
  path.map (Prod.map ν id)

variable {ν : NodeId → NodeId} {path : Path} {block : NodeId}

theorem last_rename (hstart : ν startBlock = startBlock) (path : Path) :
    Path.last (path.rename ν) = ν (Path.last path) := by
  cases path with
  | nil => exact hstart.symm
  | cons => rfl

theorem visits_rename (hstart : ν startBlock = startBlock) :
    Path.Visits (path.rename ν) block ↔ ∃ name, Path.Visits path name ∧ ν name = block := by
  induction path with
  | nil => exact ⟨fun h => ⟨_, rfl, hstart.trans (Eq.symm h)⟩, fun ⟨_, h, he⟩ => by
      rw [← he, h, hstart]; rfl⟩
  | cons edge path ih =>
    show block = ν edge.1 ∨ Path.Visits (Path.rename ν path) block ↔ _
    rw [ih]
    refine ⟨?_, ?_⟩
    · rintro (rfl | ⟨name, hv, he⟩)
      · exact ⟨edge.1, .inl rfl, rfl⟩
      · exact ⟨name, .inr hv, he⟩
    · rintro ⟨name, rfl | hv, he⟩
      · exact .inl he.symm
      · exact .inr ⟨name, hv, he⟩

end Path

/-! ## Names of writes -/

/-- What was written last was written by a request. -/
theorem mem_of_lastWrite {requests : List Request} {x : String}
    (h : lastWrite requests x block = some value) :
    Request.write (.var x) block value ∈ requests := by
  obtain ⟨r, hm, hr⟩ := exists_of_findSome?_eq_some h
  rw [mem_reverse] at hm
  cases r with
  | write slot block' value' =>
    cases slot with
    | effect => cases hr
    | var name =>
      obtain ⟨⟨rfl, rfl⟩, rfl⟩ : (block' = block ∧ name = x) ∧ value' = value := by
        simpa [Request.wrote] using hr
      exact hm
  | _ => cases hr

theorem lastWrite_concat (requests : List Request) (r : Request) (x : String) (block : NodeId) :
    lastWrite (requests ++ [r]) x block = (r.wrote block x).or (lastWrite requests x block) := by
  rw [lastWrite_append, lastWrite_cons]
  rfl

/-- Where the blocks of a request are told apart, it writes the same under other
names. -/
theorem wrote_rename {r : Request} (h : ∀ n ∈ r.blocks, ν n = ν block → n = block) (x : String) :
    (r.rename ν).wrote (ν block) x = (r.wrote block x).map ν := by
  cases r with
  | write slot block' value =>
    cases slot with
    | effect => rfl
    | var name =>
      show (if ν block' = ν block ∧ name = x then some (ν value) else none) =
        (if block' = block ∧ name = x then some value else none).map ν
      by_cases he : block' = block
      · subst he
        by_cases hx : name = x
        · simp
        · simp
      · rw [if_neg fun hc => he (h block' (.head _) hc.1), if_neg fun hc => he hc.1]
        rfl
  | _ => rfl

theorem reachingWrite_of_some (h : written edge.1 = some value) (path : Path) :
    reachingWrite written (edge :: path) = some (value, edge :: path) := by
  rw [reachingWrite, h]

theorem reachingWrite_of_none (h : written edge.1 = none) (path : Path) :
    reachingWrite written (edge :: path) = reachingWrite written path := by
  rw [reachingWrite, h]

/-- **The write that reaches a point**, under other names. -/
theorem reachingWrite_rename (hstart : ν startBlock = startBlock)
    {written' : NodeId → Option NodeId}
    (h : ∀ name, Path.Visits path name → written' (ν name) = (written name).map ν) :
    reachingWrite written' (path.rename ν) =
      (reachingWrite written path).map (Prod.map ν (Path.rename ν)) := by
  induction path with
  | nil =>
    have hn := h startBlock rfl
    rw [hstart] at hn
    show (written' startBlock).map _ = ((written startBlock).map _).map _
    rw [hn]
    cases written startBlock <;> rfl
  | cons edge path ih =>
    have hn := h edge.1 (.inl rfl)
    have hc : Path.rename ν (edge :: path) = (ν edge.1, edge.2) :: Path.rename ν path := rfl
    cases hw : written edge.1 with
    | none =>
      rw [hw] at hn
      rw [hc, reachingWrite_of_none hn, reachingWrite_of_none hw]
      exact ih fun name hv => h name (.inr hv)
    | some value =>
      rw [hw] at hn
      rw [hc, reachingWrite_of_some hn, reachingWrite_of_some hw]
      rfl

theorem reachingAt_rename (hstart : ν startBlock = startBlock)
    {sofar sofar' all all' : NodeId → Option NodeId}
    (hsofar : sofar' (ν (Path.last path)) = (sofar (Path.last path)).map ν)
    (hall : ∀ name, Path.Visits path name → all' (ν name) = (all name).map ν) :
    reachingAt sofar' all' (path.rename ν) =
      (reachingAt sofar all path).map (Prod.map ν (Path.rename ν)) := by
  unfold reachingAt
  rw [Path.last_rename hstart, hsofar]
  cases sofar (Path.last path) with
  | some value => cases path <;> rfl
  | none =>
    cases path with
    | nil => rfl
    | cons edge path => exact reachingWrite_rename hstart fun name hv => hall name (.inr hv)

namespace Script

variable {script before : Script} {ν : NodeId → NodeId} {g : Graph} {b c : Builder} {r : Request}
  {path : Path}

/-! ## The same control flow -/

/-- **A graph has the control flow of a script**: its blocks are those that the
script names, and the edges into them are those of the script, in the same order. -/
structure Draws (script : Script) (ν : NodeId → NodeId) (g : Graph) : Prop where
  start : ν startBlock = startBlock
  isBlock : ∀ n, (g.kind n).isBlock = true ↔ ∃ name, script.IsBlock name ∧ ν name = n
  injective : ∀ name name', script.IsBlock name → script.IsBlock name' → ν name = ν name' →
    name = name'
  preds : ∀ name, script.IsBlock name → g.preds (ν name) = (script.preds name).map ν

section Draws

variable (h : script.Draws ν g) (hs : script.Orderly)

include h hs

/-- A path of the script is a path of the graph. -/
theorem Draws.isPath (hp : IsPath script.preds path) : IsPath g.preds (path.rename ν) := by
  induction hp with
  | nil => exact .nil
  | @cons path name index _ he ih =>
    have hb := hs.isBlock_of_mem_preds (mem_of_getElem? he)
    refine .cons ih ?_
    show (g.preds (ν name))[index]? = some (Path.last (path.rename ν))
    rw [Path.last_rename h.start, h.preds name hb, getElem?_map, he]
    rfl

theorem Draws.exists_path (hpath : IsPath g.preds path)
    (hl : (g.kind (Path.last path)).isBlock) :
    ∃ path', IsPath script.preds path' ∧ path'.rename ν = path := by
  induction hpath with
  | nil => exact ⟨[], .nil, rfl⟩
  | @cons path block index _ hedge ih =>
    obtain ⟨name, hn, rfl⟩ := (h.isBlock _).1 hl
    rw [h.preds name hn, getElem?_map] at hedge
    obtain ⟨pred, hp, he⟩ := map_eq_some_iff.1 hedge
    have hb := hs.isBlock_pred (mem_of_getElem? hp)
    obtain ⟨path', hpath', rfl⟩ := ih (he ▸ (h.isBlock _).2 ⟨pred, hb, rfl⟩)
    rw [Path.last_rename h.start] at he
    rw [h.injective _ _ hb (hs.isBlock_last hpath') he] at hp
    exact ⟨(name, index) :: path', .cons hpath' hp, rfl⟩

/-- **What dominates in the script dominates in the graph.** -/
theorem Draws.dominates {name' : NodeId} (hdom : Dominates script.preds name name')
    (hb : script.IsBlock name') : Dominates g.preds (ν name) (ν name') := by
  intro path hp hl
  obtain ⟨path, hp', rfl⟩ := h.exists_path hs hp
    (hl ▸ (h.isBlock _).2 ⟨name', hb, rfl⟩)
  rw [Path.last_rename h.start] at hl
  have hv := hdom path hp' (h.injective _ _ (hs.isBlock_last hp') hb hl)
  exact (Path.visits_rename h.start).2 ⟨name, hv, rfl⟩

end Draws

/-! ## A builder that follows a script -/

/-- **A builder has come as far as a part of a script.** -/
structure Tracks (before : Script) (ν : NodeId → NodeId) (b : Builder) : Prop
    extends Draws before ν b.graph where
  current : b.current = ν before.current
  isSealed : ∀ n, b.isSealed n = true ↔ ∃ name, before.IsSealed name ∧ ν name = n
  isOpen : ∀ name, before.IsBlock name → ¬ before.Ended name → b.Open (ν name)
  answered : ∀ name channel, before.Answers name channel → ν name < b.graph.size

/-- The first nodes have known names. -/
def Known (ν : NodeId → NodeId) : Prop :=
  ∀ n < 4, ν n = n

theorem tracks_init (hν : Known ν) (name : String) (sharing : Bool) :
    Tracks [] ν (Builder.init name sharing) := by
  have hstart : ν startBlock = startBlock := hν 0 (by decide)
  have hend : ν endBlock = endBlock := hν 2 (by decide)
  have hb : ∀ {n}, IsBlock [] n → n = startBlock ∨ n = endBlock := fun hn =>
    hn.imp_right fun h => h.resolve_right fun ⟨_, hrole⟩ => by
      obtain ⟨i, -, hi⟩ := exists_of_step? hrole
      cases hi
  refine
    { start := hstart, isBlock := fun n => ⟨fun hn => ?_, ?_⟩,
      injective := fun m n hm hn he => ?_, preds := fun n hn => ?_, current := hstart.symm,
      isSealed := fun n => ?_, isOpen := fun _ _ _ m hm => ?_, answered := fun n _ hn => ?_ }
  · rcases n with _ | _ | _ | _ | n
    · exact ⟨startBlock, .inl rfl, hstart⟩
    · cases hn
    · exact ⟨endBlock, .inr (.inl rfl), hend⟩
    · cases hn
    · cases hn
  · rintro ⟨m, hm, rfl⟩
    rcases hb hm with rfl | rfl
    · rw [hstart]
      rfl
    · rw [hend]
      rfl
  · rcases hb hm with rfl | rfl <;> rcases hb hn with rfl | rfl <;>
      simp only [hstart, hend] at he ⊢ <;> cases he
  · rcases hb hn with rfl | rfl
    · rw [hstart]
      rfl
    · rw [hend]
      rfl
  · refine ⟨fun hn => ⟨startBlock, .inl rfl, ?_⟩, ?_⟩
    · rw [hstart]
      exact (mem_singleton.1 (elem_iff.1 hn)).symm
    · rintro ⟨name, rfl | hmem, rfl⟩
      · rw [hstart]
        rfl
      · cases hmem
  · rcases m with _ | _ | _ | _ | m <;> cases hm
  · obtain ⟨r, hr, -⟩ := hn
    obtain ⟨i, -, hi⟩ := exists_of_step? hr
    cases hi

/-- A request that keeps to the protocol comes at the right time. -/
theorem Tracks.timely (h : Tracks before ν b) (hν : Known ν)
    (hc : before.IsBlock before.current)
    (hsealed : ∀ name, before.IsSealed name → before.IsBlock name)
    (hk : Keeps script before r) : (r.rename ν).Timely b := by
  have hend : ν endBlock = endBlock := hν 2 (by decide)
  have hb : ∀ name, before.IsBlock name → (b.graph.kind (ν name)).isBlock = true :=
    fun name hname => (h.isBlock _).2 ⟨name, hname, rfl⟩
  refine ⟨⟨fun n hn => ?_, fun n hn => ?_, fun _ n hn => ?_⟩, fun n hn => ?_⟩
  · rw [uses_rename] at hn
    obtain ⟨name, hname, rfl⟩ := mem_map.1 hn
    exact h.answered name _ (hk.uses name hname)
  · rw [blocks_rename ν r hend] at hn
    obtain ⟨name, hname, rfl⟩ := mem_map.1 hn
    exact hb name (hk.blocks name hname)
  · rw [targets_rename ν r hend] at hn
    obtain ⟨name, hname, rfl⟩ := mem_map.1 hn
    have hname' := hk.blocks name (mem_blocks_of_mem_targets hname)
    refine Bool.eq_false_iff.2 fun hs => hk.targets name hname ?_
    obtain ⟨name', hs', he⟩ := (h.isSealed _).1 hs
    rwa [← h.injective _ _ (hsealed name' hs') hname' he]
  · rw [touches_rename ν r h.current] at hn
    obtain ⟨name, hname, rfl⟩ := mem_map.1 hn
    refine h.isOpen name ?_ (hk.opened name hname)
    rcases mem_blocks_of_mem_alters hname with hmem | rfl
    · exact hk.blocks name hmem
    · exact hc

theorem lt_size_of_reply (h : Builder.Reply b r n c) (hwf : b.WellFormed)
    (hb : ∀ block ∈ r.blocks, (b.graph.kind block).isBlock) :
    ∀ m ∈ n, m < c.graph.size := by
  intro m hm
  cases h with
  | newBlock role =>
    cases hm
    exact (Nat.lt_succ_self _).trans_eq (Graph.size_newBlock b.graph role).symm
  | make hk =>
    cases hm
    exact (hwf.answer _ _ _).1
  | @trapping op lhs rhs effect d =>
    cases hm
    exact Nat.lt_of_lt_of_eq (Nat.lt_succ_self _)
      (Stage.trapped_trapping op lhs rhs effect ⟨d, fun _ _ => none⟩).size.symm
  | leave hk | ret hr =>
    cases hm
    rw [size_leave]
    exact Nat.lt_succ_self _
  | read hr =>
    cases hm
    exact (tidy_read hwf (hb _ (.head _)) hr).value_lt
  | enter | write | seals => cases hm

theorem exists_of_reply {channel : Channel} (h : Builder.Reply b r n c)
    (hr : r.answers = some channel) : ∃ m, n = some m := by
  cases h with
  | enter | write | seals => cases hr
  | _ => exact ⟨_, rfl⟩

theorem Tracks.count_targets (h : Tracks before ν b) (hk : Keeps script before r)
    (hn : before.IsBlock name) :
    (r.targets.map ν).count (ν name) = r.targets.count name := by
  rw [List.count, countP_map]
  refine countP_congr fun target ht => ?_
  have hb := hk.blocks target (mem_blocks_of_mem_targets ht)
  simp only [Function.comp_apply, beq_iff_eq]
  exact ⟨h.injective _ _ hb hn, congrArg ν⟩

/-- **A builder goes on following a script.** -/
theorem Tracks.step (hs : script.Orderly) (hr : script[i]? = some r)
    (h : Tracks (script.take i) ν b) (hν : Known ν) (ho : b.Ongoing true)
    (hanswer : b.answer (r.rename ν) = .ok (n, c)) (hn : ∀ m ∈ n, ν (i + 4) = m) :
    Tracks (script.take (i + 1)) ν c := by
  have hk := hs i r hr
  have hi := Nat.le_of_lt (List.getElem?_eq_some_iff.1 hr).1
  have hcurrent := hs.isBlock_current hi
  have htimely := h.timely hν hcurrent (fun _ => hs.isBlock_of_isSealed) hk
  have hc := controls_answer ho htimely.valid hanswer
  have hreply := reply_of_answer hanswer
  have hwf := ho.wf
  have ht := targets_rename ν r (hν 2 (by decide))
  have hl : (script.take i).length = i := List.length_take_of_le hi
  have hnotBlock : ¬ IsBlock (script.take i) (i + 4) := by
    rintro (h | h | ⟨role, hrole⟩)
    · cases h
    · cases h
    · exact Nat.lt_irrefl _ (step?_of_take hrole).2
  -- A new block is a new node.
  have hnew : ∀ role, r = .newBlock role → ν (i + 4) = b.graph.size := by
    rintro role rfl
    cases hreply with
    | newBlock => exact hn _ rfl
    | make hkind | leave hkind => cases hkind
  have hlt : ∀ name, IsBlock (script.take i) name → ν name < b.graph.size := fun name hblock =>
    lt_of_isBlock ((h.isBlock _).2 ⟨name, hblock, rfl⟩)
  rw [take_succ hr]
  refine
    { start := h.start, isBlock := fun m => ?_, injective := fun name name' hb hb' he => ?_,
      preds := fun name hb => ?_, current := ?_, isSealed := fun m => ?_,
      isOpen := fun name hb hne => ?_, answered := fun name channel ha => ?_ }
  · rw [hc.isBlock, h.isBlock]
    simp only [isBlock_concat, hl]
    refine ⟨?_, ?_⟩
    · rintro (⟨name, hb, rfl⟩ | ⟨role, he, rfl⟩)
      · exact ⟨name, .inl hb, rfl⟩
      · obtain rfl : r = .newBlock role := by cases r <;> first | exact he | cases he
        exact ⟨i + 4, .inr ⟨role, rfl, rfl⟩, hnew role rfl⟩
    · rintro ⟨name, hb | ⟨role, rfl, rfl⟩, rfl⟩
      · exact .inl ⟨name, hb, rfl⟩
      · exact .inr ⟨role, rfl, hnew role rfl⟩
  · rw [isBlock_concat, hl] at hb hb'
    rcases hb with hb | ⟨role, rfl, rfl⟩ <;> rcases hb' with hb' | ⟨role', hrole, rfl⟩
    · exact h.injective _ _ hb hb' he
    · exact absurd (he.trans (hnew role' hrole)) (Nat.ne_of_lt (hlt name hb))
    · exact absurd (he.symm.trans (hnew role rfl)) (Nat.ne_of_lt (hlt name' hb'))
    · rfl
  · rw [hc.preds _ ?_, preds_concat, List.map_append, List.map_replicate, h.current, ht]
    · rw [isBlock_concat, hl] at hb
      rcases hb with hb | ⟨role, rfl, rfl⟩
      · rw [h.preds name hb, h.count_targets hk hb]
      · have hnil : b.graph.operands b.graph.size = [] :=
          b.graph.operands_of_size_le (Nat.le_refl _)
        rw [hs.preds_of_not_isBlock hnotBlock, hnew role rfl, Graph.preds, hnil]
        rfl
    · rw [hc.isBlock, h.isBlock]
      rw [isBlock_concat, hl] at hb
      rcases hb with hb | ⟨role, rfl, rfl⟩
      · exact .inl ⟨name, hb, rfl⟩
      · exact .inr ⟨role, rfl, hnew role rfl⟩
  · rw [hc.current, current_concat, h.current, next_rename]
  · rw [hc.isSealed, h.isSealed]
    simp only [isSealed_concat]
    refine ⟨?_, ?_⟩
    · rintro (⟨name, hsealed, rfl⟩ | he)
      · exact ⟨name, .inl hsealed, rfl⟩
      · cases r with
        | seals name => exact ⟨name, .inr rfl, Request.seals.inj he⟩
        | _ => cases he
    · rintro ⟨name, hsealed | rfl, rfl⟩
      · exact .inl ⟨name, hsealed, rfl⟩
      · exact .inr rfl
  · rw [ended_concat, not_or, not_and_or, not_not] at hne
    rw [isBlock_concat, hl] at hb
    rcases hb with hb | ⟨role, rfl, rfl⟩
    · refine hc.isOpen _ (h.isOpen name hb hne.1) ?_
      rw [ht, h.current]
      exact hne.2.imp List.map_eq_nil_iff.2 fun hne he => hne (h.injective _ _ hb hcurrent he)
    · refine hc.isOpen _ (fun m hm he => ?_) (.inl rfl)
      have hh := lt_of_isBlock (hwf.home m (lt_of_isTerminator hm))
      exact Nat.lt_irrefl _ (Nat.lt_of_lt_of_eq hh (he.trans (hnew role rfl)).symm)
  · rw [answers_concat, hl] at ha
    rcases ha with ha | ⟨rfl, ha⟩
    · exact Nat.lt_of_lt_of_le (h.answered name channel ha) hc.size_le
    · obtain ⟨m, rfl⟩ := exists_of_reply hreply ((answers_rename ν r).trans ha)
      rw [hn m rfl]
      exact lt_size_of_reply hreply hwf htimely.valid.blocks m rfl

/-! ## Replays -/

/-- **A replay of a script**: `b i` is the builder after `i` requests, and `ν` tells
the node that a name stands for. What a request uses has not been retired. -/
structure Replay (script : Script) (function : String) (sharing : Bool) (ν : NodeId → NodeId)
    (b : Nat → Builder) : Prop where
  start : b 0 = .init function sharing
  known : Known ν
  answers : ∀ i r, script[i]? = some r → ∃ n,
    (b i).answer (r.rename ν) = .ok (n, b (i + 1)) ∧ ∀ m ∈ n, ν (i + 4) = m
  stands : ∀ i r, script[i]? = some r → ∀ name ∈ r.uses, (b i).Stands (ν name)

/-- **A replay follows the script.** -/
theorem Replay.tracks {b : Nat → Builder} (h : script.Replay function sharing ν b)
    (hs : script.Orderly) (hi : i ≤ script.length) :
    Tracks (script.take i) ν (b i) ∧ (b i).Ongoing true := by
  induction i with
  | zero =>
    rw [h.start]
    exact ⟨tracks_init h.known function sharing, ongoing_init true function sharing⟩
  | succ i ih =>
    obtain ⟨ht, ho⟩ := ih (Nat.le_of_lt hi)
    have hr := getElem?_eq_getElem hi
    obtain ⟨n, ha, hn⟩ := h.answers i _ hr
    refine ⟨ht.step hs hr h.known ho ha hn, ?_⟩
    have htimely := ht.timely h.known (hs.isBlock_current (Nat.le_of_lt hi))
      (fun _ => hs.isBlock_of_isSealed) (hs i _ hr)
    exact (moves_answer ho htimely.valid ha).ongoing ho

/-! ## Replays that are run -/

/-- The node that a name stands for, where the nodes of the first names are given. -/
def named (nodes : List NodeId) (name : NodeId) : NodeId :=
  nodes.getD name name

instance (b : Builder) (n : NodeId) : Decidable (b.Stands n) :=
  inferInstanceAs (Decidable (_ = none))

/-- Ask for what a script says, if all that it uses stands. A request without an answer
has a name too. -/
def ask? (state : List NodeId × Builder) (r : Request) : Option (List NodeId × Builder) :=
  if ∀ name ∈ r.uses, state.2.Stands (named state.1 name) then
    (state.2.answer (r.rename (named state.1))).toOption.map fun result =>
      (state.1 ++ [result.1.getD 0], result.2)
  else none

/-- **Replay a script**: each request is about the nodes that were answered before. -/
def replay? (script : Script) (function : String) (sharing : Bool) :
    Option (List NodeId × Builder) :=
  script.foldlM ask? ([0, 1, 2, 3], .init function sharing)

theorem ask?_eq_some (h : ask? state r = some state') :
    (∀ name ∈ r.uses, state.2.Stands (named state.1 name)) ∧ ∃ n,
      state.2.answer (r.rename (named state.1)) = .ok (n, state'.2) ∧
      state'.1 = state.1 ++ [n.getD 0] := by
  unfold ask? at h
  split at h
  · obtain ⟨⟨n, c⟩, ha, rfl⟩ := map_eq_some_iff.1 h
    exact ⟨‹_›, n, Except.toOption_eq_some.1 ha, rfl⟩
  · cases h

/-- The nodes of the first names stay. -/
theorem isPrefix_of_foldlM (h : script.foldlM ask? state = some state') : state.1 <+: state'.1 := by
  induction script generalizing state with
  | nil => exact some.inj h ▸ prefix_refl _
  | cons r rest ih =>
    obtain ⟨next, hn, hr⟩ := bind_eq_some_iff.1 (foldlM_cons.symm.trans h)
    obtain ⟨-, n, -, he⟩ := ask?_eq_some hn
    exact (he ▸ prefix_append _ _).trans (ih hr)

theorem named_of_isPrefix (h : nodes <+: nodes') (hlt : name < nodes.length) :
    named nodes' name = named nodes name := by
  obtain ⟨rest, rfl⟩ := h
  unfold named
  rw [getD_eq_getElem?_getD, getElem?_append_left hlt, ← getD_eq_getElem?_getD]

theorem named_length {n : NodeId} (h : nodes ++ [n] <+: nodes') :
    named nodes' nodes.length = n := by
  rw [named_of_isPrefix h (by simp)]
  unfold named
  rw [getD_eq_getElem?_getD, getElem?_concat_length]
  rfl


/-- **A replay that is run is a replay.** -/
theorem exists_replay (hs : script.Orderly)
    (h : script.replay? function sharing = some (nodes, c)) :
    ∃ b, script.Replay function sharing (named nodes) b ∧ b script.length = c := by
  have hsplit : ∀ i, ∃ state,
      (script.take i).foldlM ask? ([0, 1, 2, 3], .init function sharing) = some state ∧
      (script.drop i).foldlM ask? state = some (nodes, c) := fun i => by
    unfold replay? at h
    rw [← take_append_drop i script, foldlM_append] at h
    exact bind_eq_some_iff.1 h
  choose state hb ha using hsplit
  have hask : ∀ i r, script[i]? = some r → ask? (state i) r = some (state (i + 1)) := by
    intro i r hr
    have hnext := hb (i + 1)
    rw [take_succ hr, foldlM_append, hb i] at hnext
    obtain ⟨next, hnext, he⟩ := bind_eq_some_iff.1
      (show (ask? (state i) r).bind some = some (state (i + 1)) from hnext)
    rw [hnext, he]
  have hl : ∀ i ≤ script.length, (state i).1.length = i + 4 := by
    intro i hi
    induction i with
    | zero => rw [← some.inj (hb 0)]; rfl
    | succ i ih =>
      obtain ⟨-, n, -, he⟩ := ask?_eq_some (hask i _ (getElem?_eq_getElem hi))
      rw [he, List.length_append, ih (Nat.le_of_lt hi)]
      rfl
  have hnamed : ∀ i ≤ script.length, ∀ name < i + 4, named nodes name = named (state i).1 name :=
    fun i hi name hlt => named_of_isPrefix (isPrefix_of_foldlM (ha i)) (hl i hi ▸ hlt)
  have hlt : ∀ {i : Nat} {r : Request} {name}, script[i]? = some r → name ∈ r.uses ++ r.blocks →
      name < i + 4 := fun {i r name} hr hname => by
    rcases mem_append.1 hname with hname | hname
    · exact ((hs i r hr).uses name hname).of_take.2
    · exact ((hs i r hr).blocks name hname).lt_of_take
  have hf : state 0 = ([0, 1, 2, 3], .init function sharing) :=
    (some.inj (hb 0)).symm
  refine ⟨fun i => (state i).2, ⟨congrArg Prod.snd hf, fun n hn => ?_, fun i r hr => ?_,
    fun i r hr name hname => ?_⟩, ?_⟩
  · rw [hnamed 0 (Nat.zero_le _) n hn, hf]
    rcases n with _ | _ | _ | _ | n
    iterate 4 rfl
    · exact absurd hn (Nat.not_lt_of_le (Nat.le_add_left 4 n))
  · have hi := (List.getElem?_eq_some_iff.1 hr).1
    obtain ⟨-, n, hanswer, he⟩ := ask?_eq_some (hask i r hr)
    refine ⟨n, ?_, fun m hm => ?_⟩
    · rw [rename_congr fun name hname => hnamed i hi.le name (hlt hr hname)]
      exact hanswer
    · obtain rfl := hm
      rw [← hl i hi.le]
      exact named_length (he ▸ isPrefix_of_foldlM (ha (i + 1)))
  · have hi := (List.getElem?_eq_some_iff.1 hr).1
    rw [hnamed i hi.le name (hlt hr (mem_append_left _ hname))]
    exact (ask?_eq_some (hask i r hr)).1 name hname
  · have hlast := hb script.length
    rw [take_length] at hlast
    exact congrArg Prod.snd (some.inj (hlast.symm.trans h))

end Script

end SsaCompiler
