import SsaCompiler.Proofs.Program.Divisions

/-!
# What the source performs along a path

Along a control path the blocks perform their divisions, and the jumps on conditions
decide where control goes: this is the **trace** of the path (`Path.trace`). A path is
**full** if it ends in a return (`Stage.Full`).

The walk over a function is looked at together with a full path. The path *arrives*
at a stage after some actions (`Stage.Arrives`), namely those of the blocks before
and, in the current block, the divisions made so far. Each part of the walk tells
which actions come next, up to the stage where the path arrives next
(`Stmt.Tours.passes`). *A loop is followed round by round*, and as the path arrives at
the head with more edges behind it each time, this ends. So **the trace of a full path
is performed by the source** (`Translated.performs_trace`).
-/

namespace SsaCompiler

open List Option

variable {new operands : List NodeId} {kind : Kind}

/-- The decision of the end of a block, when control goes to a target. -/
def Kind.turn : Kind → NodeId → List Action
  | condJump ifTrue _, target => [.decides (target == ifTrue)]
  | _, _ => []

/-- The division that a node performs, if any. -/
def Kind.division? : Kind → Option ArithOp
  | binary (.arith op) => if op.hasEffect then some op else none
  | _ => none

theorem Kind.isSome_division? (k : Kind) : k.division?.isSome = k.mayTrap := by
  cases k with
  | binary op =>
    cases op with
    | arith op => cases op <;> rfl
    | logic op => rfl
  | _ => rfl

namespace Graph

/-- **The divisions among the first nodes** of a graph, in the order they were made. -/
def divisions (g : Graph) (size : Nat) : List ArithOp :=
  (List.range size).filterMap fun n => (g.kind n).division?

/-- **What a node does.** A division has as its number how many were made before. -/
def action? (g : Graph) (n : NodeId) : Option Action :=
  (g.kind n).division?.map (.divides (g.divisions n).length)

variable {g : Graph}

theorem length_divisions (g : Graph) (size : Nat) :
    (g.divisions size).length = ((List.range size).filter fun d => (g.kind d).mayTrap).length := by
  rw [divisions, length_filterMap_eq_countP, countP_eq_length_filter]
  simp only [Kind.isSome_division?]

/-- The divisions made before one of them. -/
theorem filter_range_eq {p : Nat → Bool} {size d : Nat} {before after : List Nat}
    (h : (List.range size).filter p = before ++ d :: after) : (List.range d).filter p = before := by
  induction size generalizing after with
  | zero => simp at h
  | succ size ih =>
    rw [range_succ, filter_append] at h
    rcases eq_nil_or_concat after with rfl | ⟨rest, e, rfl⟩
    · cases hp : p size with
      | true =>
        rw [filter_cons_of_pos hp] at h
        obtain ⟨hb, hd⟩ := append_inj' h rfl
        exact (List.cons.inj hd).1 ▸ hb
      | false =>
        rw [filter_cons_of_neg (by simp [hp]), filter_nil, append_nil] at h
        exact ih h
    · cases hp : p size with
      | true =>
        rw [filter_cons_of_pos hp, concat_eq_append, ← cons_append, ← append_assoc] at h
        exact ih (append_inj' h rfl).1
      | false =>
        rw [filter_cons_of_neg (by simp [hp]), filter_nil, append_nil] at h
        exact ih h

end Graph

namespace Path

section

variable (inside : NodeId → List Action) (turn : NodeId → NodeId → List Action)

/-- **What happens on a path before its last block**, given what happens inside
blocks and between them. -/
def past : Path → List Action
  | [] => []
  | edge :: path => past path ++ inside (last path) ++ turn (last path) edge.1

/-- **The trace of a path**: what happens in its blocks and between them. -/
def trace (path : Path) : List Action :=
  past inside turn path ++ inside (last path)

end

variable {inside : NodeId → List Action} {turn : NodeId → NodeId → List Action} {path path' : Path}

/-- What happens on a longer path begins in the same way. -/
theorem trace_prefix (h : path <:+ path') : trace inside turn path <+: trace inside turn path' := by
  obtain ⟨new, rfl⟩ := h
  induction new with
  | nil => exact prefix_rfl
  | cons edge new ih =>
    refine ih.trans ⟨turn (last (new ++ path)) edge.1 ++ inside edge.1, ?_⟩
    rw [← append_assoc]
    rfl

theorem trace_congr {inside' : NodeId → List Action}
    (h : ∀ path', path' <:+ path → inside (last path') = inside' (last path')) :
    trace inside turn path = trace inside' turn path := by
  induction path with
  | nil => exact h [] (suffix_refl _)
  | cons edge path ih =>
    have hr := ih fun path' hs => h path' (hs.trans (suffix_cons _ _))
    show trace inside turn path ++ turn (last path) edge.1 ++ inside edge.1 = _
    rw [hr, show inside edge.1 = _ from h (edge :: path) (suffix_refl _)]
    rfl

end Path

namespace Stage

variable {last s t u : Stage} {turn : NodeId → NodeId → List Action} {path full : Path}
  {n block cond a b : NodeId} {actions more : List Action} {ops : List ArithOp}

/-! ## Divisions of a block -/

/-- **What is done in a block up to a stage**: its divisions, in the order they were
made. -/
def inside (last s : Stage) (block : NodeId) : List Action :=
  ((last.made s).filter fun d => last.graph.blockOf d = block).filterMap last.graph.action?

/-- **The divisions made up to a stage**, in any block. -/
def divisions (last s : Stage) : List ArithOp :=
  last.graph.divisions s.graph.size

theorem divisions_eq : last.divisions s =
    (last.made s).filterMap fun d => (last.graph.kind d).division? := by
  rw [divisions, made, filterMap_filter]
  refine filterMap_congr fun d _ => ?_
  split
  · rfl
  · rename_i ht
    rwa [← Kind.isSome_division?, not_isSome_iff_eq_none] at ht

/-- **The number of the next division.** -/
def number (last s : Stage) : Nat :=
  (last.divisions s).length

theorem number_eq_add (h : last.divisions t = last.divisions s ++ ops) :
    last.number t = last.number s + ops.length := by
  rw [number, h, length_append]
  rfl

/-- Divisions that are made one after the other have their numbers one after the
other. -/
theorem Performs.filterMap_action? {before : List NodeId} (h : last.Performs new ops)
    (hm : last.made s = before ++ new) :
    new.filterMap last.graph.action? = Action.divisions before.length ops := by
  induction new generalizing ops before with
  | nil =>
    cases ops with
    | nil => rfl
    | cons => cases h
  | cons d new ih =>
    cases ops with
    | nil => cases h
    | cons op ops =>
      obtain ⟨hd, hr⟩ := List.cons.inj h
      have ht := (mem_made.1 (hm ▸ mem_append_right _ mem_cons_self)).2
      rw [hd] at ht
      have hn : (last.graph.divisions d).length = before.length := by
        rw [Graph.length_divisions, Graph.filter_range_eq hm]
      have ha : last.graph.action? d = some (.divides before.length op) := by
        rw [Graph.action?, hd, hn, show (Kind.binary (.arith op)).division? = some op from
          if_pos ht]
        rfl
      have hnext := ih hr (hm.trans (append_cons before d new))
      rw [filterMap_cons_some ha, hnext, length_append]
      rfl

theorem Performs.filterMap_division? (h : last.Performs new ops)
    (hm : ∀ d ∈ new, (last.graph.kind d).mayTrap) :
    new.filterMap (fun d => (last.graph.kind d).division?) = ops := by
  have he : ∀ op ∈ ops, op.hasEffect = true := fun op hop => by
    have hmem : Kind.binary (.arith op) ∈ new.map last.graph.kind :=
      h ▸ mem_map_of_mem (f := fun op => Kind.binary (.arith op)) hop
    obtain ⟨d, hd, hk⟩ := mem_map.1 hmem
    have ht := hm d hd
    rwa [hk] at ht
  calc new.filterMap (fun d => (last.graph.kind d).division?)
    _ = (new.map last.graph.kind).filterMap Kind.division? := by
      rw [filterMap_map]
      rfl
    _ = ops.filterMap some := by
      rw [h, filterMap_map]
      exact filterMap_congr fun op hop => if_pos (he op hop)
    _ = ops := filterMap_some

/-- A part of the walk adds its divisions to those of the text before. -/
theorem Divides.divisions_eq (h : last.Divides s ops t) :
    last.divisions t = last.divisions s ++ ops := by
  obtain ⟨new, hm, hp⟩ := h
  rw [Stage.divisions_eq, hm.made_eq, filterMap_append, hp.filterMap_division?
    fun d hd => (mem_made.1 (hm.made_eq ▸ mem_append_right _ hd : d ∈ last.made t)).2,
    ← Stage.divisions_eq]

theorem Inert.divisions_eq (h : Inert s t) (ht : Toward last last.plan t) :
    last.divisions t = last.divisions s := by
  rw [Stage.divisions_eq, h.made_eq ht, ← Stage.divisions_eq]

/-- **A part of the walk adds its divisions** to those of the current block. -/
theorem Divides.inside_eq (h : last.Divides s ops t) :
    last.inside t s.current = last.inside s s.current ++ Action.divisions (last.number s) ops := by
  obtain ⟨new, hm, hp⟩ := h
  have hnew : new.filter (fun d => last.graph.blockOf d = s.current) = new :=
    filter_eq_self.2 fun d hd => decide_eq_true (hm.home d hd)
  rw [inside, hm.made_eq, filter_append, hnew, filterMap_append,
    hp.filterMap_action? hm.made_eq, number, divisions, Graph.length_divisions]
  rfl

theorem Inert.inside_eq (h : Inert s t) (ht : Toward last last.plan t) (block : NodeId) :
    last.inside t block = last.inside s block := by
  rw [inside, h.made_eq ht]
  rfl

/-- In a block that is ended, all divisions have been made. -/
theorem Ending.inside_eq (h : last.Ending s kind operands t) :
    last.inside last s.current = last.inside s s.current := by
  obtain ⟨-, -, -, hold⟩ := h.closed
  have hle := h.inert.grows.size_le.trans h.ahead.grows.size_le
  have hn : ((List.range' s.graph.size (last.graph.size - s.graph.size)).filter
      fun d => (last.graph.kind d).mayTrap).filter (fun d => last.graph.blockOf d = s.current) = [] :=
    filter_eq_nil_iff.2 fun d hd hb => by
      obtain ⟨hd, ht⟩ := mem_filter.1 hd
      exact Nat.not_lt_of_le (mem_range'_1.1 hd).1 (hold d ht (of_decide_eq_true hb))
  rw [inside, made_of_le hle, filter_append, hn, append_nil]
  rfl

theorem Begins.inside_eq (h : last.Begins s block) : last.inside s block = [] := by
  rw [inside, filter_eq_nil_iff.2]
  · rfl
  · intro d hd hb
    obtain ⟨hlt, ht⟩ := mem_made.1 hd
    rw [h.toward.grows.kind d hlt] at ht
    rw [h.toward.grows.blockOf d hlt] at hb
    exact h.untouched.calm d ht (of_decide_eq_true hb)

/-! ## Arriving at a stage -/

/-- **A path arrives at a stage** after some actions. -/
structure Arrives (last s : Stage) (turn : NodeId → NodeId → List Action) (path : Path)
    (actions : List Action) : Prop extends last.Route path where
  last_eq : Path.last path = s.current
  past_eq : Path.past (last.inside last) turn path ++ last.inside s s.current = actions

/-- **A full path** ends in a return. -/
structure Full (last : Stage) (path : Path) : Prop extends last.Route path where
  returns : ∃ jump, last.graph.kind jump = .ret ∧ last.graph.blockOf jump = Path.last path

/-- **Jumps decide** where control goes. -/
def Turns (last : Stage) (turn : NodeId → NodeId → List Action) : Prop :=
  ∀ jump, (last.graph.kind jump).isTerminator = true →
    turn (last.graph.blockOf jump) = (last.graph.kind jump).turn

theorem Route.of_suffix (h : last.Route full) (hl : last.Finished) (hs : path <:+ full) :
    last.Route path := by
  obtain ⟨new, rfl⟩ := hs
  induction new with
  | nil => exact h
  | cons _ _ ih => exact ih (h.tail hl)

theorem Arrives.divides (h : last.Arrives s turn path actions) (hd : last.Divides s ops t) :
    last.Arrives t turn path (actions ++ Action.divisions (last.number s) ops) := by
  have hi := hd.inside_eq
  obtain ⟨new, hm, -⟩ := hd
  refine { h.toRoute with last_eq := h.last_eq.trans hm.current.symm, past_eq := ?_ }
  rw [hm.current, hi, ← append_assoc, h.past_eq]

/-- A part of the walk that makes nothing in the current block. -/
theorem Arrives.inert (h : last.Arrives s turn path actions) (hst : Inert s t)
    (ht : Toward last last.plan t) (hc : t.current = s.current) :
    last.Arrives t turn path actions := by
  refine { h.toRoute with last_eq := h.last_eq.trans hc.symm, past_eq := ?_ }
  rw [hc, hst.inside_eq ht, h.past_eq]

theorem Arrives.put (h : last.Arrives s turn path actions) (slot : Slot) (block value : NodeId) :
    last.Arrives (s.put slot block value) turn path actions :=
  { h.toRoute with last_eq := h.last_eq, past_eq := h.past_eq }

/-- **A path ends with a block or goes on** to where the end of the block leads. -/
theorem Ending.next (hend : last.Ending s kind operands t) (hl : last.Finished)
    (hlast : Path.last path = s.current) (hfull : last.Route full) (hs : path <:+ full) :
    path = full ∨ ∃ target index, target ∈ kind.exits ∧ (target, index) :: path <:+ full := by
  obtain ⟨hk, hh, -, -⟩ := hend.closed
  have ht : (last.graph.kind s.graph.size).isTerminator = true := hk ▸ hend.isTerminator
  obtain ⟨new, hn⟩ := hs
  rcases eq_nil_or_concat new with rfl | ⟨rest, ⟨target, index⟩, rfl⟩
  · exact .inl hn
  have hsuffix : (target, index) :: path <:+ full :=
    ⟨rest, by rw [← hn, concat_eq_append, append_assoc]; rfl⟩
  have hr := hfull.of_suffix hl hsuffix
  obtain ⟨jump, hjump, hb⟩ : ∃ jump, (last.graph.operands target)[index]? = some jump ∧
      last.graph.blockOf jump = Path.last path := by
    cases hr.isPath with
    | cons _ he =>
      rw [Graph.preds, getElem?_map] at he
      exact map_eq_some_iff.1 he
  have hm := mem_of_getElem? hjump
  have hj := hl.wired.wf.jumps target hr.isBlock jump hm
  obtain rfl := hl.wired.single jump _ hj ht (hb.trans (hlast.trans hh.symm))
  refine .inr ⟨target, index, ?_, hsuffix⟩
  rw [← count_pos_iff, ← hk, ← hl.wired.edges target hr.isBlock _ ht]
  exact count_pos_iff.2 hm

/-- **At the end of a block a full path goes on** to one of the targets. -/
theorem Arrives.goes (h : last.Arrives s turn path actions) (hl : last.Finished)
    (hturn : last.Turns turn) (hend : last.Ending s kind operands t) (hfull : last.Full full)
    (hs : path <:+ full) (hkind : kind ≠ .ret) :
    ∃ target index, target ∈ kind.exits ∧ (target, index) :: path <:+ full ∧
      ∀ u, last.Begins u target →
        last.Arrives u turn ((target, index) :: path) (actions ++ kind.turn target) := by
  obtain ⟨hk, hh, -, -⟩ := hend.closed
  have ht : (last.graph.kind s.graph.size).isTerminator = true := hk ▸ hend.isTerminator
  rcases hend.next hl h.last_eq hfull.toRoute hs with rfl | ⟨target, index, he, hsuffix⟩
  · -- The block does not end in a return.
    obtain ⟨jump, hr, hj⟩ := hfull.returns
    have hsame := hl.wired.single jump _ (by rw [hr]; rfl) ht
      (hj.trans (h.last_eq.trans hh.symm))
    exact absurd (hk.symm.trans (hsame ▸ hr)) hkind
  refine ⟨target, index, he, hsuffix, fun u hu =>
    { hfull.of_suffix hl hsuffix with last_eq := hu.current.symm, past_eq := ?_ }⟩
  rw [hu.current, hu.inside_eq, append_nil, Path.past, h.last_eq, hend.inside_eq, h.past_eq,
    ← hh, hturn _ ht, hk]

/-! ## Parts of the walk -/

/-- **How a full path goes on**: it ends within a part of the walk, or it arrives at
the stage after it. -/
def Passes (last t : Stage) (turn : NodeId → NodeId → List Action) (full : Path) (bound : Nat)
    (actions : List Action) (flow : Flow) (part : List Action → Flow → Prop) : Prop :=
  (∃ more, part more .returns ∧ Path.trace (last.inside last) turn full = actions ++ more) ∨
    flow = .continues ∧ ∃ more path, part more .continues ∧ path <:+ full ∧ bound ≤ path.length ∧
      last.Arrives t turn path (actions ++ more)

variable {part part' : List Action → Flow → Prop} {flow flow' : Flow} {bound : Nat}

/-- What comes before belongs to a larger part. -/
theorem Passes.after {before : List Action}
    (h : last.Passes t turn full bound (actions ++ before) flow part)
    (hp : ∀ more flow, part more flow → part' (before ++ more) flow) :
    last.Passes t turn full bound actions flow part' := by
  rcases h with ⟨more, hm, ht⟩ | ⟨hf, more, path, hm, hs, hle, ha⟩
  · exact .inl ⟨before ++ more, hp _ _ hm, by rw [ht, append_assoc]⟩
  · exact .inr ⟨hf, before ++ more, path, hp _ _ hm, hs, hle, by rw [← append_assoc]; exact ha⟩

/-- **One part after another.** -/
theorem Passes.andThen (h : last.Passes t turn full bound actions flow part)
    (hr : ∀ more, part more .returns → part' more .returns)
    (hn : flow = .continues → ∀ more path, part more .continues → path <:+ full →
      bound ≤ path.length → last.Arrives t turn path (actions ++ more) →
      last.Passes u turn full bound actions flow' part') :
    last.Passes u turn full bound actions flow' part' := by
  rcases h with ⟨more, hm, ht⟩ | ⟨hf, more, path, hm, hs, hle, ha⟩
  · exact .inl ⟨more, hr _ hm, ht⟩
  · exact hn hf more path hm hs hle ha

theorem Passes.mono {bound' : Nat} (h : last.Passes t turn full bound' actions flow part)
    (hle : bound ≤ bound') : last.Passes t turn full bound actions flow part := by
  rcases h with h | ⟨hf, more, path, hm, hs, hle', ha⟩
  · exact .inl h
  · exact .inr ⟨hf, more, path, hm, hs, hle.trans hle', ha⟩

/-- **An arm of a branch** and what comes before it. -/
theorem Passes.branch {k : Nat} {taken : Bool}
    (hp : last.Passes t turn full bound
      (actions ++ Action.divisions k ops ++ [.decides taken]) flow part)
    (hpart : ∀ more flow, part more flow →
      part' (Action.divisions k ops ++ .decides taken :: more) flow) :
    last.Passes t turn full bound actions flow part' := by
  rw [append_assoc] at hp
  refine hp.after fun more flow hm => ?_
  rw [append_assoc]
  exact hpart more flow hm

theorem Arrives.passes (h : last.Arrives t turn path (actions ++ more)) (hs : path <:+ full)
    (hle : bound ≤ path.length) (hp : part more .continues) :
    last.Passes t turn full bound actions .continues part :=
  .inr ⟨rfl, more, path, hp, hs, hle, h⟩

end Stage

open Stage

/-! ## Statements -/

section

variable {last s t u v m w x y h b' v' w' x' : Stage} {turn : NodeId → NodeId → List Action}
  {path full : Path} {n cond effect a b merge head arm exit : NodeId} {actions : List Action}
  {flow flow' : Flow} {body otherwise : Stmt} {condition : Expr} {c : Builder}

/-! ### The divisions of the text -/

/-- **An arm is entered after the divisions of the condition.** -/
theorem Stage.Forking.divisions_eq (hfork : last.Forking m cond a b u) (hl : last.Finished)
    (hcond : last.Values condition s cond t) (hblocks : Idle t m) (he : Idle u v)
    (hfresh : last.Begins v arm) :
    last.divisions v = last.divisions s ++ condition.divisions := by
  have hu := hfork.ahead.toToward
  rw [he.divisions_eq hfresh.toward, hfork.inert.divisions_eq hu,
    hblocks.divisions_eq (hu.back hfork.inert.grows hfork.site.wf),
    (hcond.divides hl).divisions_eq]

theorem Stage.Leaving.divisions_eq (hleave : last.Leaving s b t) (he : Idle t u)
    (hfresh : last.Begins u b) : last.divisions u = last.divisions s := by
  rw [he.divisions_eq hfresh.toward, hleave.inert.divisions_eq hleave.ahead.toToward]

theorem Stage.Passing.divisions_eq (hp : last.Passing w b flow x) (he : Idle x y)
    (hfresh : last.Begins y a) : last.divisions y = last.divisions w := by
  rw [he.divisions_eq hfresh.toward]
  cases hp with
  | returns => rfl
  | continues hleave => exact hleave.inert.divisions_eq hleave.ahead.toToward

/-- The walk ends in a return exactly if the statement returns by its shape. -/
theorem Stmt.Tours.returns_iff (hb : body.Tours last s flow t) :
    body.returns ↔ flow = .returns := by
  induction hb with
  | skip | declare | define | assign | update | ifThen | loop | ret => simp [Stmt.returns]
  | done _ ih => simp [Stmt.returns, ih]
  | next _ _ ih ih' => simp [Stmt.returns, ih, ih']
  | ifElse _ _ _ _ _ _ _ _ _ _ _ _ _ _ ih ih' =>
    simp [Stmt.returns, ih, ih', Flow.join]

/-- **The walk over a statement makes its divisions**, in the order of the text. -/
theorem Stmt.Tours.divisions_eq (hb : body.Tours last s flow t) (hl : last.Finished) :
    last.divisions t = last.divisions s ++ body.divisions := by
  induction hb with
  | skip | declare => exact (append_nil _).symm
  | done hf ih => rw [Stmt.divisions, hf.returns_iff.2 rfl, if_pos rfl, append_nil, ih]
  | next hf _ ih ih' =>
    have hg := hf.returns_iff.not.2 nofun
    rw [Stmt.divisions, if_neg hg, ih', ih, append_assoc]
  | define he => exact (he.divides hl).divisions_eq
  | assign he =>
    rw [Stmt.divisions, elim_none, append_nil]
    exact (he.divides hl).divisions_eq
  | update he hr hop hu =>
    obtain ⟨htc, hd⟩ := he.update_divides hl hr hop hu
    have hc := (idle_read he.site.toWired hr).divisions_eq htc
    rw [Stmt.divisions, ← append_assoc, ← (he.divides hl).divisions_eq, ← hc]
    exact hd.divisions_eq
  | ifThen hcond hblocks hfork _ ht hfresh _ hp hmerge hlast ih =>
    rw [Stmt.divisions, hp.divisions_eq hmerge hlast, ih,
      hfork.divisions_eq hl hcond hblocks ht hfresh, append_assoc]
  | ifElse hcond hblocks hfork _ ht hfresh _ hp helse hfresh' _ hp' hmerge hlast ih ih' =>
    rw [Stmt.divisions, hp'.divisions_eq hmerge hlast, ih', hp.divisions_eq helse hfresh', ih,
      hfork.divisions_eq hl hcond hblocks ht hfresh]
    simp
  | loop _ hblocks _ hj henter hh hcond hfork harm hfresh _ hp hexit hlast ih =>
    have hm := hj.ahead.toToward.back hj.inert.grows hj.site.wf
    rw [Stmt.divisions, hp.divisions_eq hexit hlast, ih,
      hfork.divisions_eq hl hcond (Idle.refl _) harm hfresh, hj.divisions_eq henter hh,
      hblocks.divisions_eq hm, append_assoc]
  | ret he hr hend =>
    have hc := hend.ahead.toToward.back hend.inert.grows hend.site.wf
    rw [hend.inert.divisions_eq hend.ahead.toToward, (idle_read he.site.toWired hr).divisions_eq hc]
    exact (he.divides hl).divisions_eq

/-! ### Full paths -/

/-- **A return is where a full path ends.** -/
theorem passes_ret {value : Expr} (hl : last.Finished)
    (he : last.Values value s n t) (hr : t.read .effect t.current = .ok (effect, c))
    (hend : last.Ending (t.on c) .ret [effect, n] u) (hfull : last.Full full) (hs : path <:+ full)
    (ha : last.Arrives s turn path actions) :
    last.Passes u turn full path.length actions .returns
      ((Stmt.ret value).Performs (last.number s)) := by
  have ht := ha.divides (he.divides hl)
  have hc := hend.ahead.toToward.back hend.inert.grows hend.site.wf
  have htc := ht.inert (idle_read he.site.toWired hr).toInert hc
    (answered_read he.site.toWired hr).current
  rcases hend.next hl htc.last_eq hfull.toRoute hs with rfl | ⟨target, index, hexit, hsuffix⟩
  · refine .inl ⟨_, .ret, ?_⟩
    rw [Path.trace, htc.last_eq, hend.inside_eq, htc.past_eq]
  · -- A return leads to the end block only, and no path of blocks goes there.
    obtain rfl := mem_singleton.1 hexit
    exact absurd rfl (hfull.toRoute.of_suffix hl hsuffix).notFinal

/-- **A branch.** -/
theorem Stage.Arrives.fork (hl : last.Finished) (hturn : last.Turns turn)
    (hfork : last.Forking s cond a b t) (hfull : last.Full full) (hs : path <:+ full)
    (ha : last.Arrives s turn path actions) :
    (∃ index, (a, index) :: path <:+ full ∧ ∀ u, last.Begins u a →
        last.Arrives u turn ((a, index) :: path) (actions ++ [.decides true])) ∨
      ∃ index, (b, index) :: path <:+ full ∧ ∀ u, last.Begins u b →
        last.Arrives u turn ((b, index) :: path) (actions ++ [.decides false]) := by
  obtain ⟨hne, -⟩ := hl.wired.branches s.graph.size a b hfork.closed.1
  obtain ⟨target, index, he, hsuffix, hg⟩ :=
    ha.goes hl hturn hfork.toEnding hfull hs nofun
  rcases mem_pair.1 he with rfl | rfl
  · refine .inl ⟨index, hsuffix, fun u hu => ?_⟩
    have := hg u hu
    rwa [Kind.turn, beq_self_eq_true] at this
  · refine .inr ⟨index, hsuffix, fun u hu => ?_⟩
    have := hg u hu
    rwa [Kind.turn, beq_eq_false_iff_ne.2 hne.symm] at this

/-- **A jump.** -/
theorem Stage.Arrives.pass (hl : last.Finished) (hturn : last.Turns turn)
    (hleave : last.Leaving s b t) (hfull : last.Full full) (hs : path <:+ full)
    (ha : last.Arrives s turn path actions) :
    ∃ index, (b, index) :: path <:+ full ∧ ∀ u, last.Begins u b →
      last.Arrives u turn ((b, index) :: path) actions := by
  obtain ⟨target, index, he, hsuffix, hg⟩ :=
    ha.goes hl hturn hleave.toEnding hfull hs nofun
  obtain rfl := mem_singleton.1 he
  exact ⟨index, hsuffix, fun u hu => by simpa [Kind.turn] using hg u hu⟩

/-- **An arm is left**, unless it has returned. -/
theorem Stage.Passes.pass {bound : Nat} {part : List Action → Flow → Prop}
    (hp : last.Passes s turn full bound actions flow part) (hl : last.Finished)
    (hturn : last.Turns turn) (hpass : last.Passing s b flow t) (hu : last.Begins u b)
    (hfull : last.Full full) (hf : flow = .continues → flow' = .continues) :
    last.Passes u turn full bound actions flow' part := by
  refine hp.andThen (fun _ => id) fun hc more path hm hs hle ha => ?_
  cases hpass with
  | returns => cases hc
  | continues hleave =>
    obtain ⟨index, hsuffix, hg⟩ := ha.pass hl hturn hleave hfull hs
    rw [hf hc]
    exact (hg u hu).passes hsuffix (Nat.le_succ_of_le hle) hm

theorem Stage.Arrives.blocks (ha : last.Arrives s turn path actions) (hblocks : Idle s t)
    (he : last.Ending t kind operands u) (hstill : t.current = s.current) :
    last.Arrives t turn path actions :=
  ha.inert hblocks.toInert
    (he.ahead.toToward.back he.inert.grows he.site.wf) hstill

/-- **How a statement is followed** by a full path. -/
abbrev Stage.Followed (last : Stage) (turn : NodeId → NodeId → List Action) (full : Path) (s : Stage)
    (body : Stmt) (flow : Flow) (t : Stage) : Prop :=
  ∀ path actions, last.Arrives s turn path actions → path <:+ full →
    last.Passes t turn full path.length actions flow (body.Performs (last.number s))

section

variable (hl : last.Finished) (hturn : last.Turns turn) (hfull : last.Full full)

include hl hturn hfull

section

variable (hcond : last.Values condition s cond t) (hblocks : Idle t m)
  (hfork : last.Forking m cond a b u) (hstill : m.current = t.current) (hfresh : last.Begins v a)
  (hv : last.divisions v = last.divisions s ++ condition.divisions)

include hcond hblocks hfork hstill hfresh hv

theorem followed_ifThen (hp : last.Passing w b flow x) (hlast : last.Begins y b)
    (ih : last.Followed turn full v body flow w) :
    last.Followed turn full s (.ifThen condition body) .continues y := by
  intro path actions ha hs
  have hm := (ha.divides (hcond.divides hl)).blocks hblocks hfork.toEnding hstill
  rcases hm.fork hl hturn hfork hfull hs with ⟨index, hsuffix, hg⟩ | ⟨index, hsuffix, hg⟩
  · have hb := (ih _ _ (hg v hfresh) hsuffix).pass hl hturn hp hlast hfull fun _ => rfl
    rw [number_eq_add hv] at hb
    exact (hb.branch fun _ _ => .enter).mono (Nat.le_succ _)
  · have hy := hg y hlast
    rw [append_assoc] at hy
    exact hy.passes hsuffix (Nat.le_succ _) .avoid

theorem followed_ifElse (hp : last.Passing w merge flow x) (hfresh' : last.Begins v' b)
    (hv' : last.divisions v' = last.divisions v ++ body.divisions)
    (hp' : last.Passing w' merge flow' x') (hlast : last.Begins y merge)
    (ih : last.Followed turn full v body flow w)
    (ih' : last.Followed turn full v' otherwise flow' w') :
    last.Followed turn full s (.ifElse condition body otherwise) (flow.join flow') y := by
  intro path actions ha hs
  have hm := (ha.divides (hcond.divides hl)).blocks hblocks hfork.toEnding hstill
  rcases hm.fork hl hturn hfork hfull hs with ⟨index, hsuffix, hg⟩ | ⟨index, hsuffix, hg⟩
  · have hf : flow = .continues → flow.join flow' = .continues := fun he =>
      Flow.join_eq_continues.2 (.inl he)
    have hb := (ih _ _ (hg v hfresh) hsuffix).pass hl hturn hp hlast hfull hf
    rw [number_eq_add hv] at hb
    exact (hb.branch fun _ _ => .left).mono (Nat.le_succ _)
  · have hf : flow' = .continues → flow.join flow' = .continues := fun he =>
      Flow.join_eq_continues.2 (.inr he)
    have hb := (ih' _ _ (hg v' hfresh') hsuffix).pass hl hturn hp' hlast hfull hf
    rw [number_eq_add hv', number_eq_add hv] at hb
    exact (hb.branch fun _ _ => .right).mono (Nat.le_succ _)

end

/-- **The rounds of a loop.** Each time the head is entered, more of the path is
behind. -/
theorem followed_rounds (hh : last.Begins h head) (hcond : last.Values condition h cond u)
    (hfork : last.Forking u cond arm exit v) (hfresh : last.Begins b' arm)
    (hb : last.divisions b' = last.divisions h ++ condition.divisions)
    (hp : last.Passing w head flow x) (hlast : last.Begins y exit)
    (ih : last.Followed turn full b' body flow w) :
    last.Followed turn full h (.loop condition body) .continues y := by
  intro path actions ha hs
  induction hlen : full.length - path.length using Nat.strong_induction_on generalizing path actions with
  | _ len rounds =>
    have hu := ha.divides (hcond.divides hl)
    rcases hu.fork hl hturn hfork hfull hs with ⟨index, hsuffix, hg⟩ | ⟨index, hsuffix, hg⟩
    · have hbody := (ih _ _ (hg b' hfresh) hsuffix).pass hl hturn hp hh hfull fun _ => rfl
      rw [number_eq_add hb] at hbody
      have hlt : path.length < full.length := hsuffix.length_le
      rcases hbody with ⟨more, hm, ht⟩ | ⟨-, more, path', hm, hs', hle, hagain⟩
      · refine .inl ⟨_, .leave hm, ?_⟩
        rw [ht, append_assoc, append_assoc]
        rfl
      · have hle : path.length < path'.length := hle
        have hr := rounds _ (by omega) path' _ hagain hs' rfl
        have hround : last.Passes y turn full path'.length
            (actions ++ Action.divisions (last.number h) condition.divisions ++ [.decides true])
            .continues fun rest => (Stmt.loop condition body).Performs (last.number h)
              (Action.divisions (last.number h) condition.divisions ++ .decides true :: rest) :=
          hr.after fun rest flow hr => .round hm hr
        exact (hround.branch fun _ _ => id).mono hle.le
    · have hy := hg y hlast
      rw [append_assoc] at hy
      exact hy.passes hsuffix (Nat.le_succ _) .exit

/-- **A full path follows the walk** through a statement. -/
theorem Stmt.Tours.followed (hbody : body.Tours last s flow t) :
    last.Followed turn full s body flow t := by
  induction hbody with
  | skip =>
    intro path actions ha hs
    rw [← append_nil actions] at ha
    exact ha.passes hs le_rfl .skip
  | declare =>
    intro path actions ha hs
    rw [← append_nil actions] at ha
    exact ha.passes hs le_rfl .declare
  | done _ ih =>
    intro path actions ha hs
    exact (ih path actions ha hs).andThen (fun _ => .done) fun he => by cases he
  | next hfirst _ ih ih' =>
    intro path actions ha hs
    refine (ih path actions ha hs).andThen (fun _ => .done)
      fun _ more path' hmore hs' hle hn => ?_
    have hrest := ih' path' _ hn hs'
    rw [number_eq_add (hfirst.divisions_eq hl)] at hrest
    exact (hrest.after fun _ _ => .next hmore).mono hle
  | define he =>
    intro path actions ha hs
    exact ((ha.divides (he.divides hl)).put _ _ _).passes hs le_rfl .define
  | assign he =>
    intro path actions ha hs
    exact ((ha.divides (he.divides hl)).put _ _ _).passes hs le_rfl .assign
  | update he hr hop hu =>
    intro path actions ha hs
    obtain ⟨htc, hd⟩ := he.update_divides hl hr hop hu
    have hi := (idle_read he.site.toWired hr).toInert
    have hc := (ha.divides (he.divides hl)).inert hi htc
      (answered_read he.site.toWired hr).current
    have hf := hc.divides hd
    rw [number_eq_add ((hi.divisions_eq htc).trans (he.divides hl).divisions_eq),
      append_assoc, ← Action.divisions_append] at hf
    exact (hf.put _ _ _).passes hs le_rfl .update
  | ifThen hcond hblocks hfork hstill ht hfresh _ hp _ hlast ih =>
    exact followed_ifThen hl hturn hfull hcond hblocks hfork hstill hfresh
      (hfork.divisions_eq hl hcond hblocks ht hfresh) hp hlast ih
  | ifElse hcond hblocks hfork hstill ht hfresh hbody hp helse hfresh' _ hp' _ hlast ih ih' =>
    have hv := hfork.divisions_eq hl hcond hblocks ht hfresh
    have hv' := (hp.divisions_eq helse hfresh').trans (hbody.divisions_eq hl)
    exact followed_ifElse hl hturn hfull hcond hblocks hfork hstill hfresh hv hp hfresh' hv' hp'
      hlast ih ih'
  | loop _ hblocks hstill hj henter hhead hcond hfork harm hfresh _ hp _ hlast ih =>
    intro path actions ha hs
    have hm := ha.blocks hblocks hj.toEnding hstill
    obtain ⟨index, hsuffix, hg⟩ := hm.pass hl hturn hj hfull hs
    have htoward := hj.ahead.toToward.back hj.inert.grows hj.site.wf
    have hh := (hj.divisions_eq henter hhead).trans (hblocks.divisions_eq htoward)
    have hb := hfork.divisions_eq hl hcond (Idle.refl _) harm hfresh
    have hrounds := followed_rounds hl hturn hfull hhead hcond hfork hfresh hb hp hlast ih _ _
      (hg _ hhead) hsuffix
    rw [number, hh] at hrounds
    exact hrounds.mono (Nat.le_succ _)
  | ret he hr hend =>
    intro path actions ha hs
    exact passes_ret hl he hr hend hfull hs ha

end

end

namespace Translated

variable {f : Function} {s : Stage} {flow : Flow} {r : FunctionGraph}
  {turn : NodeId → NodeId → List Action} {full : Path}

/-- The divisions of a graph are those of the text, in its order. -/
theorem divisions_eq (h : Translated f s flow r) : s.divisions s = f.body.divisions := by
  rw [h.tours.divisions_eq h.finished, Stage.divisions_eq, h.made_first]
  rfl

theorem arrives_first (h : Translated f s flow r) : s.Arrives (first f.name true) turn [] [] where
  isPath := .nil
  isBlock := h.wired.wf.entry
  notFinal := by decide
  last_eq := rfl
  past_eq := by
    rw [inside, h.made_first]
    rfl

/-- **The trace of a full path is performed by the source.** -/
theorem performs_trace (h : Translated f s flow r) (hr : f.body.returns)
    (hturn : s.Turns turn) (hfull : s.Full full) :
    f.body.Performs 0 (Path.trace (s.inside s) turn full) .returns := by
  have hp := h.tours.followed h.finished hturn hfull [] [] h.arrives_first (nil_suffix)
  have hn : s.number (first f.name true) = 0 := by
    rw [number, Stage.divisions_eq, h.made_first]
    rfl
  rw [hn] at hp
  rcases hp with ⟨more, hm, ht⟩ | ⟨hf, -⟩
  · rw [ht]
    exact hm
  · rw [h.tours.returns_iff.1 hr] at hf
    cases hf

end Translated

end SsaCompiler
