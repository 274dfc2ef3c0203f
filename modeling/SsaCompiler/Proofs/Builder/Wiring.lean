import SsaCompiler.Proofs.Builder.Construction
import SsaCompiler.Proofs.Builder.Lookup

/-!
# The control flow of a construction

`Stage.Wired` says what holds of the control flow of a function at every stage
of its translation: a block is ended once, an edge is recorded at both of its
ends, only blocks that a path leads to are ended, and **the two targets of a
jump on a condition are new to the path that comes there**. Reads and seals of
a wired stage come to a result.

The second half is about parts of a construction. A part is *confined* to some
blocks if it ends, seals and adds edges to no other old block (`Confined`), it
*leads onward* if control comes from every block it works on to one of its
goals (`Onward`), and it leaves all its new blocks sealed but some
(`Seals`). All three compose.
-/

namespace SsaCompiler

open List Graph Builder Kind
open Graph (startBlock endBlock)

variable {g : Graph} {path : Path} {block : NodeId} {old : Nat} {c b : Builder}

theorem Kind.isPhi_eq_false_of_isTerminator {k : Kind} (h : k.isTerminator) : k.isPhi = false := by
  cases k <;> first | rfl | cases h

/-- **No operand is a retired merge.** -/
def Builder.Standing (b : Builder) : Prop :=
  ∀ n, ∀ a ∈ b.graph.operands n, b.Stands a

/-- **Control may come from one block to another.** -/
def Graph.Leads (g : Graph) : NodeId → NodeId → Prop :=
  Relation.ReflTransGen fun block next => (g.kind next).isBlock = true ∧ block ∈ g.preds next

/-- A path enters only blocks with a predecessor. -/
theorem IsPath.not_visits (h : IsPath g.preds path) (hnil : g.operands block = [])
    (hne : block ≠ startBlock) :
    ¬ Path.Visits path block := by
  induction h with
  | nil => exact hne
  | @cons path block' index _ he ih =>
    rintro (rfl | hv)
    · unfold Graph.preds at he
      rw [hnil] at he
      cases he
    · exact ih hv

theorem Graph.Reaches.step {next : NodeId} (h : g.Reaches block) (he : block ∈ g.preds next) :
    g.Reaches next := by
  obtain ⟨path, hp, rfl⟩ := h
  obtain ⟨index, hi⟩ := mem_iff_getElem?.1 he
  exact ⟨(next, index) :: path, hp.cons hi, rfl⟩

namespace Stage

variable {s t u : Stage} {kind : Kind} {block target n : NodeId} {operands : List NodeId}
  {slot : Slot} {role : String}

/-! ## Growth keeps paths -/

section

variable (hg : Grows s t) (hwf : s.WellFormed)

include hg hwf

theorem Grows.preds (hb : (s.graph.kind block).isBlock) :
    s.graph.preds block <+: t.graph.preds block := by
  obtain ⟨rest, hr⟩ := hg.jumps block hb
  refine ⟨rest.map t.graph.blockOf, ?_⟩
  unfold Graph.preds
  rw [← hr, map_append]
  refine congrArg (· ++ _) (map_congr_left fun jump hj => ?_)
  exact (hg.blockOf jump (hwf.coherent.closed block jump hj)).symm

theorem Grows.isPath (h : IsPath s.graph.preds path)
    (hl : (s.graph.kind (Path.last path)).isBlock) : IsPath t.graph.preds path :=
  h.mono fun edge he => hg.preds hwf (isBlock_of_isPath hwf h hl edge he)

theorem Grows.reaches (hb : (s.graph.kind block).isBlock) (h : s.graph.Reaches block) :
    t.graph.Reaches block := by
  obtain ⟨path, hp, rfl⟩ := h
  exact ⟨path, hg.isPath hwf hp hb, rfl⟩

theorem Grows.leads (h : s.graph.Leads block target) : t.graph.Leads block target := by
  induction h with
  | refl => exact .refl
  | tail _ he ih =>
    exact ih.tail ⟨hg.isBlock he.1, (hg.preds hwf he.1).subset he.2⟩

end

/-- **Growth retires no operand**, since the users of a retired merge hold what
stands for it. -/
theorem Grows.standing (hg : Grows s t) (hwf : t.WellFormed) (h : s.Standing)
    (hnew : ∀ n, s.graph.size ≤ n → (t.graph.kind n).isPhi = false →
      (t.graph.kind n).isBlock = false → ∀ a ∈ t.graph.operands n, t.Stands a) :
    t.Standing := by
  intro n a ha
  by_cases hp : (t.graph.kind n).isPhi = true
  · exact hwf.merges n hp a ha
  by_cases hb : (t.graph.kind n).isBlock = true
  · exact hwf.stands_of_isPhi_eq_false
      (isPhi_eq_false_of_isTerminator (hwf.jumps n hb a ha))
  rw [Bool.not_eq_true] at hp hb
  by_cases hlt : n < s.graph.size
  · obtain ⟨new, heq, hops⟩ := hg.resolved
    rw [hg.kind n hlt] at hp hb
    rw [hops n hlt hp hb] at ha
    obtain ⟨a, hmem, rfl⟩ := mem_map.1 ha
    have hr : Builder.root new a = Builder.root t.forwarded a := by
      rw [heq, root_append, (root_of_lookup (h n a hmem)).1]
    rw [hr]
    exact hwf.forwards.lookup_root a
  · exact hnew n (not_lt.1 hlt) hp hb a ha

/-! ## Wired stages -/

/-- **The control flow of a function under translation.** -/
structure Wired (s : Stage) : Prop extends Builder.Ongoing true s.toBuilder where
  entry : s.graph.operands startBlock = []
  start : s.isSealed startBlock = true
  isBlock : ∀ n, s.isSealed n = true → (s.graph.kind n).isBlock = true
  final : (s.graph.kind endBlock).isBlock = true
  finalOpen : s.isSealed endBlock = false
  self : ∀ n, (s.graph.kind n).isBlock = true → s.graph.blockOf n = n
  /-- A block is ended once. -/
  single : ∀ m n, (s.graph.kind m).isTerminator = true → (s.graph.kind n).isTerminator = true →
    s.graph.blockOf m = s.graph.blockOf n → m = n
  targets : ∀ n, (s.graph.kind n).isTerminator = true → ∀ target ∈ (s.graph.kind n).exits,
    (s.graph.kind target).isBlock = true
  /-- A block has an edge from every jump that leads to it. -/
  edges : ∀ block, (s.graph.kind block).isBlock = true → ∀ jump,
    (s.graph.kind jump).isTerminator = true →
    (s.graph.operands block).count jump = (s.graph.kind jump).exits.count block
  /-- Only blocks that a path leads to are ended. -/
  reaches : ∀ n, (s.graph.kind n).isTerminator = true → s.graph.Reaches (s.graph.blockOf n)
  /-- A path comes to a jump on a condition before it comes to either target. -/
  branches : ∀ n ifTrue ifFalse, s.graph.kind n = .condJump ifTrue ifFalse → ifTrue ≠ ifFalse ∧
    ∃ path, IsPath s.graph.preds path ∧ Path.last path = s.graph.blockOf n ∧
      ¬ Path.Visits path ifTrue ∧ ¬ Path.Visits path ifFalse
  standing : s.Standing

theorem Steps.ongoing (h : Steps s t) (ho : s.toBuilder.Ongoing true) :
    t.toBuilder.Ongoing true := by
  induction h with
  | refl => exact ho
  | tail _ hstep ih => exact Builder.Moves.ongoing (.single hstep.move) ih

/-- **Steps that make no jumps keep a stage wired.** -/
theorem Wired.of_steps (h : s.Wired) (hsteps : Steps s t)
    (hi : ∀ n, t.isSealed n → s.isSealed n ∨ (t.graph.kind n).isBlock)
    (hf : t.isSealed endBlock = false)
    (hself : ∀ n, s.graph.size ≤ n → (t.graph.kind n).isBlock → t.graph.blockOf n = n)
    (hq : ∀ n, s.graph.size ≤ n → (t.graph.kind n).isTerminator = false)
    (hjumps : ∀ n, (t.graph.kind n).isBlock → t.graph.operands n = s.graph.operands n)
    (hstanding : t.Standing) : t.Wired := by
  have hg := hsteps.grows h.wf
  -- A jump is an old node.
  have ho : ∀ {n}, (t.graph.kind n).isTerminator = true →
      n < s.graph.size ∧ (s.graph.kind n).isTerminator = true := fun {n} hn => by
    have hlt : n < s.graph.size := by
      by_contra hle
      cases (hq n (not_lt.1 hle)).symm.trans hn
    exact ⟨hlt, hg.kind n hlt ▸ hn⟩
  have hh : ∀ {n}, n < s.graph.size →
      (s.graph.kind (s.graph.blockOf n)).isBlock = true := fun hn => h.wf.home _ hn
  refine
    { hsteps.ongoing h.toOngoing with
      entry := (hjumps _ (hg.isBlock h.wf.entry)).trans h.entry,
      start := hg.isSealed _ h.start,
      isBlock := fun n hn => (hi n hn).elim (fun hs => hg.isBlock (h.isBlock n hs)) id,
      final := hg.isBlock h.final, finalOpen := hf,
      self := fun n hn => ?_, single := fun m n hm hn he => ?_, targets := fun n hn target ht => ?_,
      edges := fun block hb jump hj => ?_, reaches := fun n hn => ?_,
      branches := fun n ifTrue ifFalse hn => ?_, standing := hstanding }
  · by_cases hlt : n < s.graph.size
    · rw [hg.blockOf n hlt]
      exact h.self n (hg.kind n hlt ▸ hn)
    · exact hself n (not_lt.1 hlt) hn
  · obtain ⟨hltM, hm⟩ := ho hm
    obtain ⟨hltN, hn⟩ := ho hn
    rw [hg.blockOf m hltM, hg.blockOf n hltN] at he
    exact h.single m n hm hn he
  · obtain ⟨hlt, hn⟩ := ho hn
    rw [hg.kind n hlt] at ht
    exact hg.isBlock (h.targets n hn target ht)
  · obtain ⟨hlt, hj⟩ := ho hj
    rw [hjumps block hb, hg.kind jump hlt]
    by_cases hltB : block < s.graph.size
    · exact h.edges block (hg.kind block hltB ▸ hb) jump hj
    · rw [s.graph.operands_of_size_le (not_lt.1 hltB), count_nil,
        count_eq_zero_of_not_mem fun ht => ?_]
      exact hltB (lt_of_isBlock (h.targets jump hj block ht))
  · obtain ⟨hlt, hn⟩ := ho hn
    rw [hg.blockOf n hlt]
    exact hg.reaches h.wf (hh hlt) (h.reaches n hn)
  · obtain ⟨hlt, -⟩ := ho (n := n) (by rw [hn]; rfl)
    rw [hg.kind n hlt] at hn
    obtain ⟨hne, path, hp, hl, ha⟩ := h.branches n ifTrue ifFalse hn
    rw [hg.blockOf n hlt]
    exact ⟨hne, path, hg.isPath h.wf hp (hl ▸ hh hlt), hl, ha⟩

/-- The current block is ended. -/
def leave (s : Stage) (kind : Kind) (operands : List NodeId) : Stage :=
  s.on (s.toBuilder.leave kind s.current operands)

theorem step_leave (h : s.Wired) (hkind : kind.isTerminator)
    (hops : ∀ a ∈ operands, a < s.graph.size)
    (htargets : ∀ target ∈ kind.exits, (s.graph.kind target).isBlock ∧
      s.isSealed target = false) : Step s (s.leave kind operands) :=
  .leave hkind h.current hops htargets

/-- **Ending the current block keeps a stage wired**, if nothing has ended it,
a path leads there, and the targets of a jump on a condition are two and have no
predecessors. -/
theorem Wired.leave (h : s.Wired) (hopen : s.Open s.current)
    (hr : s.graph.Reaches s.current) (hkind : kind.isTerminator)
    (hops : ∀ a ∈ operands, a < s.graph.size ∧ s.Stands a)
    (htargets : ∀ target ∈ kind.exits, (s.graph.kind target).isBlock ∧ s.isSealed target = false)
    (hbranch : ∀ ifTrue ifFalse, kind = .condJump ifTrue ifFalse → ifTrue ≠ ifFalse ∧
      s.graph.operands ifTrue = [] ∧ s.graph.operands ifFalse = []) :
    (s.leave kind operands).Wired := by
  have hwf := h.wf
  have hstep := step_leave h hkind (fun a ha => (hops a ha).1) htargets
  have hg := hstep.grows hwf
  have hlt : ∀ target ∈ kind.exits, target < s.graph.size := fun target ht =>
    lt_of_isBlock (htargets target ht).1
  have hk : ∀ n, (s.leave kind operands).graph.kind n =
      if n = s.graph.size then kind else s.graph.kind n :=
    kind_leave s.toBuilder kind s.current operands
  have hb : ∀ n, (s.leave kind operands).graph.blockOf n =
      if n = s.graph.size then s.current else s.graph.blockOf n :=
    blockOf_leave s.toBuilder kind s.current operands
  have ho : ∀ n, (s.leave kind operands).graph.operands n = if n = s.graph.size then operands
      else s.graph.operands n ++ List.replicate (kind.exits.count n) s.graph.size :=
    operands_leave s.toBuilder s.current operands hlt
  have hnot : kind.isBlock = false := isBlock_eq_false_of_isTerminator hkind
  -- A block is an old node.
  have hold : ∀ {n}, ((s.leave kind operands).graph.kind n).isBlock = true →
      n ≠ s.graph.size ∧ (s.graph.kind n).isBlock = true := fun {n} hn => by
    rw [hk] at hn
    split at hn
    · cases hnot.symm.trans hn
    · exact ⟨‹_›, hn⟩
  have hu : ∀ {block}, s.isSealed block = true → block ∉ kind.exits := fun hs ht =>
    absurd (hs.symm.trans (htargets _ ht).2) nofun
  refine
    { Steps.ongoing (.single hstep) h.toOngoing with
      entry := ?_, start := h.start, isBlock := fun n hn => hg.isBlock (h.isBlock n hn),
      final := hg.isBlock h.final, finalOpen := h.finalOpen,
      self := fun n hn => ?_, single := fun m n hm hn he => ?_, targets := fun n hn target ht => ?_,
      edges := fun block hblock jump hjump => ?_, reaches := fun n hn => ?_,
      branches := fun n ifTrue ifFalse hn => ?_, standing := ?_ }
  · rw [ho, if_neg (lt_of_isBlock hwf.entry).ne, h.entry, count_eq_zero_of_not_mem (hu h.start)]
    rfl
  · obtain ⟨hne, hn⟩ := hold hn
    rw [hb, if_neg hne]
    exact h.self n hn
  · rw [hk] at hm hn
    rw [hb, hb] at he
    split at hm
    · split at hn
      · rw [‹m = _›, ‹n = _›]
      · rw [if_pos ‹m = _›, if_neg ‹¬n = _›] at he
        exact absurd he.symm (hopen n hn)
    · split at hn
      · rw [if_neg ‹¬m = _›, if_pos ‹n = _›] at he
        exact absurd he (hopen m hm)
      · rw [if_neg ‹¬m = _›, if_neg ‹¬n = _›] at he
        exact h.single m n hm hn he
  · rw [hk] at hn ht
    split at ht
    · exact hg.isBlock (htargets target ht).1
    · rw [if_neg ‹_›] at hn
      exact hg.isBlock (h.targets n hn target ht)
  · obtain ⟨hne, hblock⟩ := hold hblock
    rw [ho, if_neg hne, count_append, count_replicate, hk]
    by_cases hj : jump = s.graph.size
    · have hnone : (s.graph.operands block).count s.graph.size = 0 :=
        count_eq_zero_of_not_mem fun hmem =>
          Nat.lt_irrefl _ (hwf.coherent.closed block _ hmem)
      rw [if_pos hj, hj, hnone, beq_self_eq_true, if_pos rfl, Nat.zero_add]
    · rw [hk, if_neg hj] at hjump
      rw [if_neg hj, if_neg (by simpa using Ne.symm hj)]
      exact h.edges block hblock jump hjump
  · rw [hk] at hn
    rw [hb]
    split at hn
    · rw [if_pos ‹_›]
      exact hg.reaches hwf h.current hr
    · rw [if_neg ‹_›]
      exact hg.reaches hwf (hwf.home n (lt_of_isTerminator hn)) (h.reaches n hn)
  · rw [hk] at hn
    rw [hb]
    split at hn
    · rw [if_pos ‹_›]
      obtain ⟨hne, hnilTrue, hnilFalse⟩ := hbranch ifTrue ifFalse hn
      obtain ⟨path, hp, hl⟩ := hr
      have hstart : ∀ target ∈ kind.exits, target ≠ startBlock := fun target ht he =>
        hu h.start (he ▸ ht)
      have htrue : ifTrue ∈ kind.exits := hn ▸ mem_cons_self
      have hf : ifFalse ∈ kind.exits := hn ▸ mem_cons_of_mem _ mem_cons_self
      exact ⟨hne, path, hg.isPath hwf hp (hl ▸ h.current), hl,
        hp.not_visits hnilTrue (hstart _ htrue), hp.not_visits hnilFalse (hstart _ hf)⟩
    · rw [if_neg ‹_›]
      obtain ⟨hne, path, hp, hl, havoid⟩ := h.branches n ifTrue ifFalse hn
      have hh := hwf.home n (lt_of_isTerminator (by rw [hn]; rfl))
      exact ⟨hne, path, hg.isPath hwf hp (hl ▸ hh), hl, havoid⟩
  · refine hg.standing (hstep.wf hwf) h.standing fun n hle _ _ a ha => ?_
    rw [ho] at ha
    split at ha
    · exact (hops a ha).2
    · rw [s.graph.operands_of_size_le hle, count_eq_zero_of_not_mem fun ht =>
        Nat.not_lt.2 hle (hlt n ht)] at ha
      cases ha

/-! ## The other steps -/

/-- A block is made. -/
def newBlock (s : Stage) (role : String) : Stage :=
  s.on (s.toBuilder.newBlock role).2

/-- Another block is made current. -/
def enter (s : Stage) (block : NodeId) : Stage :=
  s.on (s.toBuilder.enter block)

theorem size_newBlock (s : Stage) (role : String) :
    (s.newBlock role).graph.size = s.graph.size + 1 :=
  Graph.size_newBlock s.graph role

theorem isBlock_newBlock (s : Stage) (role : String) (n : NodeId) :
    ((s.newBlock role).graph.kind n).isBlock ↔
      n = s.graph.size ∨ (s.graph.kind n).isBlock := by
  by_cases hn : n = s.graph.size
  · exact iff_of_true (hn ▸ Graph.isBlock_newBlock s.graph role) (.inl hn)
  · rw [show (s.newBlock role).graph.kind n = s.graph.kind n from
      kind_newBlock_of_ne s.graph role hn]
    exact (or_iff_right hn).symm

theorem operands_newBlock (s : Stage) (role : String) (n : NodeId) :
    (s.newBlock role).graph.operands n = s.graph.operands n :=
  Graph.operands_newBlock s.graph role n

/-- From the end of the graph on there is the new block only. -/
theorem exists_kind_newBlock (s : Stage) (role : String) (hn : s.graph.size ≤ n) :
    ∃ label, (s.newBlock role).graph.kind n = .block label ∨
      (s.newBlock role).graph.kind n = .undefined := by
  obtain ⟨label, hnew⟩ := s.exists_appends_newBlock role
  exact ⟨label, kind_of_appends hnew hn⟩

theorem isTerminator_newBlock (s : Stage) (role : String) (n : NodeId) :
    ((s.newBlock role).graph.kind n).isTerminator = (s.graph.kind n).isTerminator := by
  rcases Nat.lt_or_ge n s.graph.size with hn | hn
  · rw [show (s.newBlock role).graph.kind n = s.graph.kind n from
      kind_newBlock_of_ne s.graph role hn.ne]
  · rw [kind_of_size_le s.graph hn]
    obtain ⟨label, hk | hk⟩ := s.exists_kind_newBlock role hn <;> exact (congrArg isTerminator hk :)

theorem Wired.newBlock (h : s.Wired) (role : String) : (s.newBlock role).Wired := by
  have hstep : Step s (s.newBlock role) := .newBlock role
  refine h.of_steps (.single hstep) (fun _ hn => .inl hn) h.finalOpen (fun n hn hblock => ?_)
    (fun n hn => ?_) (fun n _ => s.operands_newBlock role n) ?_
  · obtain rfl := ((s.isBlock_newBlock role n).1 hblock).resolve_right fun hb =>
      Nat.not_lt.2 hn (lt_of_isBlock hb)
    exact (blockOf_newBlock s.graph role _).trans (if_pos rfl)
  · rw [isTerminator_newBlock, kind_of_size_le s.graph hn]
    rfl
  · intro n a ha
    exact h.standing n a (s.operands_newBlock role n ▸ ha)

theorem Wired.enter (h : s.Wired) (hb : (s.graph.kind block).isBlock) : (s.enter block).Wired :=
  h.of_steps (.single (.enter hb)) (fun _ hn => .inl hn) h.finalOpen
    (fun n _ hn => h.self n hn)
    (fun n hn => by
      rw [show (s.enter block).graph.kind n = s.graph.kind n from rfl, kind_of_size_le s.graph hn]
      rfl)
    (fun _ _ => rfl) h.standing

theorem Wired.put (h : s.Wired) (ho : s.Open block) (hb : (s.graph.kind block).isBlock)
    (hn : n < s.graph.size) :
    (s.put slot block n).Wired :=
  h.of_steps (.single (.write hb ho hn)) (fun _ hn => .inl hn) h.finalOpen
    (fun n _ hn => h.self n hn)
    (fun n hn => by
      rw [show (s.put slot block _).graph.kind n = s.graph.kind n from rfl,
        kind_of_size_le s.graph hn]
      rfl)
    (fun _ _ => rfl) h.standing

/-- What reading and sealing add to a graph is no jump and needs nothing that
is retired. -/
theorem standing_of_evolves (h : s.Standing) (hev : Builder.Evolves old s.toBuilder c)
    (hwf : c.WellFormed) : c.Standing := by
  refine Grows.standing (t := s.on c) (grows_of_evolves hev) hwf h fun n hn hphi _ a ha => ?_
  have hkind := (hev.fresh n hn).resolve_left (Bool.eq_false_iff.1 hphi)
  rw [show (s.on c).graph.operands n = [] from hev.bare n hn hkind] at ha
  cases ha

theorem isTerminator_of_evolves (hev : Builder.Evolves old b c) (hn : b.graph.size ≤ n) :
    (c.graph.kind n).isTerminator = false := by
  rcases hev.fresh n hn with hphi | hkind
  · exact isTerminator_eq_false_of_isPhi hphi
  · rw [hkind]
    rfl

theorem not_isBlock_of_evolves (hev : Builder.Evolves old b c) (hn : b.graph.size ≤ n) :
    (c.graph.kind n).isBlock = false := by
  rw [hev.isBlock_eq, kind_of_size_le b.graph hn]
  rfl

/-- **What sealing a block does to a stage.** -/
structure SealStep (block : NodeId) (s t : Stage) : Prop where
  step : Step s t
  evolves : ∃ c, Builder.Evolves 0 s.toBuilder c ∧ c.WellFormed ∧ t.graph = c.graph ∧
    t.forwarded = c.forwarded
  isSealed : ∀ n, t.isSealed n = true ↔ n = block ∨ s.isSealed n = true
  current : t.current = s.current
  written : t.written = s.written

theorem sealStep (hwf : s.WellFormed) (hb : (s.graph.kind block).isBlock)
    (h : s.sealBlock block = .ok c) :
    SealStep block s (s.on c) := by
  obtain ⟨e, hr, rfl⟩ := sealBlock_spec hwf h
  refine ⟨.seals hb h, ⟨e, hr.evolves, hr.wf, rfl, rfl⟩, fun n => ?_, hr.evolves.current, rfl⟩
  refine (isSealed_mark e block n).trans (or_congr_right ?_)
  unfold Builder.isSealed
  rw [hr.evolves.sealedBlocks]

theorem SealStep.jumps (h : SealStep block s t) (hn : (s.graph.kind n).isBlock) :
    t.graph.operands n = s.graph.operands n := by
  obtain ⟨c, hev, -, hgraph, -⟩ := h.evolves
  rw [hgraph]
  exact hev.jumps n hn

theorem SealStep.isBlock_eq (h : SealStep block s t) (n : NodeId) :
    (t.graph.kind n).isBlock = (s.graph.kind n).isBlock := by
  obtain ⟨c, hev, -, hgraph, -⟩ := h.evolves
  rw [hgraph]
  exact hev.isBlock_eq n

theorem SealStep.isTerminator (h : SealStep block s t) (hn : s.graph.size ≤ n) :
    (t.graph.kind n).isTerminator = false := by
  obtain ⟨c, hev, -, hgraph, -⟩ := h.evolves
  rw [hgraph]
  exact isTerminator_of_evolves hev hn

theorem Wired.seals (h : s.Wired) (hblock : (s.graph.kind block).isBlock)
    (hne : block ≠ endBlock) (hs : SealStep block s t) : t.Wired := by
  obtain ⟨c, hev, hwf, hgraph, hf⟩ := hs.evolves
  refine h.of_steps (.single hs.step) (fun n hn => ?_) ?_ (fun n hn hb => ?_)
    (fun n hn => hs.isTerminator hn)
    (fun n hn => hs.jumps (hs.isBlock_eq n ▸ hn)) ?_
  · refine ((hs.isSealed n).1 hn).symm.imp_right fun he => ?_
    rw [he, hs.isBlock_eq, hblock]
  · rw [← Bool.not_eq_true, hs.isSealed, not_or, Bool.not_eq_true]
    exact ⟨Ne.symm hne, h.finalOpen⟩
  · rw [hgraph] at hb
    cases (not_isBlock_of_evolves hev hn).symm.trans hb
  · have hstanding := standing_of_evolves h.standing hev hwf
    unfold Builder.Standing Builder.Stands at hstanding ⊢
    rwa [hgraph, hf]

/-! ## Reads and seals come to a result -/

/-- In a wired stage, a read near blocks that a path leads to ends. -/
theorem Wired.roads (h : s.Wired) (slot : Slot) :
    Builder.Roads slot (fun n => (s.graph.kind n).isBlock ∧ s.graph.Reaches n)
      s.toBuilder := by
  refine ⟨h.wf, h.entry, fun block hn _ => hn.2, fun block hn _ _ jump hj => ?_⟩
  exact ⟨h.wf.home jump (h.wf.coherent.closed block jump hj),
    h.reaches jump (h.wf.jumps block hn.1 jump hj)⟩

theorem Wired.exists_read (h : s.Wired) (slot : Slot) (hb : (s.graph.kind block).isBlock)
    (hr : s.graph.Reaches block) :
    ∃ value c, s.read slot block = .ok (value, c) := by
  obtain ⟨⟨value, c⟩, hread⟩ := (h.roads slot).exists_read (fun _ hn => hn.1) ⟨hb, hr⟩
  exact ⟨value, c, hread⟩

theorem Wired.exists_seals (h : s.Wired) (hb : (s.graph.kind block).isBlock) :
    ∃ c, s.sealBlock block = .ok c :=
  exists_sealBlock h.roads (fun _ hn => hn.1) hb fun jump hj =>
    ⟨h.wf.home jump (h.wf.coherent.closed block jump hj),
      h.reaches jump (h.wf.jumps block hb jump hj)⟩

/-! ## Parts of a construction -/

/-- **A part of a construction is confined to some blocks**: of the blocks that
were there before, it ends those in `ended` at most, seals those in `sealing`
and adds edges to those in `joined`. The end block gets its edges from
returns. -/
structure Confined (ended sealing joined : NodeId → Prop) (s t : Stage) : Prop where
  steps : Steps s t
  ends : ∀ m, s.graph.size ≤ m → (t.graph.kind m).isTerminator = true →
    ended (t.graph.blockOf m) ∨ s.graph.size ≤ t.graph.blockOf m
  isSealed : ∀ n < s.graph.size, ¬ sealing n → t.isSealed n = s.isSealed n
  jumps : ∀ n, (s.graph.kind n).isBlock = true → ¬ joined n → n ≠ endBlock →
    t.graph.operands n = s.graph.operands n

variable {ended sealing joined ended' sealing' joined' own goal own' goal' pending
  pending' : NodeId → Prop}

theorem Confined.trans (h : Confined ended sealing joined s t)
    (h' : Confined ended' sealing' joined' t u) (hwf : s.WellFormed)
    (hended : ∀ n, ended' n → ended n ∨ s.graph.size ≤ n)
    (hsealing : ∀ n, sealing' n → sealing n ∨ s.graph.size ≤ n)
    (hj : ∀ n, joined' n → joined n ∨ s.graph.size ≤ n) :
    Confined ended sealing joined s u := by
  have hg := h.steps.grows hwf
  have hg' := h'.steps.grows (h.steps.wf hwf)
  refine ⟨h.steps.trans h'.steps, fun m hm ht => ?_, fun n hn hk => ?_, fun n hn hk hne => ?_⟩
  · by_cases hlt : m < t.graph.size
    · rw [hg'.kind m hlt] at ht
      rw [hg'.blockOf m hlt]
      exact h.ends m hm ht
    · rcases h'.ends m (not_lt.1 hlt) ht with he | hle
      · exact hended _ he
      · exact .inr (hg.size_le.trans hle)
  · rw [h'.isSealed n (hn.trans_le hg.size_le) fun hk' =>
      (hsealing n hk').elim hk (Nat.not_le.2 hn), h.isSealed n hn hk]
  · rw [h'.jumps n (hg.isBlock hn) (fun hk' =>
      (hj n hk').elim hk (Nat.not_le.2 (lt_of_isBlock hn))) hne,
      h.jumps n hn hk hne]

/-- A block that is not ended stays open. -/
theorem Confined.isOpen (h : Confined ended sealing joined s t) (hwf : s.WellFormed)
    (hn : n < s.graph.size) (ho : s.Open n) (hne : ¬ ended n) : t.Open n := by
  have hg := h.steps.grows hwf
  intro m hm he
  by_cases hlt : m < s.graph.size
  · rw [hg.kind m hlt] at hm
    rw [hg.blockOf m hlt] at he
    exact ho m hm he
  · rcases h.ends m (not_lt.1 hlt) hm with hended | hle
    · exact hne (he ▸ hended)
    · exact Nat.not_lt.2 (he ▸ hle) hn

/-- **Control comes from the blocks of a part to its goals**: from those it was
given and from the new ones, except for new blocks without a predecessor. -/
def Onward (own goal : NodeId → Prop) (s t : Stage) : Prop :=
  ∀ n, own n ∨ s.graph.size ≤ n → (t.graph.kind n).isBlock = true →
    (t.graph.operands n = [] ∧ ¬ own n) ∨ ∃ g, goal g ∧ t.graph.Leads n g

theorem Leads.isBlock (h : g.Leads block target) (hb : (g.kind block).isBlock) :
    (g.kind target).isBlock := by
  induction h with
  | refl => exact hb
  | tail _ he _ => exact he.1

/-- Blocks that a part leaves alone may be counted among its own and among its
goals. -/
theorem Onward.frame (h : Onward own goal s t) (extra : NodeId → Prop) :
    Onward (fun n => own n ∨ extra n) (fun n => goal n ∨ extra n) s t := by
  intro n hn hb
  by_cases he : extra n
  · exact .inr ⟨n, .inr he, .refl⟩
  · refine (h n (hn.imp_left (Or.resolve_right · he)) hb).imp (fun hd => ?_) ?_
    · exact ⟨hd.1, fun ho => ho.elim hd.2 he⟩
    · exact fun ⟨g, hg, hl⟩ => ⟨g, .inl hg, hl⟩

theorem Onward.mono (h : Onward own goal s t) (hown : ∀ n, own' n → own n)
    (hgoal : ∀ n, goal n → goal' n) : Onward own' goal' s t := fun n hn hb =>
  (h n (hn.imp_left (hown n)) hb).imp (fun hd => ⟨hd.1, fun ho => hd.2 (hown n ho)⟩)
    fun ⟨g, hg, hl⟩ => ⟨g, hgoal g hg, hl⟩

/-- **One part after another**: what the first leads to is what the second
starts from. -/
theorem Onward.trans (h : Onward own goal s t) (h' : Onward own' goal' t u)
    (hc : Confined ended sealing joined t u) (hwf : t.WellFormed)
    (hsize : s.graph.size ≤ t.graph.size)
    (hown : ∀ n, own n → n < s.graph.size) (hgoal : ∀ g, goal g → own' g)
    (hj : ∀ n, joined n → own' n) (hend : endBlock < s.graph.size) :
    Onward own goal' s u := by
  have hg := hc.steps.grows hwf
  intro n hn hb
  by_cases hlt : n < t.graph.size
  · rw [hg.kind n hlt] at hb
    rcases h n hn hb with ⟨hnil, hnot⟩ | ⟨g, hgoal', hl⟩
    · have hle := hn.resolve_left hnot
      by_cases hk : joined n
      · refine (h' n (.inl (hj n hk)) (hg.isBlock hb)).imp_left fun hd => ?_
        exact absurd (hj n hk) hd.2
      · refine .inl ⟨(hc.jumps n hb hk fun he => ?_).trans hnil, hnot⟩
        exact Nat.not_lt.2 hle (he ▸ hend)
    · have hown' := hgoal g hgoal'
      rcases h' g (.inl hown') (hg.isBlock (Leads.isBlock hl hb)) with
        hd | ⟨g', hg', hl'⟩
      · exact absurd hown' hd.2
      · exact .inr ⟨g', hg', Relation.ReflTransGen.trans (hg.leads hwf hl) hl'⟩
  · have hle := not_lt.1 hlt
    refine (h' n (.inr hle) hb).imp_left fun hd => ⟨hd.1, fun ho => ?_⟩
    exact hlt ((hown n ho).trans_le hsize)

/-- **All blocks made in a part are sealed**, but for some that are pending. -/
def SealsBut (pending : NodeId → Prop) (s t : Stage) : Prop :=
  ∀ n, s.graph.size ≤ n → (t.graph.kind n).isBlock = true → t.isSealed n = true ∨ pending n

theorem SealsBut.trans (h : SealsBut pending s t) (h' : SealsBut pending' t u) (hg : Grows t u)
    (hp : ∀ n, pending n → u.isSealed n ∨ pending' n) :
    SealsBut pending' s u := by
  intro n hn hb
  by_cases hlt : n < t.graph.size
  · rw [hg.kind n hlt] at hb
    exact (h n hn hb).elim (fun hs => .inl (hg.isSealed n hs)) (hp n)
  · exact h' n (not_lt.1 hlt) hb

/-! ### The parts that are single steps -/

/-- A part that makes neither blocks nor jumps and seals nothing. -/
structure Quiet (s t : Stage) : Prop where
  steps : Steps s t
  isBlock : ∀ n, s.graph.size ≤ n → (t.graph.kind n).isBlock = false
  isTerminator : ∀ n, s.graph.size ≤ n → (t.graph.kind n).isTerminator = false
  jumps : ∀ n, (s.graph.kind n).isBlock = true → t.graph.operands n = s.graph.operands n
  sealedBlocks : t.sealedBlocks = s.sealedBlocks

theorem Quiet.refl (s : Stage) : Quiet s s where
  steps := .refl
  isBlock := fun n hn => by rw [kind_of_size_le s.graph hn]; rfl
  isTerminator := fun n hn => by rw [kind_of_size_le s.graph hn]; rfl
  jumps := fun _ _ => rfl
  sealedBlocks := rfl

section

variable (h : Quiet s t)

include h

theorem Quiet.trans (h' : Quiet t u) (hwf : s.WellFormed) : Quiet s u := by
  have hg := h.steps.grows hwf
  have hg' := h'.steps.grows (h.steps.wf hwf)
  refine ⟨h.steps.trans h'.steps, fun n hn => ?_, fun n hn => ?_,
    fun n hn => (h'.jumps n (hg.isBlock hn)).trans (h.jumps n hn),
    h'.sealedBlocks.trans h.sealedBlocks⟩
  · by_cases hlt : n < t.graph.size
    · rw [hg'.kind n hlt]
      exact h.isBlock n hn
    · exact h'.isBlock n (not_lt.1 hlt)
  · by_cases hlt : n < t.graph.size
    · rw [hg'.kind n hlt]
      exact h.isTerminator n hn
    · exact h'.isTerminator n (not_lt.1 hlt)

theorem Quiet.isSealed (n : NodeId) : t.isSealed n = s.isSealed n := by
  unfold Builder.isSealed
  rw [h.sealedBlocks]

theorem Quiet.isBlock_eq (hwf : s.WellFormed) (n : NodeId) :
    (t.graph.kind n).isBlock = (s.graph.kind n).isBlock := by
  by_cases hlt : n < s.graph.size
  · rw [(h.steps.grows hwf).kind n hlt]
  · rw [h.isBlock n (not_lt.1 hlt), kind_of_size_le s.graph (not_lt.1 hlt)]
    rfl

theorem Quiet.confined (ended sealing joined : NodeId → Prop) :
    Confined ended sealing joined s t where
  steps := h.steps
  ends := fun m hm ht => absurd ((h.isTerminator m hm).symm.trans ht) nofun
  isSealed := fun n _ _ => h.isSealed n
  jumps := fun n hn _ _ => h.jumps n hn

theorem Quiet.onward (own : NodeId → Prop) : Onward own own s t := by
  intro n hn hb
  rcases hn with hn | hn
  · exact .inr ⟨n, hn, .refl⟩
  · cases (h.isBlock n hn).symm.trans hb

theorem Quiet.sealsBut (pending : NodeId → Prop) : SealsBut pending s t :=
  fun n hn hb => absurd ((h.isBlock n hn).symm.trans hb) nofun

theorem Quiet.wired (hs : s.Wired) (hstanding : t.Standing) : t.Wired :=
  hs.of_steps h.steps (fun n hn => .inl ((h.isSealed n).symm.trans hn))
    ((h.isSealed _).trans hs.finalOpen)
    (fun n hn hb => absurd ((h.isBlock n hn).symm.trans hb) nofun) h.isTerminator
    (fun n hn => h.jumps n (h.isBlock_eq hs.wf n ▸ hn)) hstanding

end

theorem confined_newBlock (s : Stage) (role : String) (ended sealing joined : NodeId → Prop) :
    Confined ended sealing joined s (s.newBlock role) where
  steps := .single (.newBlock role)
  ends := fun m hm ht => by
    rw [isTerminator_newBlock] at ht
    exact absurd (lt_of_isTerminator ht) (Nat.not_lt.2 hm)
  isSealed := fun _ _ _ => rfl
  jumps := fun n _ _ _ => s.operands_newBlock role n

theorem onward_newBlock (role : String) (hown : ∀ n, own n → n < s.graph.size) :
    Onward own own s (s.newBlock role) := by
  intro n hn hblock
  rcases hn with hn | hn
  · exact .inr ⟨n, hn, .refl⟩
  · refine .inl ⟨?_, fun ho => Nat.not_lt.2 hn (hown n ho)⟩
    rw [operands_newBlock, s.graph.operands_of_size_le hn]

theorem sealsBut_newBlock (role : String) (hp : pending s.graph.size) :
    SealsBut pending s (s.newBlock role) := fun n hn hblock => by
  obtain rfl := ((s.isBlock_newBlock role n).1 hblock).resolve_right fun hb =>
    Nat.not_lt.2 hn (lt_of_isBlock hb)
  exact .inr hp

theorem quiet_enter (hb : (s.graph.kind block).isBlock) : Quiet s (s.enter block) :=
  { Quiet.refl s with steps := .single (.enter hb) }

theorem quiet_put (hb : (s.graph.kind block).isBlock) (ho : s.Open block)
    (hn : n < s.graph.size) : Quiet s (s.put slot block n) :=
  { Quiet.refl s with steps := .single (.write hb ho hn) }

theorem SealStep.confined (h : SealStep block s t) (ended joined : NodeId → Prop) :
    Confined ended (· = block) joined s t where
  steps := .single h.step
  ends := fun _ hm ht => absurd ((h.isTerminator hm).symm.trans ht) nofun
  isSealed := fun n _ hne => Bool.eq_iff_iff.2 ((h.isSealed n).trans (or_iff_right hne))
  jumps := fun _ hn _ _ => h.jumps hn

theorem SealStep.onward (h : SealStep block s t) (own : NodeId → Prop) : Onward own own s t := by
  intro n hn hb
  rcases hn with hn | hn
  · exact .inr ⟨n, hn, .refl⟩
  · rw [h.isBlock_eq, kind_of_size_le s.graph hn] at hb
    cases hb

theorem SealStep.sealsBut (h : SealStep block s t) (pending : NodeId → Prop) :
    SealsBut pending s t := fun n hn hb => by
  rw [h.isBlock_eq, kind_of_size_le s.graph hn] at hb
  cases hb

/-- The jump leads from the current block to its targets. -/
theorem mem_preds_leave (htargets : ∀ target ∈ kind.exits, (s.graph.kind target).isBlock ∧
      s.isSealed target = false) (ht : target ∈ kind.exits) :
    s.current ∈ (s.leave kind operands).graph.preds target := by
  refine mem_map.2 ⟨s.graph.size, ?_,
    (blockOf_leave s.toBuilder kind s.current operands _).trans (if_pos rfl)⟩
  have hlt := lt_of_isBlock (htargets target ht).1
  rw [show (s.leave kind operands).graph.operands target = _ from
    operands_leave s.toBuilder s.current operands (fun target ht =>
      lt_of_isBlock (htargets target ht).1) target, if_neg hlt.ne]
  exact mem_append_right _ (mem_replicate.2 ⟨Nat.ne_of_gt (count_pos_iff.2 ht), rfl⟩)

section Leave

variable (hwired : s.Wired) (hkind : kind.isTerminator = true)
  (hops : ∀ a ∈ operands, a < s.graph.size)
  (htargets : ∀ target ∈ kind.exits, (s.graph.kind target).isBlock = true ∧
    s.isSealed target = false)

include hwired hkind hops htargets

theorem confined_leave (sealing : NodeId → Prop) :
    Confined (· = s.current) sealing (· ∈ kind.exits) s (s.leave kind operands) where
  steps := .single (step_leave hwired hkind hops htargets)
  ends := fun m hm ht => by
    have hlt := lt_of_isTerminator ht
    have hsize : (s.leave kind operands).graph.size = s.graph.size + 1 :=
      size_leave s.toBuilder kind s.current operands
    obtain rfl : m = s.graph.size := (Nat.le_of_lt_succ (hlt.trans_eq hsize)).antisymm hm
    exact .inl ((blockOf_leave s.toBuilder kind s.current operands _).trans (if_pos rfl))
  isSealed := fun _ _ _ => rfl
  jumps := fun n hn hnot _ => by
    refine (operands_leave s.toBuilder s.current operands (fun target ht =>
      lt_of_isBlock (htargets target ht).1) n).trans ?_
    rw [if_neg (lt_of_isBlock hn).ne, count_eq_zero_of_not_mem hnot]
    exact append_nil _

theorem onward_leave :
    Onward (fun n => n = s.current ∨ n ∈ kind.exits) (· ∈ kind.exits) s (s.leave kind operands) := by
  have hg := (step_leave hwired hkind hops htargets).grows hwired.wf
  obtain ⟨target, ht⟩ : ∃ target, target ∈ kind.exits := by
    cases kind <;> first | exact ⟨_, .head _⟩ | cases hkind
  intro n hn hb
  rcases hn with (rfl | hn) | hn
  · refine .inr ⟨target, ht, .single ⟨hg.isBlock (htargets target ht).1, ?_⟩⟩
    exact mem_preds_leave htargets ht
  · exact .inr ⟨n, hn, .refl⟩
  · -- The jump itself is the only new node.
    have hlt := lt_of_isBlock hb
    have hsize : (s.leave kind operands).graph.size = s.graph.size + 1 :=
      size_leave s.toBuilder kind s.current operands
    obtain rfl : n = s.graph.size := (Nat.le_of_lt_succ (hlt.trans_eq hsize)).antisymm hn
    rw [show (s.leave kind operands).graph.kind s.graph.size = kind from
      (kind_leave s.toBuilder kind s.current operands _).trans (if_pos rfl),
      isBlock_eq_false_of_isTerminator hkind] at hb
    cases hb

end Leave

theorem sealsBut_leave (hkind : kind.isTerminator) (pending : NodeId → Prop) :
    SealsBut pending s (s.leave kind operands) := by
  intro n hn hb
  rw [show (s.leave kind operands).graph.kind n = _ from
    kind_leave s.toBuilder kind s.current operands n] at hb
  split at hb
  · cases (isBlock_eq_false_of_isTerminator hkind).symm.trans hb
  · rw [kind_of_size_le s.graph hn] at hb
    cases hb

/-! ### Parts in sequence -/

/-- **A part of a construction**, with what it does to the blocks that were
there before, where control comes from it, and the new blocks it leaves
unsealed. -/
structure Part (ended sealing joined own goal pending : NodeId → Prop) (s t : Stage) : Prop
    extends Confined ended sealing joined s t where
  wired : t.Wired
  onward : Onward own goal s t
  sealsBut : SealsBut pending s t

section

variable (h : Part ended sealing joined own goal pending s t)

include h

theorem Part.frame (extra : NodeId → Prop) :
    Part ended sealing joined (fun n => own n ∨ extra n) (fun n => goal n ∨ extra n) pending s t :=
  { h with onward := h.onward.frame extra }

/-- The same part with other goals. -/
theorem Part.redirect
    (hgoal : ∀ n, goal n → (t.graph.kind n).isBlock → ∃ g, goal' g ∧ t.graph.Leads n g) :
    Part ended sealing joined own goal' pending s t :=
  { h with
    onward := fun n hn hb => (h.onward n hn hb).imp_right fun ⟨g, hg, hl⟩ => by
      obtain ⟨g', hg', hl'⟩ := hgoal g hg (Leads.isBlock hl hb)
      exact ⟨g', hg', Relation.ReflTransGen.trans hl hl'⟩ }

/-- **One part after another.** -/
theorem Part.trans (h' : Part ended' sealing' joined' own' goal' pending' t u) (hs : s.Wired)
    (hown : ∀ n, own n → n < s.graph.size) (he : ∀ n, ended' n → ended n ∨ s.graph.size ≤ n)
    (hsealing : ∀ n, sealing' n → sealing n ∨ s.graph.size ≤ n)
    (hj : ∀ n, joined' n → joined n ∨ s.graph.size ≤ n) (hgoal : ∀ n, goal n → own' n)
    (hjoin : ∀ n, joined' n → own' n) (hp : ∀ n, pending' n → pending n) :
    Part ended sealing joined own goal' pending s u := by
  have hwf := h.wired.wf
  refine { h.toConfined.trans h'.toConfined hs.wf he hsealing hj with
    wired := h'.wired, onward := ?_, sealsBut := ?_ }
  · exact h.onward.trans h'.onward h'.toConfined hwf (h.steps.grows hs.wf).size_le hown
      hgoal hjoin (lt_of_isBlock hs.final)
  · exact h.sealsBut.trans (fun n hn hb => (h'.sealsBut n hn hb).imp_right (hp n))
      (h'.steps.grows hwf) fun _ hn => .inr hn

theorem Part.mono (he : ∀ n, ended n → ended' n) (hsealing : ∀ n, sealing n → sealing' n)
    (hj : ∀ n, joined n → joined' n) (hown : ∀ n, own' n → own n)
    (hgoal : ∀ n, goal n → goal' n) : Part ended' sealing' joined' own' goal' pending s t where
  steps := h.steps
  ends := fun m hm ht => (h.ends m hm ht).imp_left (he _)
  isSealed := fun n hn hk => h.isSealed n hn fun hk' => hk (hsealing n hk')
  jumps := fun n hn hk => h.jumps n hn fun hk' => hk (hj n hk')
  wired := h.wired
  onward := h.onward.mono hown hgoal
  sealsBut := h.sealsBut

end

theorem Quiet.part (h : Quiet s t) (ht : t.Wired) (ended sealing joined own pending : NodeId → Prop) :
    Part ended sealing joined own own pending s t :=
  { h.confined ended sealing joined with
    wired := ht, onward := h.onward own, sealsBut := h.sealsBut pending }

theorem SealStep.part (h : SealStep block s t) (ht : t.Wired)
    (ended joined own pending : NodeId → Prop) :
    Part ended (· = block) joined own own pending s t :=
  { h.confined ended joined with
    wired := ht, onward := h.onward own, sealsBut := h.sealsBut pending }

section Append

variable (h : Part ended sealing joined own goal pending s t) (hs : s.Wired)
  (hown : ∀ n, own n → n < s.graph.size)

include h hs hown

theorem Part.quiet (h' : Quiet t u) (hu : u.Wired) :
    Part ended sealing joined own goal pending s u :=
  h.trans (h'.part hu ended sealing (fun _ => False) goal pending) hs hown (fun _ => .inl)
    (fun _ => .inl) (fun _ => False.elim) (fun _ => id) (fun _ => False.elim) fun _ => id

theorem Part.seals (h' : SealStep block t u) (hu : u.Wired) (hle : s.graph.size ≤ block) :
    Part ended sealing joined own goal pending s u :=
  h.trans (h'.part hu ended (fun _ => False) goal pending) hs hown (fun _ => .inl)
    (fun _ hn => .inr (hn ▸ hle)) (fun _ => False.elim) (fun _ => id) (fun _ => False.elim)
    fun _ => id

theorem Part.newBlock (hgoal : ∀ n, goal n → n < t.graph.size) (role : String)
    (hp : pending t.graph.size) :
    Part ended sealing joined own goal pending s (t.newBlock role) := by
  have hnew : Part ended sealing (fun _ => False) goal goal pending t (t.newBlock role) :=
    { confined_newBlock t role ended sealing (fun _ => False) with
      wired := h.wired.newBlock role
      onward := onward_newBlock role hgoal
      sealsBut := sealsBut_newBlock role hp }
  exact h.trans hnew hs hown (fun _ => .inl) (fun _ => .inl) (fun _ => False.elim) (fun _ => id)
    (fun _ => False.elim) fun _ => id

end Append

end Stage

end SsaCompiler
