import SsaCompiler.Proofs.Builder.Request
import SsaCompiler.Proofs.Builder.Sound

/-!
# What the caller of a builder does

A **stage** of a construction is a builder together with what its caller has
written so far. `Step` lists what a well-behaved caller does: it adds no
predecessor to a sealed block, and it writes nothing in a block that already
ends in a jump. Everything else about a construction is derived from the
steps.

A step keeps the builder well formed, and it *grows* the stage
(`Grows`). Growth is transitive, so it relates any stage to the last one;
and a stage agrees with a blueprint if a later one does
(`agrees_of_grows`).
-/

namespace SsaCompiler

open List Graph Builder

/-- A block is **open** as long as nothing ends it. -/
def Builder.Open (b : Builder) (block : NodeId) : Prop :=
  ∀ n, (b.graph.kind n).isTerminator = true → b.graph.blockOf n ≠ block

/-- **A stage of a construction**: a builder, and what its caller has written
so far. -/
structure Stage extends Builder where
  written : Builder.Writes

namespace Stage

variable {s t u : Stage} {F : Blueprint} {slot : Slot} {block value n : NodeId} {kind : Kind}
  {operands : List NodeId} {role : String}

/-- Go on with another builder; the caller writes nothing. -/
def on (s : Stage) (b : Builder) : Stage :=
  ⟨b, s.written⟩

@[simp] theorem toBuilder_on (s : Stage) (b : Builder) : (s.on b).toBuilder = b := rfl

@[simp] theorem written_on (s : Stage) (b : Builder) : (s.on b).written = s.written := rfl

/-- The caller writes a slot in a block. -/
def put (s : Stage) (slot : Slot) (block value : NodeId) : Stage :=
  ⟨s.toBuilder.write slot block value, fun block' slot' =>
    if block' = block ∧ slot' = slot then some value else s.written block' slot'⟩

/-- **What a well-behaved caller does.** -/
inductive Step (s : Stage) : Stage → Prop
  | newBlock (role : String) : Step s (s.on (s.toBuilder.newBlock role).2)
  | enter {block : NodeId} (hblock : (s.graph.kind block).isBlock = true) :
      Step s (s.on (s.toBuilder.enter block))
  | write {slot : Slot} {block value : NodeId} (hblock : (s.graph.kind block).isBlock = true)
      (hopen : s.Open block) (hvalue : value < s.graph.size) : Step s (s.put slot block value)
  | read {slot : Slot} {block value : NodeId} {c : Builder}
      (hblock : (s.graph.kind block).isBlock = true)
      (h : s.toBuilder.read slot block = .ok (value, c)) : Step s (s.on c)
  | seals {block : NodeId} {c : Builder} (hblock : (s.graph.kind block).isBlock = true)
      (h : s.toBuilder.sealBlock block = .ok c) : Step s (s.on c)
  | compute {kind : Kind} {block : NodeId} {operands : List NodeId} (hkind : kind.isPlain = true)
      (hblock : (s.graph.kind block).isBlock = true) (hops : ∀ a ∈ operands, a < s.graph.size) :
      Step s (s.on (s.toBuilder.lift (s.toDraft.add kind block operands)).2)
  | place {kind : Kind} {block : NodeId} {operands : List NodeId} (hkind : kind.isPlain = true)
      (hblock : (s.graph.kind block).isBlock = true) (hops : ∀ a ∈ operands, a < s.graph.size) :
      Step s (s.on (s.toBuilder.place kind block operands).2)
  | leave {kind : Kind} {block : NodeId} {operands : List NodeId}
      (hkind : kind.isTerminator = true) (hblock : (s.graph.kind block).isBlock = true)
      (hops : ∀ a ∈ operands, a < s.graph.size)
      (htargets : ∀ target ∈ kind.exits, (s.graph.kind target).isBlock = true ∧
        s.isSealed target = false) :
      Step s (s.on (s.toBuilder.leave kind block operands))

/-- **A stage comes from another by steps.** -/
abbrev Steps : Stage → Stage → Prop :=
  Relation.ReflTransGen Step

/-- A step is a move of a strict caller. -/
theorem Step.move (h : Step s t) : Builder.Move true s.toBuilder t.toBuilder := by
  cases h with
  | newBlock role => exact .newBlock role
  | enter hb => exact .enter hb
  | write hb _ hv => exact .write hb hv
  | read hb h => exact .read hb h
  | seals hb h => exact .seals hb h
  | compute hk hb ho => exact .compute hk hb ho
  | place hk hb ho => exact .place hk hb ho
  | leave hk hb ho htargets =>
    exact .leave hk hb ho fun target ht =>
      ⟨(htargets target ht).1, fun _ => (htargets target ht).2⟩

/-- A step keeps the builder well formed. -/
theorem Step.wf (h : Step s t) (hwf : s.WellFormed) : t.WellFormed := h.move.wf hwf

theorem Steps.wf (h : Steps s t) (hwf : s.WellFormed) :
    t.WellFormed := by
  induction h with
  | refl => exact hwf
  | tail _ hs ih => exact hs.wf ih

/-! ## Growth -/

/-- **A well-behaved construction has come from one stage to another.** -/
structure Grows (s t : Stage) : Prop where
  name : t.graph.name = s.graph.name
  size_le : s.graph.size ≤ t.graph.size
  kind : ∀ n < s.graph.size, t.graph.kind n = s.graph.kind n
  blockOf : ∀ n < s.graph.size, t.graph.blockOf n = s.graph.blockOf n
  /-- Where a merge was retired in between, its users hold what stands for it. -/
  resolved : ∃ new, t.forwarded = new ++ s.forwarded ∧
    ∀ n < s.graph.size, (s.graph.kind n).isPhi = false → (s.graph.kind n).isBlock = false →
      t.graph.operands n = (s.graph.operands n).map (Builder.root new)
  jumps : ∀ n, (s.graph.kind n).isBlock = true → s.graph.operands n <+: t.graph.operands n
  sealedJumps : ∀ n, (s.graph.kind n).isBlock = true → s.isSealed n = true →
    t.graph.operands n = s.graph.operands n
  isSealed : ∀ n, s.isSealed n = true → t.isSealed n = true
  defs : s.defs <:+ t.defs
  written : ∀ n, (s.graph.kind n).isBlock = true → ∀ jump ∈ s.graph.operands n,
    t.written (s.graph.blockOf jump) = s.written (s.graph.blockOf jump)

theorem grows_of_evolves {old : Nat} {c : Builder} (h : Builder.Evolves old s.toBuilder c) :
    Grows s (s.on c) where
  name := h.name
  size_le := h.size_le
  kind := h.kind
  blockOf := h.blockOf
  resolved := by
    obtain ⟨new, heq, hops⟩ := h.resolved
    exact ⟨new, heq, fun n hn hk _ => hops n hn hk⟩
  jumps := fun n hn => h.jumps n hn ▸ prefix_refl _
  sealedJumps := fun n hn _ => h.jumps n hn
  isSealed := fun n hn => by
    show c.sealedBlocks.contains n = true
    rw [h.sealedBlocks]
    exact hn
  defs := h.defs
  written := fun _ _ _ _ => rfl

theorem Grows.refl (s : Stage) : Grows s s := grows_of_evolves (.refl 0 s.toBuilder)

theorem Grows.isBlock (h : Grows s t) (hn : (s.graph.kind n).isBlock) :
    (t.graph.kind n).isBlock := by
  rwa [h.kind n (lt_of_isBlock hn)]

theorem Grows.trans (h : Grows s t) (h' : Grows t u) (hwf : s.WellFormed) : Grows s u where
  name := h'.name.trans h.name
  size_le := h.size_le.trans h'.size_le
  kind := fun n hn => (h'.kind n (hn.trans_le h.size_le)).trans (h.kind n hn)
  blockOf := fun n hn => (h'.blockOf n (hn.trans_le h.size_le)).trans (h.blockOf n hn)
  resolved := by
    obtain ⟨new, heq, hops⟩ := h.resolved
    obtain ⟨new', heq', hops'⟩ := h'.resolved
    refine ⟨new' ++ new, by rw [heq', heq, append_assoc], fun n hn hk hb => ?_⟩
    have hkind := h.kind n hn
    rw [hops' n (hn.trans_le h.size_le) (by rw [hkind]; exact hk)
      (by rw [hkind]; exact hb), hops n hn hk hb, map_map]
    exact map_congr_left fun a _ => (root_append new' new a).symm
  jumps := fun n hn => (h.jumps n hn).trans (h'.jumps n (h.isBlock hn))
  sealedJumps := fun n hn hs =>
    (h'.sealedJumps n (h.isBlock hn) (h.isSealed n hs)).trans (h.sealedJumps n hn hs)
  isSealed := fun n hn => h'.isSealed n (h.isSealed n hn)
  defs := h.defs.trans h'.defs
  written := fun n hn jump hj => by
    have hlt := hwf.coherent.closed n jump hj
    have := h'.written n (h.isBlock hn) jump ((h.jumps n hn).subset hj)
    rw [h.blockOf jump hlt] at this
    exact this.trans (h.written n hn jump hj)

theorem Grows.forwarded (h : Grows s t) : s.forwarded <:+ t.forwarded := by
  obtain ⟨new, heq, -⟩ := h.resolved
  exact ⟨new, heq.symm⟩

/-- A new node, whatever its kind, is growth. -/
theorem grows_of_adds {d : Draft} (h : s.toDraft.Appends kind block d) :
    Grows s (s.on { s.toBuilder with toDraft := d }) where
  name := h.name
  size_le := ((Nat.lt_succ_self _).trans_eq h.size.symm).le
  kind := fun n hn => (h.kind n).trans (if_neg hn.ne)
  blockOf := fun n hn => (h.blockOf n).trans (if_neg hn.ne)
  resolved := ⟨[], rfl, fun n hn _ _ =>
    (h.operands n hn.ne).trans (map_id _).symm⟩
  jumps := fun _ hn => (h.operands _ (lt_of_isBlock hn).ne) ▸
    prefix_refl _
  sealedJumps := fun n hn _ => h.operands n (lt_of_isBlock hn).ne
  isSealed := fun _ hn => hn
  defs := suffix_refl _
  written := fun _ _ _ _ => rfl

theorem grows_newBlock (s : Stage) (role : String) :
    Grows s (s.on (s.toBuilder.newBlock role).2) := by
  obtain ⟨label, hnew⟩ := s.exists_appends_newBlock role
  exact grows_of_adds hnew

/-- The caller writes only where no jump has been made. -/
theorem grows_put (hwf : s.WellFormed) (slot : Slot) (value : NodeId)
    (ho : s.Open block) : Grows s (s.put slot block value) :=
  { Grows.refl s with
    defs := suffix_cons _ _
    written := fun n hn jump hj => by
      have hne := ho jump (hwf.jumps n hn jump hj)
      funext slot'
      exact if_neg fun h => hne h.1 }

/-- Jumps are added to blocks that are not sealed. -/
theorem grows_leave (htargets : ∀ target ∈ kind.exits, (s.graph.kind target).isBlock ∧
      s.isSealed target = false) :
    Grows s (s.on (s.toBuilder.leave kind block operands)) := by
  have hlt : ∀ target ∈ kind.exits, target < s.graph.size := fun target ht =>
    lt_of_isBlock (htargets target ht).1
  have ho : ∀ n < s.graph.size, (s.leave kind block operands).graph.operands n =
        s.graph.operands n ++ List.replicate (kind.exits.count n) s.graph.size := fun n hn =>
    (operands_leave s.toBuilder block operands hlt n).trans
      (if_neg hn.ne)
  have hsame : ∀ n < s.graph.size, n ∉ kind.exits →
      (s.leave kind block operands).graph.operands n = s.graph.operands n :=
    fun n hn hnot => by
      rw [ho n hn, count_eq_zero_of_not_mem hnot]
      exact append_nil _
  refine
    { Grows.refl s with
      name := (sameNodes_leave s.toBuilder kind block operands).name.trans
        (s.adds_addNode kind block operands).name,
      size_le := Nat.le_of_lt (Nat.lt_of_lt_of_eq (Nat.lt_succ_self _)
        (size_leave s.toBuilder kind block operands).symm),
      kind := fun n hn => (kind_leave s.toBuilder kind block operands n).trans
        (if_neg hn.ne),
      blockOf := fun n hn =>
        (blockOf_leave s.toBuilder kind block operands n).trans
          (if_neg hn.ne),
      resolved := ⟨[], rfl, fun n hn _ hb => ?_⟩, jumps := fun n hn => ?_,
      sealedJumps := fun n hn hs => ?_ }
  · refine (hsame n hn fun ht => ?_).trans (map_id _).symm
    cases hb.symm.trans (htargets n ht).1
  · exact ⟨_, (ho n (lt_of_isBlock hn)).symm⟩
  · refine hsame n (lt_of_isBlock hn) fun ht => ?_
    cases hs.symm.trans (htargets n ht).2

/-- **A step grows the stage.** -/
theorem Step.grows (h : Step s t) (hwf : s.WellFormed) : Grows s t := by
  cases h with
  | newBlock role => exact grows_newBlock s role
  | enter => exact { Grows.refl s with }
  | write _ ho _ => exact grows_put hwf _ _ ho
  | read hb h => exact grows_of_evolves (tidy_read hwf hb h).evolves
  | @seals block c hb h =>
    obtain ⟨e, hr, rfl⟩ := sealBlock_spec hwf h
    have hg := grows_of_evolves hr.evolves
    refine { hg with isSealed := fun n hn => ?_ }
    have hn : n ∈ e.sealedBlocks := contains_iff_mem.1 (hg.isSealed n hn)
    refine contains_iff_mem.2 (mem_cons.2 ?_)
    by_cases he : n = block
    · exact .inl he
    · exact .inr (mem_filter.2 ⟨hn, decide_eq_true he⟩)
  | compute => exact grows_of_adds (s.add_spec _ _ _).1.appends
  | place => exact grows_of_adds (s.adds_addNode _ _ _).appends
  | leave _ _ _ ht => exact grows_leave ht

theorem Steps.grows (h : Steps s t) (hwf : s.WellFormed) : Grows s t := by
  induction h with
  | refl => exact .refl s
  | tail hs hstep ih => exact ih.trans (hstep.grows (Steps.wf hs hwf)) hwf

/-- A stage agrees with a blueprint if a later one does. -/
theorem agrees_of_grows (h : Builder.Agrees F t.written t.toBuilder) (hg : Grows s t)
    (hwf : s.WellFormed) :
    Builder.Agrees F s.written s.toBuilder :=
  h.back hwf hg.size_le hg.kind hg.blockOf hg.jumps
    (fun n hn hs => ⟨hg.isSealed n hs, hg.sealedJumps n hn hs⟩) hg.defs hg.forwarded hg.written

end Stage

end SsaCompiler
