import Mathlib.Data.Finset.Card
import SsaCompiler.Proofs.Builder.Read
import SsaCompiler.Proofs.Graph.Path

/-!
# Reads come to an end

A read that finds no definition in a sealed block with one predecessor goes
on there. The blocks it passes in this way are a **corridor**. At the end of
the corridor the slot is defined, or the block is not sealed, or it is a
**fork**: a sealed block with no predecessor or several. Then the fork is
given a merge, and that ends every corridor that leads to it. So each merge
on the way inward takes all blocks of its corridor out of the blocks that
lead to a fork, and **the bound of a read, twice the number of nodes, is
never used up** (`Roads.exists_read`).

A corridor ends because a path from the start block runs through it. Without
such a path a read might go round in a circle of blocks with one predecessor
each; hence reads are asked for only near blocks that can be reached
(`Roads`).
-/

namespace SsaCompiler.Builder

open List

variable {b c : Builder} {old bound : Nat} {slot : Slot} {block pred last n phi : NodeId}
  {passed : List NodeId} {read : Builder → Slot → NodeId → Except Fault (NodeId × Builder)}

/-! ## Corridors -/

/-- **A read goes on in the only predecessor** of a block. -/
structure Passes (b : Builder) (slot : Slot) (block pred : NodeId) : Prop where
  undefined : b.definition? slot block = none
  isSealed : b.isSealed block = true
  only : ∃ jump, b.graph.operands block = [jump] ∧ b.graph.blockOf jump = pred

/-- **A read makes a merge** in a block. -/
structure Forks (b : Builder) (slot : Slot) (block : NodeId) : Prop where
  undefined : b.definition? slot block = none
  isSealed : b.isSealed block = true
  many : ∀ jump, b.graph.operands block ≠ [jump]

/-- **The blocks that a read passes** on its way to the block `last`. -/
inductive Corridor (b : Builder) (slot : Slot) : NodeId → List NodeId → NodeId → Prop
  | here (block : NodeId) : Corridor b slot block [] block
  | step {block pred last : NodeId} {passed : List NodeId} (h : b.Passes slot block pred)
      (hrest : Corridor b slot pred passed last) : Corridor b slot block (block :: passed) last

/-- The read does not go on from a block. -/
def Stops (b : Builder) (slot : Slot) (block : NodeId) : Prop :=
  ∀ pred, ¬ b.Passes slot block pred

theorem Forks.stops (h : b.Forks slot block) : b.Stops slot block := fun _ hp => by
  obtain ⟨jump, hj, -⟩ := hp.only
  exact h.many jump hj

theorem Passes.unique {pred' : NodeId} (h : b.Passes slot block pred)
    (h' : b.Passes slot block pred') : pred = pred' := by
  obtain ⟨jump, hj, rfl⟩ := h.only
  obtain ⟨jump', hj', rfl⟩ := h'.only
  rw [singleton_inj.1 (hj.symm.trans hj')]

/-- **A corridor is determined by where it begins.** -/
theorem Corridor.unique {passed' : List NodeId} {last' : NodeId}
    (h : Corridor b slot block passed last) (h' : Corridor b slot block passed' last')
    (hl : b.Stops slot last) (hl' : b.Stops slot last') : passed = passed' ∧ last = last' := by
  induction h generalizing passed' with
  | here block =>
    cases h' with
    | here => exact ⟨rfl, rfl⟩
    | step hp => exact absurd hp (hl _)
  | step hp hrest ih =>
    cases h' with
    | here => exact absurd hp (hl' _)
    | step hp' hrest' =>
      obtain rfl := hp.unique hp'
      obtain ⟨rfl, rfl⟩ := ih hrest' hl
      exact ⟨rfl, rfl⟩

theorem Corridor.of_mem (h : Corridor b slot block passed last) (hn : n ∈ passed) :
    (∃ pred, b.Passes slot n pred) ∧ ∃ rest, rest <:+ passed ∧ Corridor b slot n rest last := by
  induction h with
  | here => cases hn
  | step hp hr ih =>
    rcases mem_cons.1 hn with rfl | hn
    · exact ⟨⟨_, hp⟩, _, suffix_refl _, .step hp hr⟩
    · obtain ⟨hnext, rest, hs, hc⟩ := ih hn
      exact ⟨hnext, rest, hs.trans (suffix_cons _ _), hc⟩

/-- **A corridor passes no block twice.** -/
theorem Corridor.nodup (h : Corridor b slot block passed last) (hl : b.Stops slot last) :
    (last :: passed).Nodup := by
  refine nodup_cons.2 ⟨fun hm => ?_, ?_⟩
  · obtain ⟨⟨pred, hp⟩, -⟩ := h.of_mem hm
    exact hl pred hp
  · induction h with
    | here => exact nodup_nil
    | @step block pred last passed hp hr ih =>
      refine nodup_cons.2 ⟨fun hm => ?_, ih hl⟩
      obtain ⟨-, rest, hs, hc⟩ := hr.of_mem hm
      obtain ⟨rfl, -⟩ := (Corridor.step hp hr).unique hc hl hl
      exact absurd hs.length_le (Nat.not_succ_le_self _)

theorem Passes.isBlock (h : b.Passes slot block pred) (hwf : b.WellFormed) :
    (b.graph.kind pred).isBlock := by
  obtain ⟨jump, hj, rfl⟩ := h.only
  exact hwf.home jump (hwf.coherent.closed block jump (hj ▸ mem_singleton_self jump))

theorem Corridor.isBlock (h : Corridor b slot block passed last) (hwf : b.WellFormed)
    (hb : (b.graph.kind block).isBlock) :
    ∀ n ∈ last :: passed, (b.graph.kind n).isBlock := by
  induction h with
  | here => exact fun n hn => mem_singleton.1 hn ▸ hb
  | step hp hr ih =>
    have hr := ih (hp.isBlock hwf)
    intro n hn
    rcases mem_cons.1 hn with rfl | hn
    · exact hr n (.head _)
    · rcases mem_cons.1 hn with rfl | hn
      · exact hb
      · exact hr n (.tail _ hn)

/-- A corridor is shorter than a bound on the blocks. -/
theorem Corridor.length_lt {most : Nat} (h : Corridor b slot block passed last)
    (hl : b.Stops slot last) (hwf : b.WellFormed) (hblock : (b.graph.kind block).isBlock)
    (hb : ∀ n, (b.graph.kind n).isBlock → n < most) : passed.length < most := by
  have hs : last :: passed ⊆ List.range most := fun n hn =>
    mem_range.2 (hb n (h.isBlock hwf hblock n hn))
  have := (subperm_of_subset (h.nodup hl) hs).length_le
  rwa [length_range] at this

/-- **A read comes through a corridor** if it comes to a result at its end. -/
theorem Corridor.exists_read (h : Corridor b slot block passed last)
    (hl : ∃ r, readWithin bound b slot last = .ok r) :
    ∃ r, readWithin (bound + passed.length) b slot block = .ok r := by
  induction h with
  | here => exact hl
  | step hp hrest ih =>
    obtain ⟨⟨value, c⟩, hr⟩ := ih hl
    obtain ⟨jump, hops, rfl⟩ := hp.only
    exact ⟨_, readWithin_eq_ok.2 ⟨_, rfl, .passes hp.undefined hp.isSealed hops hr⟩⟩

/-! ## Corridors while a read goes on -/

theorem Evolves.isBlock_eq (h : Evolves old b c) (n : NodeId) :
    (c.graph.kind n).isBlock = (b.graph.kind n).isBlock := by
  by_cases hn : n < b.graph.size
  · rw [h.kind n hn]
  · have hle := not_lt.1 hn
    rw [kind_of_size_le b.graph hle]
    rcases h.fresh n hle with hphi | hu
    · exact Kind.isBlock_eq_false_of_isPhi hphi
    · rw [hu]

theorem Evolves.passes (hev : Evolves old b c) (hwf : b.WellFormed)
    (hb : (b.graph.kind block).isBlock) (h : c.Passes slot block pred) :
    b.Passes slot block pred := by
  obtain ⟨hdef, hs, jump, ho, hp⟩ := h
  rw [hev.jumps block hb] at ho
  refine ⟨definition?_eq_none_of_suffix hev.defs hdef, ?_, jump, ho, ?_⟩
  · unfold Builder.isSealed at hs ⊢
    rwa [← hev.sealedBlocks]
  · rw [← hp, hev.blockOf jump (hwf.coherent.closed block jump (ho ▸ mem_singleton_self _))]

theorem Evolves.forks (hev : Evolves old b c) (hb : (b.graph.kind block).isBlock)
    (h : c.Forks slot block) : b.Forks slot block := by
  obtain ⟨hdef, hs, hm⟩ := h
  refine ⟨definition?_eq_none_of_suffix hev.defs hdef, ?_, fun jump => ?_⟩
  · unfold Builder.isSealed at hs ⊢
    rwa [← hev.sealedBlocks]
  · rw [← hev.jumps block hb]
    exact hm jump

theorem Evolves.corridor (hev : Evolves old b c) (hwf : b.WellFormed)
    (hb : (b.graph.kind block).isBlock) (h : Corridor c slot block passed last) :
    Corridor b slot block passed last := by
  induction h with
  | here => exact .here _
  | step hp _ ih =>
    have hp' := hev.passes hwf hb hp
    exact .step hp' (ih (hp'.isBlock hwf))

open Classical in
/-- **The blocks from which a read comes to a fork.** -/
noncomputable def leading (b : Builder) (slot : Slot) : Finset NodeId :=
  {n ∈ Finset.range b.graph.size | (b.graph.kind n).isBlock = true ∧
    ∃ passed last, Corridor b slot n passed last ∧ b.Forks slot last}

open Classical in
theorem mem_leading : n ∈ b.leading slot ↔ (b.graph.kind n).isBlock ∧
      ∃ passed last, Corridor b slot n passed last ∧ b.Forks slot last := by
  unfold leading
  rw [Finset.mem_filter, Finset.mem_range]
  exact ⟨And.right, fun h => ⟨lt_of_isBlock h.1, h⟩⟩

/-- Blocks only cease to lead to a fork. -/
theorem Evolves.leading_subset (hev : Evolves old b c) (hwf : b.WellFormed) (slot : Slot) :
    c.leading slot ⊆ b.leading slot := by
  intro n hn
  obtain ⟨hb, passed, last, hc, hf⟩ := mem_leading.1 hn
  rw [hev.isBlock_eq] at hb
  have hc' := hev.corridor hwf hb hc
  exact mem_leading.2 ⟨hb, passed, last, hc', hev.forks (hc'.isBlock hwf hb last (.head _)) hf⟩

/-- **A merge in a fork closes the corridor that led to it.** -/
theorem Corridor.card_leading (h : Corridor b slot block passed last) (hwf : b.WellFormed)
    (hb : (b.graph.kind block).isBlock) (hf : b.Forks slot last) (hev : Evolves old b c)
    (hdef : c.definition? slot last ≠ none) :
    (c.leading slot).card + passed.length + 1 ≤ (b.leading slot).card := by
  have hnodup := h.nodup hf.stops
  have hi := h.isBlock hwf hb
  have hr : ∀ n ∈ last :: passed, ∃ rest, Corridor b slot n rest last := fun n hn => by
    rcases mem_cons.1 hn with rfl | hn
    · exact ⟨_, .here n⟩
    · obtain ⟨-, rest, -, hc⟩ := h.of_mem hn
      exact ⟨rest, hc⟩
  have hs : (last :: passed).toFinset ⊆ b.leading slot := fun n hn => by
    have hn := mem_toFinset.1 hn
    obtain ⟨rest, hc⟩ := hr n hn
    exact mem_leading.2 ⟨hi n hn, rest, last, hc, hf⟩
  -- Whatever still leads to a fork leads to another one.
  have hd : Disjoint (c.leading slot) (last :: passed).toFinset := by
    refine Finset.disjoint_left.2 fun n hn hm => ?_
    have hm := mem_toFinset.1 hm
    obtain ⟨-, passed', last', hc', hf'⟩ := mem_leading.1 hn
    obtain ⟨rest, hc⟩ := hr n hm
    have hc' := hev.corridor hwf (hi n hm) hc'
    have hb' := hc'.isBlock hwf (hi n hm) last' (.head _)
    obtain ⟨-, rfl⟩ := hc.unique hc' hf.stops (hev.forks hb' hf').stops
    exact hdef hf'.undefined
  calc (c.leading slot).card + passed.length + 1
      = (c.leading slot).card + (last :: passed).toFinset.card := by
        rw [toFinset_card_of_nodup hnodup, length_cons, Nat.add_assoc]
    _ = (c.leading slot ∪ (last :: passed).toFinset).card :=
        (Finset.card_union_of_disjoint hd).symm
    _ ≤ (b.leading slot).card :=
        Finset.card_le_card (Finset.union_subset (hev.leading_subset hwf slot) hs)

/-- Fewer blocks lead to a fork as soon as a merge is opened there. -/
theorem Corridor.card_leading_openMerge (h : Corridor b slot block passed last)
    (hwf : b.WellFormed) (hb : (b.graph.kind block).isBlock) (hf : b.Forks slot last)
    (hev : Evolves 0 (b.openMerge slot last) c) :
    Evolves 0 b c ∧ (c.leading slot).card + passed.length + 1 ≤ (b.leading slot).card := by
  have he := (evolves_openMerge slot last (Nat.zero_le _)).trans hev
  refine ⟨he, h.card_leading hwf hb hf he fun hn => ?_⟩
  cases (definition?_write _ slot last _).symm.trans (definition?_eq_none_of_suffix hev.defs hn)

/-! ## Reads -/

/-- **A read near some blocks comes to an end**: where it goes on from a
sealed block, it stays near, and a path leads there. -/
structure Roads (slot : Slot) (near : NodeId → Prop) (b : Builder) : Prop where
  wf : b.WellFormed
  entry : b.graph.operands Graph.startBlock = []
  reaches : ∀ block, near block → b.isSealed block = true → b.graph.Reaches block
  closed : ∀ block, near block → b.isSealed block = true → b.definition? slot block = none →
    ∀ jump ∈ b.graph.operands block, near (b.graph.blockOf jump)

variable {near : NodeId → Prop}

/-- The blocks that a path enters on its way to a block. -/
theorem isBlock_of_isPath (hwf : b.WellFormed) {path : Path} (h : IsPath b.graph.preds path)
    (hl : (b.graph.kind (Path.last path)).isBlock) :
    ∀ edge ∈ path, (b.graph.kind edge.1).isBlock := by
  induction h with
  | nil => exact forall_mem_nil _
  | @cons path block index h hedge ih =>
    obtain ⟨jump, hj, hp⟩ := mem_map.1 (mem_of_getElem? hedge)
    intro edge he
    rcases mem_cons.1 he with rfl | he
    · exact hl
    · exact ih (hp ▸ hwf.home jump (hwf.coherent.closed block jump hj)) edge he

theorem Evolves.reaches (hev : Evolves old b c) (hwf : b.WellFormed)
    (hb : (b.graph.kind block).isBlock) (h : b.graph.Reaches block) :
    c.graph.Reaches block := by
  obtain ⟨path, hp, rfl⟩ := h
  refine ⟨path, hp.mono fun edge he => ?_, rfl⟩
  unfold Graph.preds
  rw [hev.map_blockOf hwf (isBlock_of_isPath hwf hp hb edge he)]

theorem Roads.of_evolves (h : Roads slot near b) (hev : Evolves old b c) (hwf : c.WellFormed)
    (hnear : ∀ block, near block → (b.graph.kind block).isBlock) : Roads slot near c := by
  have hsealed : ∀ {block}, c.isSealed block = true → b.isSealed block = true := fun hs => by
    unfold Builder.isSealed at hs ⊢
    rwa [← hev.sealedBlocks]
  refine ⟨hwf, (hev.jumps _ h.wf.entry).trans h.entry, fun block hn hs => ?_,
    fun block hn hs hdef jump hj => ?_⟩
  · exact hev.reaches h.wf (hnear block hn) (h.reaches block hn (hsealed hs))
  · rw [hev.jumps block (hnear block hn)] at hj
    rw [hev.blockOf jump (h.wf.coherent.closed block jump hj)]
    exact h.closed block hn (hsealed hs) (definition?_eq_none_of_suffix hev.defs hdef) jump hj

/-- **A corridor ends**, because a path runs through it. -/
theorem Roads.exists_corridor (h : Roads slot near b) (hn : near block) :
    ∃ passed last, Corridor b slot block passed last ∧ near last ∧
      (b.definition? slot last ≠ none ∨ b.isSealed last = false ∨ b.Forks slot last) := by
  by_cases hs : b.isSealed block = true
  · obtain ⟨path, hpath, hl⟩ := h.reaches block hn hs
    -- The path to the only predecessor is shorter.
    induction hpath generalizing block with
    | nil =>
      refine ⟨[], block, .here block, hn, or_iff_not_imp_left.2 fun hd => .inr ?_⟩
      refine ⟨not_not.1 hd, hs, fun jump hj => ?_⟩
      rw [← hl, show Path.last [] = Graph.startBlock from rfl, h.entry] at hj
      cases hj
    | @cons path block' index hpath he ih =>
      obtain rfl : block' = block := hl
      by_cases hd : b.definition? slot block' = none
      · by_cases ho : ∃ jump, b.graph.operands block' = [jump]
        · obtain ⟨jump, hops⟩ := ho
          have hp : b.Passes slot block' (b.graph.blockOf jump) :=
            ⟨hd, hs, jump, hops, rfl⟩
          have hn' := h.closed block' hn hs hd jump (hops ▸ mem_singleton_self _)
          have hpred : Path.last path = b.graph.blockOf jump := by
            unfold Graph.preds at he
            rw [hops] at he
            exact mem_singleton.1 (mem_of_getElem? he)
          by_cases hs' : b.isSealed (b.graph.blockOf jump) = true
          · obtain ⟨passed, last, hc, hr⟩ := ih hn' hs' hpred
            exact ⟨_, last, .step hp hc, hr⟩
          · exact ⟨_, _, .step hp (.here _), hn', .inr (.inl (Bool.eq_false_iff.2 hs'))⟩
        · exact ⟨[], block', .here block', hn, .inr (.inr ⟨hd, hs, not_exists.1 ho⟩)⟩
      · exact ⟨[], block', .here block', hn, .inl hd⟩
  · exact ⟨[], block, .here block, hn, .inr (.inl (Bool.eq_false_iff.2 hs))⟩

theorem Filling.evolves {value : NodeId} (h : Filling phi b) (hr : ReadResult slot b value c) :
    Evolves 0 b (c.withGraph (c.graph.pushOperand phi value)) := by
  have hphi : (c.graph.kind phi).isPhi = true := by
    rw [hr.evolves.kind phi (lt_of_isPhi h.isPhi)]
    exact h.isPhi
  exact (hr.evolves.mono (Nat.zero_le _)).trans (evolves_push value hphi (Nat.zero_le _))

/-- **The operands of a merge are read** if each of them can be read at any
time. -/
theorem exists_fills (ht : Tidy read) (hb : (b.graph.kind block).isBlock)
    (hread : ∀ {c : Builder}, c.WellFormed → Evolves 0 b c → ∀ jump ∈ b.graph.operands block,
      ∃ r, read c slot (b.graph.blockOf jump) = .ok r) {indices : List Nat}
    (hindices : ∀ i ∈ indices, i < (b.graph.operands block).length) (hwfB : b.WellFormed)
    (hev : Evolves 0 b c) (hf : Filling phi c) :
    ∃ d, Fills read slot phi block indices c d := by
  induction indices generalizing c with
  | nil => exact ⟨c, .nil⟩
  | cons index rest ih =>
    have hwf := hf.wf
    have hindex := hindices index (.head _)
    have hm : (b.graph.operands block)[index] ∈ b.graph.operands block := getElem_mem hindex
    have hlt := hwfB.coherent.closed block _ hm
    have hp : c.graph.predecessor? block index =
        some (b.graph.blockOf (b.graph.operands block)[index]) := by
      show ((c.graph.operands block)[index]?).map c.graph.blockOf = _
      rw [hev.jumps block hb, getElem?_eq_getElem hindex, Option.map_some, hev.blockOf _ hlt]
    obtain ⟨⟨value, d⟩, hr⟩ := hread hwf hev _ hm
    have hresult := ht hwf (isBlock_of_predecessor? hwf hp) hr
    obtain ⟨e, he⟩ := ih (fun i hi => hindices i (.tail _ hi))
      (hev.trans (hf.evolves hresult)) (hf.push hresult)
    exact ⟨e, .cons hp hr he⟩

theorem exists_complete (ht : Tidy read) (hf : Filling phi b)
    (hr : ∀ {c : Builder}, c.WellFormed → Evolves 0 b c →
      ∀ jump ∈ b.graph.operands (b.graph.blockOf phi),
        ∃ r, read c slot (b.graph.blockOf jump) = .ok r) :
    ∃ r, complete read b slot phi = .ok r := by
  have hwf := hf.wf
  obtain ⟨d, hd⟩ := exists_fills ht (hwf.home phi (lt_of_isPhi hf.isPhi)) hr
    (fun i hi => mem_range.1 hi) hwf (.refl 0 b) hf
  exact ⟨_, complete_eq_ok.2 ⟨d, hd, rfl⟩⟩

/-- **A read with a bound beyond the blocks that lead to a fork**, and once
more all blocks, comes to a result. -/
theorem Roads.exists_readWithin {most : Nat} (h : Roads slot near b)
    (hnear : ∀ block, near block → (b.graph.kind block).isBlock) (hb : near block)
    (hblocks : ∀ n, (b.graph.kind n).isBlock → n < most)
    (hbound : (b.leading slot).card + most < bound) :
    ∃ r, readWithin bound b slot block = .ok r := by
  -- The induction is on the number of blocks that lead to a fork.
  induction hcard : (b.leading slot).card using Nat.strongRecOn generalizing b block bound with
  | ind card ih =>
    have hwf := h.wf
    obtain ⟨passed, last, hc, hl, he⟩ := h.exists_corridor hb
    have hstops : b.Stops slot last := by
      rcases he with hd | hs | hf
      · exact fun _ hp => hd hp.undefined
      · exact fun _ hp => absurd (hs.symm.trans hp.isSealed) nofun
      · exact hf.stops
    have hlength := hc.length_lt hstops hwf (hnear block hb) hblocks
    obtain ⟨rest, rfl⟩ : ∃ rest, bound = rest + 1 + passed.length :=
      ⟨bound - (passed.length + 1), by omega⟩
    refine hc.exists_read ?_
    by_cases hd : b.definition? slot last = none
    · rcases he with hne | hs | hf
      · exact absurd hd hne
      · exact ⟨_, readWithin_eq_ok.2 ⟨_, rfl, .waits hd hs⟩⟩
      · have hlastBlock := hnear last hl
        have hevO : Evolves 0 b (b.openMerge slot last) :=
          evolves_openMerge slot last (Nat.zero_le _)
        have hh : (b.openMerge slot last).graph.blockOf b.graph.size = last :=
          (blockOf_openMerge b slot last _).trans (if_pos rfl)
        obtain ⟨⟨value, c⟩, hcomplete⟩ : ∃ r, complete (readWithin rest)
            (b.openMerge slot last) slot b.graph.size = .ok r := by
          refine exists_complete (tidy_readWithin rest) (hwf.filling_openMerge hlastBlock hd)
            fun {c} hwfC hevC jump hj => ?_
          rw [hh, operands_openMerge] at hj
          have hjumpNear := h.closed last hl hf.isSealed hd jump hj
          rw [hevO.blockOf jump (hwf.coherent.closed last jump hj)]
          obtain ⟨hev, hfewer⟩ :=
            hc.card_leading_openMerge hwf (hnear block hb) hf hevC
          refine ih _ (by omega) (h.of_evolves hev hwfC hnear) (fun n hn => ?_) hjumpNear
            (fun n hn => ?_) (by omega) rfl
          · rw [hev.isBlock_eq]
            exact hnear n hn
          · exact hblocks n (hev.isBlock_eq n ▸ hn)
        exact ⟨_, readWithin_eq_ok.2 ⟨_, rfl, .merges hd hf.isSealed hf.many hcomplete⟩⟩
    · obtain ⟨node, hnode⟩ := Option.ne_none_iff_exists'.1 hd
      exact ⟨_, readWithin_eq_ok.2 ⟨_, rfl, .found hnode⟩⟩

open Classical in
theorem card_leading_le (b : Builder) (slot : Slot) : (b.leading slot).card ≤ b.graph.size := by
  unfold leading
  exact (Finset.card_filter_le _ _).trans_eq (Finset.card_range _)

/-- A read comes to a result. -/
theorem Roads.exists_read (h : Roads slot near b)
    (hnear : ∀ block, near block → (b.graph.kind block).isBlock) (hb : near block) :
    ∃ r, b.read slot block = .ok r := by
  have hcard := b.card_leading_le slot
  exact h.exists_readWithin hnear hb (fun n hn => lt_of_isBlock hn)
    (show (b.leading slot).card + b.graph.size < 2 * b.graph.size + 2 by omega)

/-! ## Sealing -/

theorem exists_completesAll {l : List Placeholder} (hroads : ∀ slot, Roads slot near b)
    (hnear : ∀ block, near block → (b.graph.kind block).isBlock) (hpending : Pending l b)
    (hh : ∀ p ∈ l, b.graph.blockOf p.phi = block)
    (hjumps : ∀ jump ∈ b.graph.operands block, near (b.graph.blockOf jump)) :
    ∃ c, CompletesAll l b c := by
  induction l generalizing b with
  | nil => exact ⟨b, .nil⟩
  | cons p l ih =>
    have hwf := (hroads p.slot).wf
    have hp := hh p (.head _)
    have hb : (b.graph.kind block).isBlock = true :=
      hp ▸ hwf.home p.phi (lt_of_isPhi (hpending.filling hwf).isPhi)
    obtain ⟨⟨value, c⟩, hf⟩ : ∃ r, complete read b p.slot p.phi = .ok r := by
      refine exists_complete tidy_read (hpending.filling hwf) fun {c} hwfC hev jump hj => ?_
      refine ((hroads p.slot).of_evolves hev hwfC hnear).exists_read (fun n hn => ?_)
        (hjumps jump (hp ▸ hj))
      rw [hev.isBlock_eq]
      exact hnear n hn
    have hr := hpending.head hwf hf
    obtain ⟨d, hd⟩ := ih (fun slot => (hroads slot).of_evolves hr.evolves hr.wf hnear)
      (fun n hn => by rw [hr.evolves.isBlock_eq]; exact hnear n hn) (hpending.tail hr)
      (fun q hq => by
        rw [hr.evolves.blockOf q.phi (lt_of_isPhi (hpending.merge q (.tail _ hq)).1)]
        exact hh q (.tail _ hq))
      (fun jump hj => by
        rw [hr.evolves.jumps block hb] at hj
        rw [hr.evolves.blockOf jump (hwf.coherent.closed block jump hj)]
        exact hjumps jump hj)
    exact ⟨d, .cons hf hd⟩

theorem exists_completeWhere (which : Slot → Bool) (hr : ∀ slot, Roads slot near b)
    (hn : ∀ block, near block → (b.graph.kind block).isBlock)
    (hj : ∀ jump ∈ b.graph.operands block, near (b.graph.blockOf jump)) :
    ∃ c, completeWhere which b block = .ok c := by
  have hwf := (hr .effect).wf
  have hh : ∀ p ∈ due which b block, b.graph.blockOf p.phi = block := fun p hp => by
    obtain ⟨hmem, hdue⟩ := mem_filter.1 hp
    exact (hwf.waiting p hmem).2.2.1.trans (beq_iff_eq.1 (Bool.and_eq_true _ _ ▸ hdue).1)
  obtain ⟨c, hc⟩ := exists_completesAll (b := { b with placeholders := notDue which b block })
    (fun slot => ⟨hwf.notDue which block, (hr slot).entry, (hr slot).reaches,
      (hr slot).closed⟩) hn (hwf.pending which block) hh hj
  exact ⟨c, completeWhere_eq_ok.2 hc⟩

/-- **Sealing a block comes to a result.** -/
theorem exists_sealBlock (hr : ∀ slot, Roads slot near b)
    (hnear : ∀ block, near block → (b.graph.kind block).isBlock)
    (hb : (b.graph.kind block).isBlock)
    (hjumps : ∀ jump ∈ b.graph.operands block, near (b.graph.blockOf jump)) :
    ∃ c, b.sealBlock block = .ok c := by
  have hwf := (hr .effect).wf
  obtain ⟨d, hd⟩ := exists_completeWhere (· ≠ .effect) hr hnear hjumps
  obtain ⟨hwfD, hev, -⟩ := completeWhere_spec hwf hd
  obtain ⟨e, he⟩ := exists_completeWhere (b := d) (· = .effect)
    (fun slot => (hr slot).of_evolves hev hwfD hnear)
    (fun n hn => by rw [hev.isBlock_eq]; exact hnear n hn) fun jump hj => by
      rw [hev.jumps block hb] at hj
      rw [hev.blockOf jump (hwf.coherent.closed block jump hj)]
      exact hjumps jump hj
  exact ⟨_, sealBlock_eq_ok.2 ⟨d, e, hd, he, rfl⟩⟩

end SsaCompiler.Builder
