import Mathlib.Data.List.Perm.Subperm
import SsaCompiler.Proofs.Builder.Read

/-!
# Merges that stay

Two things hold of a merge that is neither retired nor waiting nor pending.
It **merges at least two nodes** other than itself (`Merging`), and it
belongs to a block that gets no more predecessors and has **one operand for
each of them** (`Full`). The second half about operands is kept by strict
callers only, who add no predecessor to a sealed block.

Retiring a merge can leave another one trivial, but only one that used it.
So the users of a retired merge are *suspects*, and simplifying looks at all
of them again (`simplify_merging`). Its bound is large enough because every
step inward follows the retirement of one more merge.
-/

namespace SsaCompiler.Builder

open List

variable {b c d : Builder} {old : Nat} {first phi value block n : NodeId} {slot : Slot}
  {suspects pending : List NodeId}

/-! ## Looking at suspects again -/

/-- **Every merge that stands merges two nodes**, unless it waits or is a
suspect. -/
def Merging (suspects : List NodeId) (b : Builder) : Prop :=
  ∀ n, (b.graph.kind n).isPhi = true → b.Stands n → n ∉ suspects →
    (∃ q ∈ b.placeholders, q.phi = n) ∨ 2 ≤ (b.merged n).length

theorem merged_congr (h : c.graph.operands n = b.graph.operands n) : c.merged n = b.merged n := by
  unfold merged
  rw [h]

/-- Where merges keep their operands, those that merged two nodes still do. -/
theorem Merging.transport (h : Merging suspects b)
    (hphi : ∀ n, (c.graph.kind n).isPhi → c.Stands n → n ∉ suspects → (b.graph.kind n).isPhi
      ∧ b.Stands n ∧ c.graph.operands n = b.graph.operands n)
    (hp : b.placeholders ⊆ c.placeholders) : Merging suspects c := by
  intro n hn hs hnot
  obtain ⟨hk, hs', hops⟩ := hphi n hn hs hnot
  rw [merged_congr hops]
  exact (h n hk hs' hnot).imp_left fun ⟨q, hq, he⟩ => ⟨q, hp hq, he⟩

theorem Merging.undefined (h : Merging suspects b) : Merging suspects b.undefined.2 := by
  have ha := (b.add_spec .undefined Graph.startBlock []).1
  refine h.transport (fun n hn hs _ => ?_) (List.Subset.refl _)
  obtain ⟨-, hk, hops, -⟩ := ha.appends.of_isPhi rfl hn
  exact ⟨hk, hs, hops⟩

/-- **When a merge is retired, its users become suspects.** -/
theorem Merging.retire (h : Merging (phi :: suspects) b) (hwf : b.WellFormed)
    (hstands : b.Stands phi) (value : NodeId) :
    Merging ((b.graph.users phi).filter (· ≠ phi) ++ suspects) (b.retire phi value) := by
  have hsame := sameNodes_retire b phi value
  intro n hn hs hnot
  unfold Stands at hs
  rw [forwarded_retire hstands, lookup_cons_eq_none] at hs
  rw [mem_append, not_or] at hnot
  have hu : phi ∉ b.graph.operands n := fun hm =>
    hnot.1 (mem_filter.2 ⟨hwf.coherent.mem_users.2 hm, decide_eq_true hs.1⟩)
  have hops : (b.retire phi value).graph.operands n = b.graph.operands n :=
    ((operands_retire hwf.toShaped phi value n).trans (if_neg hs.1)).trans
      (map_replace_of_not_mem hu)
  rw [merged_congr hops]
  refine h n (hsame.kind n ▸ hn) hs.2 fun hm => ?_
  exact (mem_cons.1 hm).elim hs.1 hnot.2

/-- The merges that stand. -/
def standing (b : Builder) : List NodeId :=
  b.graph.ids.filter fun n => (b.graph.kind n).isPhi && (b.forwarded.lookup n).isNone

theorem mem_standing : n ∈ b.standing ↔ (b.graph.kind n).isPhi ∧ b.Stands n := by
  unfold standing Graph.ids Stands
  rw [mem_filter, mem_range, Bool.and_eq_true, Option.isNone_iff_eq_none]
  exact ⟨And.right, fun h => ⟨lt_of_isPhi h.1, h⟩⟩

theorem nodup_standing (b : Builder) : b.standing.Nodup := nodup_range.filter _

theorem length_standing_le (b : Builder) : b.standing.length ≤ b.graph.size :=
  (length_filter_le _ _).trans length_range.le

theorem Thins.standing_subset (h : Thins first b c) (hev : Evolves old b c) :
    c.standing ⊆ b.standing := fun n hn => by
  obtain ⟨hp, hs⟩ := mem_standing.1 hn
  exact mem_standing.2 ⟨hev.kind n (h.merge_lt n hp) ▸ hp, h.stands n hs⟩

theorem Thins.length_standing_le (h : Thins first b c) (hev : Evolves old b c) :
    c.standing.length ≤ b.standing.length :=
  (subperm_of_subset (nodup_standing c) (h.standing_subset hev)).length_le

theorem not_stands_retire (h : b.Stands phi) (value : NodeId) :
    ¬ (b.retire phi value).Stands phi := fun hs => by
  unfold Stands at hs
  rw [forwarded_retire h, lookup_cons_eq_none] at hs
  exact hs.1 rfl

/-- One merge fewer stands after a retirement. -/
theorem Thins.length_standing_lt (h : Thins first b c) (hev : Evolves old b c)
    (hphi : (b.graph.kind phi).isPhi) (hs : b.Stands phi) (hr : ¬ c.Stands phi) :
    c.standing.length < b.standing.length := by
  have hn : (phi :: c.standing).Nodup :=
    nodup_cons.2 ⟨fun hmem => hr (mem_standing.1 hmem).2, nodup_standing c⟩
  have hsubset : phi :: c.standing ⊆ b.standing :=
    cons_subset.2 ⟨mem_standing.2 ⟨hphi, hs⟩, h.standing_subset hev⟩
  exact (subperm_of_subset hn hsubset).length_le

theorem Replaces.length_standing_lt (h : Replaces b phi d value) (hr : Ready old first b)
    (hp : Retirable old first b phi) :
    (d.retire phi value).standing.length < b.standing.length := by
  obtain ⟨⟨-, hev, ht⟩, hphi', -⟩ := h.spec hr hp
  obtain ⟨-, hev', ht'⟩ := h.retire hr hp
  exact Nat.lt_of_lt_of_le (ht'.length_standing_lt hev' hphi'.isPhi hphi'.stands
    (not_stands_retire hphi'.stands _)) (ht.length_standing_le hev)

theorem length_standing_le_of_chain (h : Relation.ReflTransGen (Retires old first) b c)
    (hr : Ready old first b) : c.standing.length ≤ b.standing.length :=
  have ⟨_, hev, ht⟩ := chain_spec h hr
  ht.length_standing_le hev

/-- **After simplifying, a suspect is one no more**: it merges two nodes or is
retired, and so is every merge that became trivial on the way. -/
theorem simplify_merging (bound : Nat) (hr : Ready old first b)
    (hp : Retirable old first b phi) (hb : b.standing.length < bound)
    (h : Merging (phi :: suspects) b) : Merging suspects (b.simplify bound phi).2 := by
  refine (simplify_induction
    (P := fun bound b phi r => b.standing.length < bound → ∀ {suspects},
      Merging (phi :: suspects) b → Merging suspects r.2)
    (Q := fun bound users b c => b.standing.length < bound → ∀ {suspects},
      Merging (users ++ suspects) b → Merging suspects c)
    (fun {_ _ phi} _ _ hmany hb _ h n hn hs hnot => ?_)
    (fun {_ b d phi value c} hr hp hreplaces _ hu hb suspects h => ?_)
    (fun _ _ h => h) (fun huser hrest hb _ h => hrest hb fun n hn hs hnot => ?_)
    (fun hr _ hc hf hrest hb _ h => ?_) bound hr hp).2 hb h
  · by_cases he : n = phi
    · exact .inr (he ▸ hmany (Nat.zero_lt_of_lt hb))
    · exact h n hn hs fun hmem => (mem_cons.1 hmem).elim he hnot
  · have hfewer := hreplaces.length_standing_lt hr hp
    obtain ⟨⟨hr', -⟩, hphi', -⟩ := hreplaces.spec hr hp
    have hm : Merging (phi :: suspects) d := by
      cases hreplaces with
      | single => exact h
      | none => exact h.undefined
    exact hu (by omega) (hm.retire hr'.wf hphi'.stands value)
  · -- What is no merge or was retired need not be looked at.
    refine h n hn hs fun hmem => ?_
    rcases mem_cons.1 hmem with rfl | hmem
    · exact huser ⟨hn, hs⟩
    · exact hnot hmem
  · exact hrest ((length_standing_le_of_chain hc hr).trans_lt hb)
      (hf hb h)

/-! ## Merges with all their operands -/

/-- **Every merge that stands is complete**, unless it waits or is pending: its
block gets no more predecessors, and under a strict caller it has an operand
for each of them. -/
def Full (closed : NodeId → Prop) (strict : Bool) (pending : List NodeId) (b : Builder) : Prop :=
  ∀ n, (b.graph.kind n).isPhi = true → b.Stands n → n ∉ pending →
    (∃ q ∈ b.placeholders, q.phi = n) ∨ closed (b.graph.blockOf n) ∧ (strict = true →
        (b.graph.operands n).length = (b.graph.operands (b.graph.blockOf n)).length)

/-- **What holds between the steps of a read**: nothing waits in a sealed
block, and all merges but the pending ones are as they should be. -/
structure Settled (closed : NodeId → Prop) (strict : Bool) (pending : List NodeId)
    (b : Builder) : Prop where
  waiting : ∀ q ∈ b.placeholders, b.isSealed q.block = false
  merging : Merging pending b
  full : Full closed strict pending b

variable {closed : NodeId → Prop} {strict : Bool}

/-- Where merges keep their operands, a builder stays settled. -/
theorem Settled.transport (h : Settled closed strict pending b) (hwf : b.WellFormed)
    (hphi : ∀ n, (c.graph.kind n).isPhi → c.Stands n → n ∉ pending → (b.graph.kind n).isPhi
      ∧ b.Stands n ∧ c.graph.operands n = b.graph.operands n) (hev : Evolves old b c)
    (hp : c.placeholders = b.placeholders) :
    Settled closed strict pending c := by
  refine ⟨fun q hq => ?_, h.merging.transport hphi (hp ▸ List.Subset.refl _),
    fun n hn hs hnot => ?_⟩
  · unfold isSealed
    rw [hev.sealedBlocks]
    exact h.waiting q (hp ▸ hq)
  · obtain ⟨hk, hs', hops⟩ := hphi n hn hs hnot
    have hlt := lt_of_isPhi hk
    rw [hops, hev.blockOf n hlt, hev.jumps _ (hwf.home n hlt), hp]
    exact h.full n hk hs' hnot

theorem Full.of_thins (h : Full closed strict pending b) (hwf : b.WellFormed)
    (hev : Evolves old b c) (ht : Thins first b c) : Full closed strict pending c := by
  intro n hn hs hnot
  have hlt := ht.merge_lt n hn
  rw [ht.length n hlt hs, hev.blockOf n hlt, hev.jumps _ (hwf.home n hlt), ht.placeholders]
  exact h n (hev.kind n hlt ▸ hn) (ht.stands n hs) hnot

theorem Settled.write (h : Settled closed strict pending b) (slot : Slot) (block value : NodeId) :
    Settled closed strict pending (b.write slot block value) :=
  { h with }

theorem Settled.openMerge (h : Settled closed strict pending b) (hwf : b.WellFormed)
    (slot : Slot) (block : NodeId) :
    Settled closed strict (b.graph.size :: pending) (b.openMerge slot block) := by
  have hw : Settled closed strict (b.graph.size :: pending) b :=
    ⟨h.waiting, fun n hn hs hnot => h.merging n hn hs fun hm => hnot (.tail _ hm),
      fun n hn hs hnot => h.full n hn hs fun hm => hnot (.tail _ hm)⟩
  refine hw.transport hwf (fun n hn hs hnot => ?_)
    (evolves_openMerge slot block (Nat.zero_le _)) rfl
  have hne : n ≠ b.graph.size := fun he => hnot (he ▸ mem_cons_self)
  rw [kind_openMerge, if_neg hne] at hn
  exact ⟨hn, hs, operands_openMerge b slot block n⟩

/-- **A merge is left waiting** in a block that is not sealed. -/
theorem Settled.await (h : Settled closed strict pending b) (hwf : b.WellFormed)
    (hsealed : b.isSealed block = false) :
    Settled closed strict pending (b.await slot block) := by
  have ho := h.openMerge hwf slot block
  have hsubset : b.placeholders ⊆ (b.await slot block).placeholders := fun q hq =>
    mem_append_left _ hq
  have hnew : ∃ q ∈ (b.await slot block).placeholders, q.phi = b.graph.size :=
    ⟨⟨block, slot, b.graph.size⟩, mem_append_right _ (.head _), rfl⟩
  refine ⟨fun q hq => ?_, fun n hn hs hnot => ?_, fun n hn hs hnot => ?_⟩
  · rcases mem_append.1 hq with hq | hq
    · exact h.waiting q hq
    · exact mem_singleton.1 hq ▸ hsealed
  · by_cases he : n = b.graph.size
    · exact .inl (he ▸ hnew)
    · refine (ho.merging n hn hs fun hm => (mem_cons.1 hm).elim he hnot).imp_left ?_
      exact fun ⟨q, hq, he⟩ => ⟨q, hsubset hq, he⟩
  · by_cases he : n = b.graph.size
    · exact .inl (he ▸ hnew)
    · refine (ho.full n hn hs fun hm => (mem_cons.1 hm).elim he hnot).imp_left ?_
      exact fun ⟨q, hq, he⟩ => ⟨q, hsubset hq, he⟩

theorem Settled.push (h : Settled closed strict (phi :: pending) b) (hwf : b.WellFormed)
    (hp : (b.graph.kind phi).isPhi) (value : NodeId) :
    Settled closed strict (phi :: pending) (b.withGraph (b.graph.pushOperand phi value)) := by
  have hsame := Graph.sameNodes_pushOperand b.graph phi value
  have hops := Graph.operands_pushOperand b.graph (lt_of_isPhi hp) value
  refine h.transport hwf (fun n hn hs hnot => ?_) (evolves_push value hp (Nat.zero_le _)) rfl
  have hne : n ≠ phi := fun he => hnot (he ▸ mem_cons_self)
  exact ⟨hsame.kind n ▸ hn, hs, (hops n).trans (if_neg hne)⟩

/-! ## Reading -/

/-- **A read settles** when it leaves a settled builder settled. -/
def Settles (closed : NodeId → Prop) (strict : Bool)
    (read : Builder → Slot → NodeId → Except Fault (NodeId × Builder)) : Prop :=
  ∀ {b c : Builder} {slot : Slot} {block value : NodeId} {pending : List NodeId},
    b.WellFormed → (b.graph.kind block).isBlock = true → read b slot block = .ok (value, c) →
    (∀ n, b.isSealed n = true → closed n) → Settled closed strict pending b →
    Settled closed strict pending c

section Complete

variable {read : Builder → Slot → NodeId → Except Fault (NodeId × Builder)}

/-- The operands of a pending merge are read, one for every index. -/
theorem Fills.settled (ht : Tidy read) (hsettles : Settles closed strict read)
    {indices : List Nat} (h : Fills read slot phi block indices b d) (hf : Filling phi b)
    (hc : ∀ n, b.isSealed n → closed n) (hs : Settled closed strict (phi :: pending) b) :
    Settled closed strict (phi :: pending) d ∧
      (d.graph.operands phi).length = (b.graph.operands phi).length + indices.length := by
  induction h with
  | nil => exact ⟨hs, rfl⟩
  | @cons index rest b c d pred value hp hread hrest ih =>
    have hwf := hf.wf
    have hb := isBlock_of_predecessor? hwf hp
    have hr := ht hwf hb hread
    have hphi : (c.graph.kind phi).isPhi = true := by
      rw [hr.evolves.kind phi (lt_of_isPhi hf.isPhi)]
      exact hf.isPhi
    have hc' : ∀ n, (c.withGraph (c.graph.pushOperand phi value)).isSealed n = true →
        closed n := fun n hn => hc n (by
      unfold isSealed at hn ⊢
      rwa [← hr.evolves.sealedBlocks])
    obtain ⟨hs', hl⟩ := ih (hf.push hr) hc'
      ((hsettles hwf hb hread hc hs).push hr.wf hphi value)
    refine ⟨hs', ?_⟩
    rw [hl, hr.length_push hf.isPhi, length_cons]
    omega

/-- **A pending merge is completed**: it gets an operand for every predecessor
of its block, and if it is trivial it is retired. -/
theorem complete_settled (htidy : Tidy read) (hsettles : Settles closed strict read)
    (h : Builder.complete read b slot phi = .ok (value, c)) (hfilling : Filling phi b)
    (hnil : b.graph.operands phi = []) (hblock : closed (b.graph.blockOf phi)) (ho : old ≤ phi)
    (hk : ∀ n < old, ∀ a ∈ b.graph.operands n, a < old)
    (hc : ∀ n, b.isSealed n → closed n) (hsettled : Settled closed strict (phi :: pending) b) :
    Settled closed strict pending c := by
  obtain ⟨d, hfills, hf, hr, hsimplify, hchain, -⟩ := hfilling.completes htidy h ho hk
  have hwf := hfilling.wf
  have hlt := lt_of_isPhi hfilling.isPhi
  have hev := hf.evolves old ho
  have hfilled := hf.filling hfilling
  obtain ⟨hsettledD, hl⟩ := hfills.settled htidy hsettles hfilling hc hsettled
  have hfull : Full closed strict pending d := fun n hn hs hnot => by
    by_cases he : n = phi
    · subst he
      refine .inr ⟨by rwa [hev.blockOf n hlt], fun _ => ?_⟩
      rw [hl, hnil, length_range, hev.blockOf n hlt, hev.jumps _ (hwf.home n hlt)]
      exact Nat.zero_add _
    · exact hsettledD.full n hn hs fun hm => (mem_cons.1 hm).elim he hnot
  have hmerging := simplify_merging (d.graph.size + 1) hr (hfilled.retirable ho)
    (Nat.lt_succ_of_le (length_standing_le d)) hsettledD.merging
  rw [hsimplify] at hmerging
  obtain ⟨-, hev', ht⟩ := chain_spec hchain hr
  refine ⟨fun q hq => ?_, hmerging, hfull.of_thins hf.wf hev' ht⟩
  unfold isSealed
  rw [hev'.sealedBlocks]
  exact hsettledD.waiting q (ht.placeholders ▸ hq)

end Complete

/-- **A read leaves a settled builder settled**, whatever its bound. -/
theorem settles_readWithin (bound : Nat) : Settles closed strict (readWithin bound) := by
  induction bound with
  | zero => exact fun _ _ h => absurd h nofun
  | succ bound ih =>
    intro b c slot block value pending hwf hb h hc hs
    obtain ⟨_, hbound, hcase⟩ := readWithin_eq_ok.1 h
    cases hbound
    cases hcase with
    | found => exact hs
    | @passes jump _ c hd hsealed ho hr =>
      have hj := hwf.coherent.closed block jump (ho ▸ mem_singleton_self jump)
      exact (ih hwf (hwf.home jump hj) hr hc hs).write slot block value
    | @merges _ c hd hsealed ho hr =>
      have hh : (b.openMerge slot block).graph.blockOf b.graph.size = block :=
        (blockOf_openMerge b slot block _).trans (if_pos rfl)
      exact (complete_settled (tidy_readWithin bound) ih hr (hwf.filling_openMerge hb hd)
        ((operands_openMerge b slot block _).trans (b.graph.operands_of_size_le le_rfl))
        (hh.symm ▸ hc block hsealed) le_rfl (hwf.closed_openMerge slot block)
        hc (hs.openMerge hwf slot block)).write slot block value
    | waits hd hsealed => exact hs.await hwf hsealed

theorem settles_read : Settles closed strict read := fun hwf hb h => settles_readWithin _ hwf hb h

/-! ## Sealing -/

theorem CompletesAll.settled {l : List Placeholder} (h : CompletesAll l b c) (hwf : b.WellFormed)
    (hp : Pending l b) (hb : ∀ p ∈ l, closed (b.graph.blockOf p.phi))
    (hc : ∀ n, b.isSealed n → closed n) (hs : Settled closed strict (l.map (·.phi)) b) :
    Settled closed strict [] c := by
  induction h with
  | nil => exact hs
  | @cons p rest b c d value hf hrest ih =>
    have hr := hp.head hwf hf
    have hs' := complete_settled tidy_read settles_read hf (hp.filling hwf)
      (hp.merge p (.head _)).2.1 (hb p (.head _)) (Nat.zero_le _)
      b.closed_zero hc hs
    refine ih hr.wf (hp.tail hr) (fun q hq => ?_) (fun n hn => hc n ?_) hs'
    · have hlt := lt_of_isPhi (hp.merge q (.tail _ hq)).1
      exact (hr.evolves.blockOf _ hlt).symm ▸ hb q (mem_cons_of_mem _ hq)
    · unfold isSealed at hn ⊢
      rwa [← hr.evolves.sealedBlocks]

theorem completeWhere_settled {which : Slot → Bool} (hwf : b.WellFormed)
    (h : completeWhere which b block = .ok c) (hb : closed block)
    (hc : ∀ n, b.isSealed n → closed n) (hsettled : Settled closed strict [] b) :
    Settled closed strict [] c := by
  -- A merge that waits is still waiting, or is due.
  have hwaits : ∀ n, (∃ q ∈ b.placeholders, q.phi = n) → n ∉ (due which b block).map (·.phi) →
      ∃ q ∈ notDue which b block, q.phi = n := fun n ⟨q, hq, he⟩ hnot => by
    refine ⟨q, mem_filter.2 ⟨hq, ?_⟩, he⟩
    rw [Bool.not_eq_true']
    by_contra hd
    rw [Bool.not_eq_false] at hd
    exact hnot (mem_map.2 ⟨q, mem_filter.2 ⟨hq, hd⟩, he⟩)
  refine (completeWhere_eq_ok.1 h).settled (hwf.notDue which block) (hwf.pending which block)
    (fun p hp => ?_) hc
    ⟨fun q hq => hsettled.waiting q (mem_of_mem_filter hq), fun n hn hs hnot => ?_,
      fun n hn hs hnot => ?_⟩
  · obtain ⟨hmem, hd⟩ := mem_filter.1 hp
    rw [Bool.and_eq_true, beq_iff_eq] at hd
    obtain ⟨-, -, hh, -⟩ := hwf.waiting p hmem
    exact (hh.trans hd.1).symm ▸ hb
  · exact (hsettled.merging n hn hs not_mem_nil).imp_left fun hw => hwaits n hw hnot
  · exact (hsettled.full n hn hs not_mem_nil).imp_left fun hw => hwaits n hw hnot

theorem isSealed_mark (e : Builder) (block n : NodeId) :
    isSealed { e with sealedBlocks := block :: e.sealedBlocks.filter (· ≠ block) } n ↔
      n = block ∨ e.isSealed n := by
  unfold isSealed
  simp only [contains_iff_mem, mem_cons, mem_filter, decide_eq_true_iff]
  tauto

/-- **A builder between two requests**: well formed and settled, where the
blocks that get no more predecessors are the sealed ones. -/
structure Idle (strict : Bool) (b : Builder) : Prop where
  wf : b.WellFormed
  settled : Settled (b.isSealed · = true) strict [] b

/-- **A merge that has operands has one for every predecessor of its block.** -/
theorem Idle.length_operands (h : Idle true b) (hphi : (b.graph.kind n).isPhi)
    (ho : b.graph.operands n ≠ []) :
    (b.graph.operands n).length = (b.graph.operands (b.graph.blockOf n)).length := by
  have hs : b.Stands n := by
    by_contra hne
    obtain ⟨value, hv⟩ := Option.ne_none_iff_exists'.1 hne
    exact ho (h.wf.retired _ (mem_of_lookup_eq_some hv)).2.1
  rcases h.settled.full n hphi hs not_mem_nil with ⟨q, hq, rfl⟩ | hf
  · exact absurd (h.wf.waiting q hq).2.2.2.1 ho
  · exact hf.2 rfl

theorem Idle.full_of_isSealed (h : Idle true b) (hphi : (b.graph.kind n).isPhi)
    (hstands : b.Stands n) (hs : b.isSealed (b.graph.blockOf n)) :
    (b.graph.operands n).length = (b.graph.operands (b.graph.blockOf n)).length := by
  rcases h.settled.full n hphi hstands not_mem_nil with ⟨q, hq, rfl⟩ | hf
  · rw [(h.wf.waiting q hq).2.2.1] at hs
    cases hs.symm.trans (h.settled.waiting q hq)
  · exact hf.2 rfl

/-- **Sealing a block** completes what waits in it, though the block is marked
only afterwards. -/
theorem Idle.sealBlock (h : Idle strict b) (hseal : b.sealBlock block = .ok c) : Idle strict c := by
  obtain ⟨_, hr, hm⟩ := sealBlock_spec h.wf hseal
  obtain ⟨d, e, hd, he, rfl⟩ := sealBlock_eq_ok.1 hseal
  obtain ⟨hw, hevD, -⟩ := completeWhere_spec h.wf hd
  obtain ⟨hwfE, hevE, -⟩ := completeWhere_spec hw he
  have hsealedD : ∀ n, d.isSealed n = b.isSealed n := fun n => by
    unfold isSealed
    rw [hevD.sealedBlocks]
  have hsealedE : ∀ n, e.isSealed n = b.isSealed n := fun n => by
    unfold isSealed
    rw [hevE.sealedBlocks, hevD.sealedBlocks]
  -- While its placeholders are completed, the block counts as closed already.
  have hstart : Settled (fun n => n = block ∨ b.isSealed n = true) strict [] b :=
    ⟨h.settled.waiting, h.settled.merging, fun n hn hs hnot =>
      (h.settled.full n hn hs hnot).imp_right (And.imp_left .inr)⟩
  have hsettledD := completeWhere_settled h.wf hd (.inl rfl) (fun n hn => .inr hn) hstart
  have hsettledE := completeWhere_settled hw he (.inl rfl)
    (fun n hn => .inr (hsealedD n ▸ hn)) hsettledD
  refine ⟨{ hwfE with }, fun q hq => ?_, hsettledE.merging, fun n hn hs hnot => ?_⟩
  · have hne : q.block ≠ block := hr.waiting q (congrArg placeholders hm ▸ hq)
    rw [← Bool.not_eq_true, isSealed_mark, not_or, Bool.not_eq_true]
    exact ⟨hne, hsettledE.waiting q hq⟩
  · refine (hsettledE.full n hn hs hnot).imp_right (And.imp_left fun hc => ?_)
    rw [isSealed_mark, hsealedE]
    exact hc

end SsaCompiler.Builder
