import SsaCompiler.Proofs.Builder.Blueprint
import SsaCompiler.Proofs.Builder.Read

/-!
# Reads find what reaches them

`Agrees` says that a state of the builder is on the way to a blueprint, and
`Sound` that what the builder has recorded so far is right by the blueprint:
the operands of merges, the definitions of slots, and what retired merges
were replaced by. Both take the writes of the caller so far. The list of
**pending** merges in `Sound` are those whose operands are still being read.

Agreement goes backwards in time: a state agrees if a later one does
(`Agrees.back`). Soundness goes forwards, and a read that leaves a
state which agrees is answered by the right node (`rightRead_readWithin`).
-/

namespace SsaCompiler

open List Option Blueprint
open Graph (startBlock endBlock)

/-- **What flows into a node** along one of its operands, if it asks for
something. -/
def Kind.takes : Kind → Nat → Option Channel
  | binary _, index => if index < 2 then some .value else some .effect
  | compare _, _ | condValue, _ | condJump _ _, _ => some .value
  | ret, index => if index = 0 then some .effect else some .value
  | phi channel, _ => some channel
  | _, _ => none

namespace Builder

/-- What the caller has written so far, by block and slot. -/
abbrev Writes := NodeId → Slot → Option NodeId

/-- **A builder on the way to a blueprint.** -/
structure Agrees (F : Blueprint) (written : Writes) (b : Builder) : Prop where
  entry : F.preds startBlock = []
  block : ∀ n < b.graph.size, F.block n = b.graph.blockOf n
  plain : ∀ n < b.graph.size, (b.graph.kind n).isPhi = false → F.slot n = none
  merge : ∀ n slot, (b.graph.kind n).isPhi = true → b.slotOf n = some slot → F.slot n = some slot
  /-- A sealed block gets no more predecessors. -/
  preds : ∀ block, (b.graph.kind block).isBlock = true → b.isSealed block = true →
    F.preds block = (b.graph.operands block).map b.graph.blockOf
  /-- A block with a jump gets no more writes. -/
  written : ∀ block, (b.graph.kind block).isBlock = true →
    ∀ jump ∈ b.graph.operands block, F.written (b.graph.blockOf jump) =
      written (b.graph.blockOf jump)
  unset : ∀ e ∈ b.forwarded, ∀ slot, b.graph.blockOf e.1 = startBlock →
    b.slotOf e.1 = some slot → b.graph.kind e.2 = .undefined → F.unset slot = e.2
  leaf : ∀ n < b.graph.size, b.graph.kind n = .undefined → F.leaf n
  undefined : ∀ n < b.graph.size, b.graph.kind n = .undefined → ∀ channel, F.Fits channel n
  output : ∀ n < b.graph.size, b.graph.kind n = .proj .effect → F.effect n
  channel : ∀ n < b.graph.size, ∀ channel, b.graph.kind n = .phi channel → F.Fits channel n
  /-- A slot does not hold a merge of the other channel, unless it may hold
  anything. -/
  other : ∀ n channel, b.graph.kind n = .phi channel → ∀ channel' ≠ channel,
    F.Fits channel' n → ∀ m, F.Fits channel' m

/-- **What a builder has recorded is right**, but for the merges that are
pending. -/
structure Sound (F : Blueprint) (written : Writes) (pending : List NodeId) (b : Builder) :
    Prop where
  entry : b.isSealed startBlock = true
  pending_lt : ∀ n ∈ pending, n < b.graph.size
  /-- The operands of a merge are right as far as they are there. -/
  feeds : ∀ n, (b.graph.kind n).isPhi = true → ∀ (index : Nat) (a : NodeId),
    (b.graph.operands n)[index]? = some a → F.Feeds n index a
  /-- A merge has all its operands, or it waits, or it is pending. -/
  complete : ∀ n, (b.graph.kind n).isPhi = true → b.Stands n → n ∉ pending →
    (b.graph.operands n).length = (F.preds (b.graph.blockOf n)).length ∨
      ∃ q ∈ b.placeholders, q.phi = n
  /-- There are no merges in the start block. -/
  start : ∀ n, (b.graph.kind n).isPhi = true → b.graph.blockOf n = startBlock →
    b.Stands n → n ∈ pending
  holds : ∀ slot block n, b.definition? slot block = some n → F.Holds written slot block n
  defined : ∀ slot block, b.definition? slot block = none → written block slot = none
  same : ∀ e ∈ b.forwarded, F.Same e.1 e.2
  waiting : ∀ q ∈ b.placeholders, b.isSealed q.block = false
  uses : ∀ n < b.graph.size, (b.graph.kind n).isPhi = false → (b.graph.kind n).isBlock = false →
    ∀ a ∈ b.graph.operands n, F.MayUse n a
  typed : ∀ n < b.graph.size, (b.graph.kind n).isPhi = false → ∀ (index : Nat) (a : NodeId),
    (b.graph.operands n)[index]? = some a → ∀ channel ∈ (b.graph.kind n).takes index,
      F.Fits channel a

variable {F : Blueprint} {written : Writes} {pending : List NodeId} {b c d : Builder}
  {old : Nat} {slot : Slot} {block phi value : NodeId}

/-- **What a later state agrees to, an earlier one does.** -/
theorem Agrees.back {written' : Writes} (h : Agrees F written' c) (hwf : b.WellFormed)
    (hsize : b.graph.size ≤ c.graph.size)
    (hkind : ∀ n < b.graph.size, c.graph.kind n = b.graph.kind n)
    (hblockOf : ∀ n < b.graph.size, c.graph.blockOf n = b.graph.blockOf n)
    (hjumps : ∀ n, (b.graph.kind n).isBlock → b.graph.operands n <+: c.graph.operands n)
    (hsealed : ∀ n, (b.graph.kind n).isBlock → b.isSealed n →
      c.isSealed n ∧ c.graph.operands n = b.graph.operands n)
    (hd : b.defs <:+ c.defs) (hf : b.forwarded <:+ c.forwarded)
    (hw : ∀ n, (b.graph.kind n).isBlock → ∀ jump ∈ b.graph.operands n,
      written' (b.graph.blockOf jump) = written (b.graph.blockOf jump)) : Agrees F written b where
  entry := h.entry
  block := fun n hn => (h.block n (hn.trans_le hsize)).trans (hblockOf n hn)
  plain := fun n hn hk => h.plain n (hn.trans_le hsize) (hkind n hn ▸ hk)
  merge := fun n slot hk hslot =>
    h.merge n slot (by rwa [hkind n (lt_of_isPhi hk)]) (slotOf_of_suffix hd hslot)
  preds := fun block hb hs => by
    obtain ⟨hs, hops⟩ := hsealed block hb hs
    rw [h.preds block (by rwa [hkind block (lt_of_isBlock hb)]) hs, hops]
    exact map_congr_left fun j hj => hblockOf j (hwf.coherent.closed block j hj)
  written := fun block hb jump hjump => by
    have := h.written block (by rwa [hkind block (lt_of_isBlock hb)]) jump
      ((hjumps block hb).subset hjump)
    rw [hblockOf jump (hwf.coherent.closed block jump hjump)] at this
    exact this.trans (hw block hb jump hjump)
  unset := fun e he slot hstart hslot hk => by
    obtain ⟨hphi, -, hlt⟩ := hwf.retired e he
    exact h.unset e (hf.mem he) slot
      ((hblockOf _ (lt_of_isPhi hphi)).trans hstart)
      (slotOf_of_suffix hd hslot) ((hkind _ hlt).trans hk)
  leaf := fun n hn hk => h.leaf n (hn.trans_le hsize) ((hkind n hn).trans hk)
  undefined := fun n hn hk => h.undefined n (hn.trans_le hsize) ((hkind n hn).trans hk)
  output := fun n hn hk => h.output n (hn.trans_le hsize) ((hkind n hn).trans hk)
  channel := fun n hn channel hk =>
    h.channel n (hn.trans_le hsize) channel ((hkind n hn).trans hk)
  other := fun n channel hk => h.other n channel
    ((hkind n (lt_of_isPhi (by rw [hk]; rfl))).trans hk)

theorem Agrees.of_evolves (h : Agrees F written c) (hev : Evolves old b c)
    (hwf : b.WellFormed) : Agrees F written b :=
  h.back hwf hev.size_le hev.kind hev.blockOf (fun n hn => hev.jumps n hn ▸ prefix_refl _)
    (fun n hn hs => ⟨by unfold isSealed; rwa [hev.sealedBlocks], hev.jumps n hn⟩) hev.defs
    hev.forwarded fun _ _ _ _ => rfl

theorem Agrees.exists_slot (h : Agrees F written b) (hwf : b.WellFormed)
    (hp : (b.graph.kind phi).isPhi) :
    ∃ slot, b.graph.kind phi = .phi slot.channel ∧ b.slotOf phi = some slot ∧
      F.slot phi = some slot := by
  obtain ⟨slot, hk, hs, -⟩ := hwf.marked phi hp
  exact ⟨slot, hk, hs, h.merge phi slot hp hs⟩

/-- **Nodes that are no merges** are added soundly if they may use what they
use. -/
theorem Sound.transport (h : Sound F written pending b) (hsize : b.graph.size ≤ c.graph.size)
    (hold : ∀ n < b.graph.size, (c.graph.kind n = b.graph.kind n) ∧
      ((b.graph.kind n).isBlock = false → c.graph.operands n = b.graph.operands n))
    (hnew : ∀ n < c.graph.size, b.graph.size ≤ n → (∀ a ∈ c.graph.operands n, F.MayUse n a)
      ∧ ∀ (index : Nat) (a : NodeId), (c.graph.operands n)[index]?
        = some a → ∀ channel ∈ (c.graph.kind n).takes index,
          F.Fits channel a) (hphi : ∀ n, (c.graph.kind n).isPhi → (b.graph.kind n).isPhi ∧
      c.graph.operands n = b.graph.operands n ∧ c.graph.blockOf n = b.graph.blockOf n)
    (hf : c.forwarded = b.forwarded) (hdefs : c.defs = b.defs)
    (hplaceholders : c.placeholders = b.placeholders) (hsealed : c.sealedBlocks = b.sealedBlocks) :
    Sound F written pending c := by
  have hstands : ∀ n, c.Stands n ↔ b.Stands n := fun n => by
    unfold Stands
    rw [hf]
  have hi : ∀ n, c.isSealed n = b.isSealed n := fun n => by
    unfold isSealed
    rw [hsealed]
  have hd : ∀ slot block, c.definition? slot block = b.definition? slot block :=
    fun slot block => by
      unfold definition?
      rw [hdefs]
  refine
    { entry := (hi _).trans h.entry,
      pending_lt := fun n hn => (h.pending_lt n hn).trans_le hsize,
      feeds := fun n hn index a ha => ?_, complete := fun n hn hs hp => ?_,
      start := fun n hn hstart hs => ?_, holds := fun slot block n hn => ?_,
      defined := fun slot block hn => ?_, same := hf ▸ h.same,
      waiting := fun q hq => ?_, uses := fun n hn hk hb a ha => ?_,
      typed := fun n hn hk index a ha channel ht => ?_ }
  · obtain ⟨hk, ho, -⟩ := hphi n hn
    exact h.feeds n hk index a (ho ▸ ha)
  · obtain ⟨hk, ho, hblock⟩ := hphi n hn
    rw [ho, hblock, hplaceholders]
    exact h.complete n hk ((hstands n).1 hs) hp
  · obtain ⟨hk, -, hblock⟩ := hphi n hn
    exact h.start n hk (hblock ▸ hstart) ((hstands n).1 hs)
  · exact h.holds slot block n (hd slot block ▸ hn)
  · exact h.defined slot block (hd slot block ▸ hn)
  · rw [hi]
    exact h.waiting q (hplaceholders ▸ hq)
  · by_cases hlt : n < b.graph.size
    · obtain ⟨hkind, ho⟩ := hold n hlt
      rw [hkind] at hk hb
      exact h.uses n hlt hk hb a (ho hb ▸ ha)
    · exact (hnew n hn (not_lt.1 hlt)).1 a ha
  · by_cases hlt : n < b.graph.size
    · obtain ⟨hkind, ho⟩ := hold n hlt
      rw [hkind] at hk ht
      have hb : (b.graph.kind n).isBlock = false := by
        cases hkn : b.graph.kind n <;> rw [hkn] at ht <;> first | rfl | cases ht
      exact h.typed n hlt hk index a (ho hb ▸ ha) channel ht
    · exact (hnew n hn (not_lt.1 hlt)).2 index a ha channel ht

theorem Sound.same_root {l : List (NodeId × NodeId)} (h : ∀ e ∈ l, F.Same e.1 e.2)
    (n : NodeId) : F.Same n (root l n) := by
  induction l with
  | nil => exact .refl n
  | cons e l ih =>
    have hn := ih fun e' he' => h e' (.tail _ he')
    unfold root
    split
    · rename_i he
      exact hn.trans (he.symm ▸ h e mem_cons_self)
    · exact hn

theorem Sound.same_resolve (h : Sound F written pending b) (hwf : b.WellFormed) (n : NodeId) :
    F.Same n (b.resolve n) := by
  rw [resolve_eq_root hwf.forwards]
  exact Sound.same_root h.same n

/-! ## Retirements -/

theorem Sound.retire (h : Sound F written pending b) (hwf : b.WellFormed)
    (hstands : b.Stands phi) (hsame : F.Same phi value)
    (hstrict : F.Reachable (F.block phi) → F.block value = F.block phi → F.leaf value) :
    Sound F written pending (b.retire phi value) := by
  have hnodes := sameNodes_retire b phi value
  have ho := operands_retire hwf.toShaped phi value
  have hf := forwarded_retire hstands value
  have hbefore : ∀ {n}, (b.retire phi value).Stands n → n ≠ phi ∧ b.Stands n := fun hn => by
    unfold Stands at hn
    rwa [hf, lookup_cons_eq_none] at hn
  refine
    { entry := h.entry, pending_lt := fun n hn => hnodes.size ▸ h.pending_lt n hn,
      feeds := fun n hn index a ha => ?_, complete := fun n hn hs hp => ?_,
      start := fun n hn hstart hs => ?_, holds := h.holds, defined := h.defined,
      same := fun e he => ?_, waiting := h.waiting, uses := fun n hn hk hb a ha => ?_,
      typed := fun n hn hk index a ha channel ht => ?_ }
  · rw [hnodes.kind] at hn
    rw [ho] at ha
    split at ha
    · cases ha
    · rw [getElem?_map] at ha
      obtain ⟨a', ha', rfl⟩ := map_eq_some_iff.1 ha
      have hfeeds := h.feeds n hn index a' ha'
      split
      · rename_i he
        exact hfeeds.of_same (he.symm ▸ hsame)
      · exact hfeeds
  · obtain ⟨hne, hs⟩ := hbefore hs
    rw [hnodes.kind] at hn
    rw [ho, if_neg hne, length_map, hnodes.blockOf]
    exact h.complete n hn hs hp
  · rw [hnodes.kind] at hn
    rw [hnodes.blockOf] at hstart
    exact h.start n hn hstart (hbefore hs).2
  · rcases mem_cons.1 (hf ▸ he) with rfl | he
    · exact hsame
    · exact h.same e he
  · rw [hnodes.kind] at hk hb
    rw [ho] at ha
    split at ha
    · cases ha
    · obtain ⟨a', ha', rfl⟩ := mem_map.1 ha
      have hu := h.uses n (hnodes.size ▸ hn) hk hb a' ha'
      split
      · rename_i he
        exact (he ▸ hu).of_same hsame hstrict
      · exact hu
  · rw [hnodes.kind] at hk ht
    rw [ho] at ha
    split at ha
    · cases ha
    · rw [getElem?_map] at ha
      obtain ⟨a', ha', rfl⟩ := map_eq_some_iff.1 ha
      have hfits := h.typed n (hnodes.size ▸ hn) hk index a' ha' channel ht
      split
      · rename_i he
        exact hsame.fits (he ▸ hfits)
      · exact hfits

theorem Sound.undefined (h : Sound F written pending b) :
    Sound F written pending b.undefined.2 := by
  obtain ⟨hadds, hanswer⟩ := b.add_spec .undefined Graph.startBlock []
  have hk : ∀ n, b.undefined.2.graph.kind n = _ := hadds.kind
  refine h.transport (hadds.size ▸ Nat.le_succ _)
    (fun n hn => ⟨(hk n).trans (if_neg hn.ne),
      fun _ => hadds.operands n hn.ne⟩) (fun n hn hle => ?_)
    (fun n hn => (hadds.appends.of_isPhi rfl hn).2) rfl rfl rfl rfl
  · have hlt : n < b.graph.size + 1 := hn.trans_eq hadds.size
    obtain rfl : n = b.graph.size := (Nat.le_of_lt_succ hlt).antisymm hle
    have hnil : b.undefined.2.graph.operands b.graph.size = [] :=
      hanswer.operands_new.elim id id
    rw [hnil]
    exact ⟨fun a ha => absurd ha not_mem_nil, fun _ _ ha => absurd ha nofun⟩

section Chain

variable {first : NodeId}

/-- **The merge that is retired merges itself and at most one other node**,
and these are right for every edge into its block. -/
theorem Sound.feeds_of_complete (h : Sound F written pending b) (hagrees : Agrees F written b)
    (hphi : (b.graph.kind phi).isPhi)
    (hl : (b.graph.operands phi).length = (F.preds (b.graph.blockOf phi)).length)
    {l : List NodeId} (hm : b.merged phi = l) (index : Nat) (pred : NodeId)
    (hp : (F.preds (F.block phi))[index]? = some pred) :
    ∃ a, (a = phi ∨ a ∈ l) ∧ F.Feeds phi index a := by
  rw [hagrees.block phi (lt_of_isPhi hphi)] at hp
  obtain ⟨hlt, -⟩ := List.getElem?_eq_some_iff.1 hp
  rw [← hl] at hlt
  have ha := List.getElem?_eq_getElem hlt
  refine ⟨_, ?_, h.feeds phi hphi index _ ha⟩
  by_cases he : (b.graph.operands phi)[index] = phi
  · exact .inl he
  · exact .inr (hm ▸ mem_merged.2 ⟨List.mem_of_getElem? ha, he⟩)

/-- **A retirement is sound** if the merge it begins with has all its
operands and no pending merge is touched. -/
theorem Sound.retires (hstep : Retires old first b c) (hr : Ready old first b)
    (h : Sound F written (first :: pending) b) (hagrees : Agrees F written c)
    (hpending : ∀ n ∈ pending, n < old ∨ b.graph.operands n = [])
    (hfirst : b.Stands first → (b.graph.operands first).length =
      (F.preds (b.graph.blockOf first)).length) :
    Sound F written (first :: pending) c := by
  have hwf := hr.wf
  obtain ⟨-, hev, -⟩ := hstep.spec hr
  have hagrees' := hagrees.of_evolves hev hwf
  have hentry : (F.preds startBlock).length = 0 := by rw [hagrees.entry]; rfl
  -- Whatever is looked at has all its operands.
  have hl : ∀ phi, (b.graph.kind phi).isPhi = true → b.Stands phi → old ≤ phi →
      b.graph.operands phi ≠ [] ∨ phi = first →
      (b.graph.operands phi).length = (F.preds (b.graph.blockOf phi)).length := by
    intro phi hphi hs ho hops
    by_cases he : phi = first
    · subst he
      exact hfirst hs
    · have hfull := hops.resolve_right he
      have hnot : phi ∉ first :: pending := fun hmem => by
        rcases hpending phi ((mem_cons.1 hmem).resolve_left he) with hlt | hnil
        · exact Nat.not_lt.2 ho hlt
        · exact hfull hnil
      rcases h.complete phi hphi hs hnot with hlen | ⟨q, hq, rfl⟩
      · exact hlen
      · exact absurd (hwf.waiting q hq).2.2.2.1 hfull
  cases hstep with
  | @single phi value hphi hs ho hops hm =>
    have hlen := hl phi hphi hs ho hops
    obtain ⟨slot, hk, -, hslot⟩ := hagrees'.exists_slot hwf hphi
    have hb := hagrees'.block phi (lt_of_isPhi hphi)
    have hmem := (mem_merged.1 (hm ▸ mem_singleton_self value)).1
    have hstart : F.block phi ≠ startBlock := fun hstart => by
      rw [← hb, hstart, hentry, length_eq_zero_iff] at hlen
      rw [hlen] at hmem
      cases hmem
    have hedges : ∀ (index : Nat) pred, (F.preds (F.block phi))[index]? = some pred →
        ∃ a, (a = phi ∨ a = value) ∧ F.Feeds phi index a := fun index pred hp => by
      obtain ⟨a, ha, hf⟩ := h.feeds_of_complete hagrees' hphi hlen hm index pred hp
      exact ⟨a, ha.imp_right mem_singleton.1, hf⟩
    refine h.retire hwf hs (same_of_trivial hstart hslot (fun {channel} hfits => ?_) hedges)
      fun hreach he => absurd he (ne_of_trivial hstart (fun index pred hp => ?_) hreach)
    · by_cases hc : channel = slot.channel
      · obtain ⟨index, hi⟩ := mem_iff_getElem?.1 hmem
        have hlt : index < (F.preds (F.block phi)).length := by
          rw [hb, ← hlen]
          exact (List.getElem?_eq_some_iff.1 hi).1
        exact hc ▸ (((h.feeds phi hphi index value hi) _ (getElem?_eq_getElem hlt)).2 slot hslot).1
      · exact hagrees'.other phi _ hk channel hc hfits value
    · obtain ⟨a, ha, hf⟩ := hedges index pred hp
      exact ⟨a, ha, (hf pred hp).1⟩
  | @none phi hphi hs ho hops hm =>
    have hlen := hl phi hphi hs ho hops
    obtain ⟨slot, -, hslotOf, hslot⟩ := hagrees'.exists_slot hwf hphi
    have hlt := lt_of_isPhi hphi
    have hb := hagrees'.block phi hlt
    obtain ⟨hreadyU, -⟩ := hr.undefined
    obtain ⟨-, hevC, -⟩ := (Replaces.none hm).retire hr ⟨hphi, hs, ho, hops⟩
    have hagreesU := hagrees.of_evolves hevC hreadyU.wf
    obtain ⟨hv, hk, hhome⟩ := hwf.answer .undefined startBlock []
    have hk : b.undefined.2.graph.kind b.undefined.1 = .undefined := hk
    have hblockU : F.block b.undefined.1 = startBlock :=
      (hagreesU.block _ hv).trans hhome
    refine h.undefined.retire hreadyU.wf hs ?_
      fun _ _ => hagreesU.leaf _ hv hk
    have hh := hagreesU.undefined _ hv hk
    by_cases hstart : F.block phi = startBlock
    · refine same_of_start hagrees.entry hstart hslot hblockU
        (hagreesU.plain _ hv (by rw [hk]; rfl)) ?_ hh
      have hmem : (phi, b.undefined.1) ∈
          (b.undefined.2.retire phi b.undefined.1).forwarded := by
        exact .head _
      have hn := sameNodes_retire b.undefined.2 phi b.undefined.1
      refine hagrees.unset _ hmem slot ?_ hslotOf ((hn.kind _).trans hk)
      exact ((hev.blockOf phi hlt).trans hb.symm).trans hstart
    · refine same_of_unreachable hstart (fun index pred hp => ?_)
        (hblockU ▸ startBlock_dominates _ _) hh
      obtain ⟨a, rfl | ha, hf⟩ := h.feeds_of_complete hagrees' hphi hlen hm index pred hp
      · exact hf
      · cases ha

theorem Sound.chain (hc : Relation.ReflTransGen (Retires old first) b c)
    (hr : Ready old first b) (h : Sound F written (first :: pending) b)
    (ha : Agrees F written c) (hnot : first ∉ pending)
    (hp : ∀ n ∈ pending, n < old ∨ b.graph.operands n = [])
    (hlt : first < b.graph.size)
    (hf : (b.graph.operands first).length = (F.preds (b.graph.blockOf first)).length) :
    Sound F written (first :: pending) c := by
  induction hc with
  | refl => exact h
  | @tail c d hc hstep ih =>
    obtain ⟨hr', hev, ht⟩ := chain_spec hc hr
    obtain ⟨-, hev', -⟩ := hstep.spec hr'
    refine Sound.retires hstep hr' (ih (ha.of_evolves hev' hr'.wf)) ha
      (fun n hn => ?_) fun hs => ?_
    · refine (hp n hn).imp_right fun hnil => ?_
      have hne : n ≠ first := fun he => hnot (he ▸ hn)
      exact (ht.bare n hne (h.pending_lt n (.tail _ hn)) hnil).1
    · rw [ht.length first hlt hs, hev.blockOf first hlt, hf]

end Chain

/-! ## Definitions, new merges and operands -/

theorem definition?_write_eq (b : Builder) (slot : Slot) (block value : NodeId) (slot' : Slot)
    (block' : NodeId) : (b.write slot block value).definition? slot' block' =
      if (block', slot') = (block, slot) then some value else b.definition? slot' block' := by
  show List.lookup _ (_ :: _) = _
  rw [lookup_cons]
  by_cases he : (block', slot') = (block, slot)
  · rw [he]
    simp
  · rw [if_neg he, beq_false_of_ne he]
    rfl

theorem Sound.write (h : Sound F written pending b) (hh : F.Holds written slot block value) :
    Sound F written pending (b.write slot block value) := by
  refine { h with holds := fun slot' block' n hn => ?_, defined := fun slot' block' hn => ?_ }
  · rw [definition?_write_eq] at hn
    split at hn
    · rename_i he
      cases he
      exact some.inj hn ▸ hh
    · exact h.holds slot' block' n hn
  · rw [definition?_write_eq] at hn
    split at hn
    · cases hn
    · exact h.defined slot' block' hn

/-- A new merge is the right definition of a slot that is not written in its
block. -/
theorem holds_of_merge (hb : F.block phi = block) (hs : F.slot phi = some slot)
    (hn : written block slot = none) (hf : F.Fits slot.channel phi) :
    F.Holds written slot block phi := by
  refine ⟨hb ▸ .refl _ _, hf, fun path _ hl => ?_⟩
  subst hl
  rw [origin_merge hb hs]
  unfold Blueprint.current
  rw [hn]
  rfl

/-- What a blueprint says of a merge that is opened on the way to it. -/
theorem Agrees.opened (h : Agrees F written (b.openMerge slot block)) (hwf : b.WellFormed) :
    F.block b.graph.size = block ∧ F.slot b.graph.size = some slot := by
  have hlt : b.graph.size < (b.openMerge slot block).graph.size :=
    size_openMerge b slot block ▸ Nat.lt_succ_self _
  refine ⟨(h.block _ hlt).trans ((blockOf_openMerge b slot block _).trans (if_pos rfl)),
    h.merge _ slot (by rw [kind_openMerge, if_pos rfl]; rfl) (slotOf_openMerge hwf.toShaped)⟩

/-- **A merge is opened**: it is pending from now on. -/
theorem Sound.openMerge (h : Sound F written pending b) (hwf : b.WellFormed)
    (hdef : b.definition? slot block = none) (hagrees : Agrees F written (b.openMerge slot block)) :
    Sound F written (b.graph.size :: pending) (b.openMerge slot block) := by
  have hsize := size_openMerge b slot block
  have hlt : b.graph.size < (b.openMerge slot block).graph.size :=
    hsize ▸ Nat.lt_succ_self _
  have hkind := kind_openMerge b slot block
  obtain ⟨hblock, hslot⟩ := hagrees.opened hwf
  have hplace : Sound F written (b.graph.size :: pending)
      (b.place (.phi slot.channel) block []).2 := by
    have hbefore : ∀ n, n ≠ b.graph.size →
        ((b.openMerge slot block).graph.kind n).isPhi = true → (b.graph.kind n).isPhi = true :=
      fun n hne hn => by rwa [hkind, if_neg hne] at hn
    have ho : ∀ n, (b.place (.phi slot.channel) block []).2.graph.operands n =
        b.graph.operands n := operands_openMerge b slot block
    have hkind' : ∀ n, (b.place (.phi slot.channel) block []).2.graph.kind n =
        if n = b.graph.size then .phi slot.channel else b.graph.kind n := hkind
    have hh : ∀ n, n ≠ b.graph.size →
        (b.place (.phi slot.channel) block []).2.graph.blockOf n = b.graph.blockOf n :=
      fun n hne => (blockOf_openMerge b slot block n).trans (if_neg hne)
    refine
      { entry := h.entry, pending_lt := fun n hn => ?_, feeds := fun n hn index a ha => ?_,
        complete := fun n hn hs hp => ?_, start := fun n hn hstart hs => ?_, holds := h.holds,
        defined := h.defined, same := h.same, waiting := h.waiting,
        uses := fun n hn hk hb a ha => ?_, typed := fun n hn hk index a ha channel ht => ?_ }
    · rcases mem_cons.1 hn with rfl | hn
      · exact hlt
      · exact (h.pending_lt n hn).trans hlt
    · rw [ho] at ha
      have hne : n ≠ b.graph.size := fun he => by
        rw [he, b.graph.operands_of_size_le le_rfl] at ha
        cases ha
      exact h.feeds n (hbefore n hne hn) index a ha
    · rw [mem_cons, not_or] at hp
      rw [ho, hh n hp.1]
      exact h.complete n (hbefore n hp.1 hn) hs hp.2
    · by_cases hne : n = b.graph.size
      · exact hne ▸ mem_cons_self
      · rw [hh n hne] at hstart
        exact .tail _ (h.start n (hbefore n hne hn) hstart hs)
    · rw [ho] at ha
      have hlt' := Graph.lt_of_mem_operands ha
      rw [hkind', if_neg hlt'.ne] at hk hb
      exact h.uses n hlt' hk hb a ha
    · rw [ho] at ha
      have hlt' := Graph.lt_of_mem_operands (mem_of_getElem? ha)
      rw [hkind', if_neg hlt'.ne] at hk ht
      exact h.typed n hlt' hk index a ha channel ht
  refine hplace.write (holds_of_merge hblock hslot (h.defined slot block hdef) ?_)
  exact hagrees.channel _ hlt _ (by rw [hkind, if_pos rfl])

/-- **A merge is left waiting** in a block that is not sealed. -/
theorem Sound.await (h : Sound F written pending b) (hwf : b.WellFormed)
    (hdef : b.definition? slot block = none) (hsealed : b.isSealed block = false)
    (ha : Agrees F written (b.await slot block)) :
    Sound F written pending (b.await slot block) := by
  have ho := h.openMerge hwf hdef { ha with }
  have hphi : ∀ n, n ∉ pending → n ∈ b.graph.size :: pending → n = b.graph.size := fun n hn hm =>
    (mem_cons.1 hm).resolve_right hn
  refine
    { ho with
      pending_lt := fun n hn => ho.pending_lt n (.tail _ hn),
      complete := fun n hn hs hp => ?_, start := fun n hn hstart hs => ?_,
      waiting := fun q hq => ?_ }
  · by_cases hne : n = b.graph.size
    · exact .inr ⟨⟨block, slot, b.graph.size⟩, mem_append_right _ (by simp), hne.symm⟩
    · refine (ho.complete n hn hs fun hm => hne (hphi n hp hm)).imp_right ?_
      exact fun ⟨q, hq, he⟩ => ⟨q, mem_append_left _ hq, he⟩
  · by_contra hp
    have he := hphi n hp (ho.start n hn hstart hs)
    have hb : block = startBlock := by
      rw [← hstart, he]
      exact ((blockOf_openMerge b slot block _).trans (if_pos rfl)).symm
    rw [hb, h.entry] at hsealed
    cases hsealed
  · rcases mem_append.1 hq with hq | hq
    · exact h.waiting q hq
    · exact mem_singleton.1 hq ▸ hsealed

/-- **The next operand of a pending merge.** -/
theorem Sound.push (h : Sound F written (phi :: pending) b) (hphi : (b.graph.kind phi).isPhi)
    (hf : F.Feeds phi (b.graph.operands phi).length value) :
    Sound F written (phi :: pending) (b.withGraph (b.graph.pushOperand phi value)) := by
  have hnodes := Graph.sameNodes_pushOperand b.graph phi value
  have hops := Graph.operands_pushOperand b.graph (lt_of_isPhi hphi) value
  have hkind : ∀ n, (b.withGraph (b.graph.pushOperand phi value)).graph.kind n =
      b.graph.kind n := hnodes.kind
  have hh : ∀ n, (b.withGraph (b.graph.pushOperand phi value)).graph.blockOf n =
      b.graph.blockOf n := hnodes.blockOf
  have ho : ∀ n ≠ phi, (b.withGraph (b.graph.pushOperand phi value)).graph.operands n =
      b.graph.operands n := fun n hne => (hops n).trans (if_neg hne)
  refine
    { entry := h.entry, pending_lt := fun n hn => hnodes.size ▸ h.pending_lt n hn,
      feeds := fun n hn index a ha => ?_, complete := fun n hn hs hp => ?_,
      start := fun n hn hstart hs => ?_, holds := h.holds, defined := h.defined,
      same := h.same, waiting := h.waiting, uses := fun n hn hk hb a ha => ?_,
      typed := fun n hn hk index a ha channel ht => ?_ }
  · rw [hkind] at hn
    by_cases hne : n = phi
    · subst hne
      have ha : (b.graph.operands n ++ [value])[index]? = some a :=
        (hops n).trans (if_pos rfl) ▸ ha
      rcases Nat.lt_trichotomy index (b.graph.operands n).length with hlt | rfl | hgt
      · rw [getElem?_append_left hlt] at ha
        exact h.feeds n hn index a ha
      · rw [getElem?_concat_length] at ha
        exact some.inj ha ▸ hf
      · rw [getElem?_eq_none (by rw [length_append, length_singleton]; omega)] at ha
        cases ha
    · exact h.feeds n hn index a (ho n hne ▸ ha)
  · rw [hkind] at hn
    rw [hh, ho n fun he => hp (he ▸ mem_cons_self)]
    exact h.complete n hn hs hp
  · rw [hkind] at hn
    rw [hh] at hstart
    exact h.start n hn hstart hs
  · rw [hkind] at hk hb
    have hne : n ≠ phi := fun he => absurd (he ▸ hk) (by simp [hphi])
    exact h.uses n (hnodes.size ▸ hn) hk hb a (ho n hne ▸ ha)
  · rw [hkind] at hk ht
    have hne : n ≠ phi := fun he => absurd (he ▸ hk) (by simp [hphi])
    exact h.typed n (hnodes.size ▸ hn) hk index a (ho n hne ▸ ha) channel ht

/-! ## Reading -/

/-- **A read is right** when it keeps soundness and answers with a right
definition, provided the state it leaves agrees. -/
def RightRead (F : Blueprint) (written : Writes)
    (read : Builder → Slot → NodeId → Except Fault (NodeId × Builder)) : Prop :=
  ∀ {b c : Builder} {slot : Slot} {block value : NodeId} {pending : List NodeId},
    b.WellFormed → (b.graph.kind block).isBlock = true → read b slot block = .ok (value, c) →
    Sound F written pending b → Agrees F written c →
    Sound F written pending c ∧ F.Holds written slot block value

theorem holds_iff_reaching (hw : F.written block = written block) {path : Path}
    (hl : Path.last path = block) :
    F.current written path slot = F.reaching path slot := by
  unfold Blueprint.current
  rw [reaching_eq, hl, hw]

section Complete

variable {read : Builder → Slot → NodeId → Except Fault (NodeId × Builder)}

theorem Fills.sound (ht : Tidy read) (hright : RightRead F written read) {count : Nat}
    (h : Fills read slot phi block (List.range' (b.graph.operands phi).length count) b d)
    (hf : Filling phi b) (hblock : (b.graph.kind block).isBlock)
    (hhome : F.block phi = block) (hslot : F.slot phi = some slot)
    (hpreds : F.preds block = (b.graph.operands block).map b.graph.blockOf)
    (hs : Sound F written (phi :: pending) b) (ha : Agrees F written d) :
    Sound F written (phi :: pending) d ∧
      (d.graph.operands phi).length = (b.graph.operands phi).length + count := by
  induction count generalizing b with
  | zero =>
    cases h with
    | nil => exact ⟨hs, rfl⟩
  | succ count ih =>
    cases h with
    | @cons _ _ _ c _ pred value hpred hread hrest =>
      have hwf := hf.wf
      have hb := isBlock_of_predecessor? hwf hpred
      have hr := ht hwf hb hread
      have hlt := lt_of_isPhi hf.isPhi
      have hphi : (c.graph.kind phi).isPhi = true := by
        rw [hr.evolves.kind phi hlt]
        exact hf.isPhi
      have hp := hf.push hr
      have hev := evolves_push value hphi (Nat.zero_le phi)
      have ha' := (ha.of_evolves ((hrest.spec ht hp).evolves 0 (Nat.zero_le _))
        hp.wf).of_evolves hev hr.wf
      obtain ⟨hs', hh⟩ := hright hwf hb hread hs ha'
      have hops : c.graph.operands phi = b.graph.operands phi := hr.evolves.operands phi hlt
      have hfeeds : F.Feeds phi (c.graph.operands phi).length value := by
        intro pred' hpred'
        obtain ⟨jump, hj, rfl⟩ := map_eq_some_iff.1 hpred
        have hmem : jump ∈ b.graph.operands block := mem_of_getElem? hj
        have hj : (b.graph.operands block)[(b.graph.operands phi).length]? = some jump := hj
        rw [hhome, hpreds, hops, getElem?_map, hj] at hpred'
        cases hpred'
        have hw := (ha'.of_evolves hr.evolves hwf).written block hblock jump hmem
        refine ⟨hh.dom, fun slot' hslot' => ?_⟩
        cases hslot.symm.trans hslot'
        exact ⟨hh.fits, fun path hpath hl =>
          (hh.origin path hpath hl).trans (holds_iff_reaching hw hl)⟩
      have hlength := hr.length_push hf.isPhi
      have hev' := (hr.evolves.mono (Nat.zero_le _)).trans hev
      have hrest' := ih (hlength.symm ▸ hrest) hp
        (hev'.isBlock hblock) (hpreds.trans (hev'.map_blockOf hwf hblock).symm)
        (hs'.push hphi hfeeds)
      exact ⟨hrest'.1, hrest'.2.trans (by omega)⟩

/-- **Completing a pending merge**: afterwards it is retired or has all its
operands, and what stands for it may take its place. -/
theorem complete_sound (htidy : Tidy read) (hright : RightRead F written read)
    (h : Builder.complete read b slot phi = .ok (value, c)) (hfilling : Filling phi b)
    (hnil : b.graph.operands phi = []) (hslot : F.slot phi = some slot)
    (hpreds : F.preds (b.graph.blockOf phi) =
      (b.graph.operands (b.graph.blockOf phi)).map b.graph.blockOf)
    (ho : old ≤ phi) (hclosed : ∀ n < old, ∀ a ∈ b.graph.operands n, a < old)
    (hsound : Sound F written (phi :: pending) b) (hnot : phi ∉ pending)
    (hpending : ∀ n ∈ pending, n < old ∨ b.graph.operands n = [])
    (ha : Agrees F written c) :
    Sound F written pending c ∧ F.Same phi value := by
  obtain ⟨d, hfills, hf, hr, hsimplify, hchain, hv⟩ :=
    hfilling.completes htidy h ho hclosed
  have hwf := hfilling.wf
  have hlt := lt_of_isPhi hfilling.isPhi
  have hev := hf.evolves old ho
  have hfilled := hf.filling hfilling
  obtain ⟨hr', hev', hthins⟩ := chain_spec hchain hr
  have hagreesD := ha.of_evolves hev' hf.wf
  have hagreesB := hagreesD.of_evolves hev hwf
  -- First all operands are read.
  rw [range_eq_range', show 0 = (b.graph.operands phi).length by rw [hnil]; rfl] at hfills
  obtain ⟨hsoundD, hl⟩ := hfills.sound htidy hright hfilling (hwf.home phi hlt)
    (hagreesB.block phi hlt) hslot hpreds hsound hagreesD
  have hc : (d.graph.operands phi).length = (F.preds (d.graph.blockOf phi)).length := by
    rw [hl, hnil, hev.blockOf phi hlt, hpreds, length_map]
    exact Nat.zero_add _
  -- Then merges are retired.
  have hltD := hlt.trans_le hev.size_le
  have hsoundC := Sound.chain hchain hr hsoundD ha hnot (fun n hn => ?_) hltD hc
  · refine ⟨?_, hv ▸ hsoundC.same_resolve hr'.wf phi⟩
    refine { hsoundC with
      pending_lt := fun n hn => hsoundC.pending_lt n (.tail _ hn),
      complete := fun n hn hs hp => ?_, start := fun n hn hstart hs => ?_ }
    · by_cases hne : n = phi
      · subst hne
        exact .inl (by rw [hthins.length n hltD hs, hev'.blockOf n hltD, hc])
      · exact hsoundC.complete n hn hs fun hmem => hp ((mem_cons.1 hmem).resolve_left hne)
    · refine (mem_cons.1 (hsoundC.start n hn hstart hs)).resolve_left fun he => ?_
      -- A merge in the start block has no operands, so it is retired.
      subst he
      have hempty : d.graph.operands n = [] := by
        rw [hev'.blockOf n hltD] at hstart
        rw [hstart, ha.entry] at hc
        exact length_eq_zero_iff.1 hc
      have ht := (simplify_chain (d.graph.size + 1) hr (hfilled.retirable ho)).2.2 (Nat.succ_pos _)
      rw [hsimplify] at ht
      refine ht ?_ hs
      unfold merged
      rw [hempty]
      exact Nat.zero_le _
  · refine (hpending n hn).imp_right fun hnil' => ?_
    have hne : n ≠ phi := fun he => hnot (he ▸ hn)
    exact (hf.operands n (hsound.pending_lt n (.tail _ hn)) hne).trans hnil'

end Complete

/-- What is right at the end of the only predecessor of a block is right in
the block. -/
theorem holds_of_pred {pred : NodeId} (hpreds : F.preds block = [pred])
    (hs : block ≠ startBlock) (hw : F.written pred = written pred)
    (hn : written block slot = none) (h : F.Holds written slot pred value) :
    F.Holds written slot block value := by
  have hedges : ∀ {index : Nat} {c}, (F.preds block)[index]? = some c → c = pred :=
    fun {index c} hc => by
      rw [hpreds] at hc
      exact mem_singleton.1 (mem_of_getElem? hc)
  refine ⟨dominates_of_edges hs fun index c hc => hedges hc ▸ h.dom, h.fits, fun path hp hl => ?_⟩
  cases hp with
  | nil => exact absurd hl.symm hs
  | @cons path block' index hp hedge =>
    obtain rfl : block' = block := hl
    have hpred := hedges hedge
    -- The value is not made in the block, or no path would lead there.
    have hne : F.block value ≠ block' := fun he =>
      not_isPath_of_edges hs (fun index c hc => hedges hc ▸ he ▸ h.dom) (hp.cons hedge) rfl
    rw [origin_cons hne, h.origin path hp hpred, holds_iff_reaching hw hpred]
    unfold Blueprint.current
    rw [show written (Path.last ((block', index) :: path)) slot = none from hn]
    rfl

/-- **A read is answered by a node that stands for what reaches it.** -/
theorem rightRead_readWithin (bound : Nat) : RightRead F written (readWithin bound) := by
  induction bound with
  | zero => exact fun _ _ h => absurd h nofun
  | succ bound ih =>
    intro b c slot block value pending hwf hb h hs ha
    have hr := tidy_readWithin _ hwf hb h
    have hagreesB := ha.of_evolves hr.evolves hwf
    obtain ⟨_, hbound, hcase⟩ := readWithin_eq_ok.1 h
    cases hbound
    cases hcase with
    | @found node hd =>
      exact ⟨hs, (hs.holds slot block node hd).of_same (hs.same_resolve hwf node)⟩
    | @passes jump _ c hd hsealed hops hread =>
      have hm : jump ∈ b.graph.operands block := hops ▸ mem_singleton_self jump
      have hpred := hwf.home jump (hwf.coherent.closed block jump hm)
      have hr' := tidy_readWithin bound hwf hpred hread
      have hw : Evolves 0 c (c.write slot block value) := evolves_write slot block value
      have hagreesC := ha.of_evolves hw hr'.wf
      obtain ⟨hs', hh⟩ := ih hwf hpred hread hs hagreesC
      have hp : F.preds block = [b.graph.blockOf jump] := by
        rw [hagreesB.preds block hb hsealed, hops]
        rfl
      have hh' := holds_of_pred hp
        (fun he => by rw [he, ha.entry] at hp; cases hp)
        (hagreesB.written block hb jump hm) (hs.defined slot block hd) hh
      exact ⟨hs'.write hh', hh'⟩
    | @merges _ c hd hsealed hops hread =>
      have ho := hwf.filling_openMerge hb hd
      have hc := hwf.closed_openMerge slot block
      have hr' := complete_spec (tidy_readWithin bound) hread ho le_rfl hc
      have hw : Evolves 0 c (c.write slot block value) := evolves_write slot block value
      have hagreesC := ha.of_evolves hw hr'.wf
      have hagreesO := hagreesC.of_evolves hr'.evolves ho.wf
      have hsoundO := hs.openMerge hwf hd hagreesO
      have hhome : (b.openMerge slot block).graph.blockOf b.graph.size = block :=
        (blockOf_openMerge b slot block _).trans (if_pos rfl)
      have hev : Evolves 0 b (b.openMerge slot block) :=
        evolves_openMerge slot block (Nat.zero_le _)
      obtain ⟨hs', hsame⟩ := complete_sound (tidy_readWithin bound) ih hread ho
        ((operands_openMerge b slot block _).trans
          (b.graph.operands_of_size_le le_rfl)) (hagreesO.opened hwf).2
        (by rw [hhome]; exact hagreesO.preds block (hev.isBlock hb) hsealed)
        le_rfl hc hsoundO
        (fun hm => Nat.lt_irrefl _ (hs.pending_lt _ hm))
        (fun n hn => .inl (hs.pending_lt n hn)) hagreesC
      have hh := (hsoundO.holds slot block _ (definition?_write _ slot block _)).of_same hsame
      exact ⟨hs'.write hh, hh⟩
    | waits hd hsealed =>
      have hs' := hs.await hwf hd hsealed ha
      exact ⟨hs', hs'.holds slot block _ (definition?_write _ slot block _)⟩

theorem rightRead_read : RightRead F written read :=
  fun hwf hb h hs ha => rightRead_readWithin _ hwf hb h hs ha

/-! ## Sealing -/

theorem CompletesAll.sound {l : List Placeholder} (h : CompletesAll l b c) (hwf : b.WellFormed)
    (hp : Pending l b)
    (hm : ∀ p ∈ l, b.graph.blockOf p.phi = block ∧ F.slot p.phi = some p.slot)
    (hb : (b.graph.kind block).isBlock)
    (hpreds : F.preds block = (b.graph.operands block).map b.graph.blockOf)
    (hsound : Sound F written (l.map (·.phi)) b) (ha : Agrees F written c) :
    Sound F written [] c := by
  induction h with
  | nil => exact hsound
  | @cons p rest b c d value hf hrest ih =>
    have hr := hp.head hwf hf
    have ht := hp.tail hr
    obtain ⟨-, hev, -⟩ := hrest.spec hr.wf ht
    have hagreesC := ha.of_evolves hev hr.wf
    obtain ⟨hh, hs⟩ := hm p (.head _)
    obtain ⟨hsound', -⟩ := complete_sound tidy_read rightRead_read hf (hp.filling hwf)
      (hp.merge p (.head _)).2.1 hs (by rw [hh]; exact hpreds) (Nat.zero_le _)
      b.closed_zero hsound (nodup_cons.1 hp.distinct).1
      (fun n hn => by
        obtain ⟨q, hq, rfl⟩ := mem_map.1 hn
        exact .inr (hp.merge q (.tail _ hq)).2.1) hagreesC
    refine ih hr.wf ht (fun q hq => ?_) (hr.evolves.isBlock hb)
      (hpreds.trans (hr.evolves.map_blockOf hwf hb).symm) hsound' ha
    obtain ⟨hh, hs⟩ := hm q (.tail _ hq)
    have hlt := lt_of_isPhi (hp.merge q (.tail _ hq)).1
    exact ⟨(hr.evolves.blockOf _ hlt).trans hh, hs⟩

theorem completeWhere_sound {which : Slot → Bool} (hwf : b.WellFormed)
    (h : completeWhere which b block = .ok c) (hb : (b.graph.kind block).isBlock)
    (hpreds : F.preds block = (b.graph.operands block).map b.graph.blockOf)
    (hsound : Sound F written [] b) (ha : Agrees F written c) :
    Sound F written [] c := by
  obtain ⟨-, hev, -⟩ := completeWhere_spec hwf h
  have hagreesB := ha.of_evolves hev hwf
  have hm : ∀ p ∈ due which b block, p ∈ b.placeholders ∧ p.block = block := fun p hp => by
    obtain ⟨hm, hd⟩ := mem_filter.1 hp
    exact ⟨hm, beq_iff_eq.1 (Bool.and_eq_true _ _ ▸ hd).1⟩
  refine (completeWhere_eq_ok.1 h).sound (hwf.notDue which block) (hwf.pending which block)
    (fun p hp => ?_) hb hpreds ?_ ha
  · obtain ⟨hp, he⟩ := hm p hp
    obtain ⟨-, hk, hh, -, -⟩ := hwf.waiting p hp
    exact ⟨hh.trans he, hagreesB.merge _ _ (by rw [hk]; rfl) (hwf.slots p hp)⟩
  · refine
      { hsound with
        pending_lt := fun n hn => ?_, complete := fun n hn hs hp => ?_,
        start := fun n hn hstart hs => absurd (hsound.start n hn hstart hs) not_mem_nil,
        waiting := fun q hq => hsound.waiting q (mem_of_mem_filter hq) }
    · obtain ⟨p, hp, rfl⟩ := mem_map.1 hn
      exact (hwf.waiting p (hm p hp).1).1
    · refine (hsound.complete n hn hs not_mem_nil).imp_right fun ⟨q, hq, he⟩ => ⟨q, ?_, he⟩
      refine mem_filter.2 ⟨hq, ?_⟩
      rw [Bool.not_eq_true']
      by_contra hd
      rw [Bool.not_eq_false] at hd
      exact hp (mem_map.2 ⟨q, mem_filter.2 ⟨hq, hd⟩, he⟩)

/-- **Sealing a block keeps soundness.** -/
theorem sealBlock_sound (hwf : b.WellFormed) (h : b.sealBlock block = .ok c)
    (hblock : (b.graph.kind block).isBlock) (hsound : Sound F written [] b)
    (ha : Agrees F written c) : Sound F written [] c := by
  obtain ⟨_, hr, hm⟩ := sealBlock_spec hwf h
  obtain ⟨d, e, hd, he, rfl⟩ := sealBlock_eq_ok.1 h
  obtain ⟨hw, hevD, -⟩ := completeWhere_spec hwf hd
  obtain ⟨hwfE, hevE, -⟩ := completeWhere_spec hw he
  have hi : ∀ n, isSealed { e with
      sealedBlocks := block :: e.sealedBlocks.filter (· ≠ block) } n = true ↔
      n = block ∨ e.isSealed n = true := fun n => by
    unfold isSealed
    simp only [contains_iff_mem, mem_cons, mem_filter, decide_eq_true_iff]
    tauto
  have hagreesE : Agrees F written e :=
    { ha with
      preds := fun n hn hs => ha.preds n hn ((hi n).2 (.inr hs)) }
  have hb := hevD.isBlock hblock
  have hblockE := hevE.isBlock hb
  have hpredsE := ha.preds block hblockE ((hi block).2 (.inl rfl))
  have hp := hpredsE.trans (hevE.map_blockOf hw hb)
  have hsoundD := completeWhere_sound hwf hd hblock
    (hp.trans (hevD.map_blockOf hwf hblock)) hsound (hagreesE.of_evolves hevE hw)
  have hsoundE := completeWhere_sound hw he hb hp hsoundD hagreesE
  refine { hsoundE with
    entry := (hi _).2 (.inr hsoundE.entry), waiting := fun q hq => ?_ }
  have hne : q.block ≠ block := hr.waiting q (congrArg placeholders hm ▸ hq)
  rw [← Bool.not_eq_true, hi, not_or, Bool.not_eq_true]
  exact ⟨hne, hsoundE.waiting q hq⟩

end Builder

end SsaCompiler
