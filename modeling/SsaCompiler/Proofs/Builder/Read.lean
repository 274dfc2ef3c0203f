import Mathlib.Data.List.Nodup
import SsaCompiler.Proofs.Builder.WellFormed
import SsaCompiler.Proofs.Except

/-!
# Reading and sealing keep a builder well formed

A read is opened by `ReadCase`, with one case for each way it can come to a
result: the slot is defined in the block, the read goes on in the only
predecessor, a merge is made and its operands are read, or a placeholder is
left. `Fills` is the loop that reads the operands of a merge.

**A read changes no node that was there before it.** It makes merges, fills
them and retires some of them, all of them its own. So it cannot retire a
merge of an enclosing read, whose operands are not all there yet. Sealing a
block is different: it fills merges that wait, and so it may retire any
merge of the graph.
-/

namespace SsaCompiler.Builder

open List Option SsaCompiler.Except Graph

variable {b c d : Builder} {old : Nat} {slot : Slot} {block phi value n : NodeId}
  {p q : Placeholder} {l : List Placeholder}

theorem Evolves.map_blockOf (h : Evolves old b c) (hwf : b.WellFormed)
    (hb : (b.graph.kind block).isBlock) :
    (c.graph.operands block).map c.graph.blockOf =
      (b.graph.operands block).map b.graph.blockOf := by
  rw [h.jumps block hb]
  exact map_congr_left fun j hj => h.blockOf j (hwf.coherent.closed block j hj)

/-! ## The cases of a read -/

/-- **The operands of a merge are read** at the ends of the predecessors with
the given indices, in order. -/
inductive Fills (read : Builder → Slot → NodeId → Except Fault (NodeId × Builder))
    (slot : Slot) (phi block : NodeId) : List Nat → Builder → Builder → Prop
  | nil {b : Builder} : Fills read slot phi block [] b b
  | cons {index : Nat} {rest : List Nat} {b c d : Builder} {predecessor value : NodeId}
      (hpred : b.graph.predecessor? block index = some predecessor)
      (hread : read b slot predecessor = .ok (value, c))
      (hrest : Fills read slot phi block rest (c.withGraph (c.graph.pushOperand phi value)) d) :
      Fills read slot phi block (index :: rest) b d

theorem complete_eq_ok {read : Builder → Slot → NodeId → Except Fault (NodeId × Builder)} :
    complete read b slot phi = .ok (value, c) ↔ ∃ d, Fills read slot phi (b.graph.blockOf phi)
          (List.range (b.graph.operands (b.graph.blockOf phi)).length) b d ∧
        d.simplify (d.graph.size + 1) phi = (value, c) := by
  unfold complete
  rw [bind_eq_ok]
  refine exists_congr fun d => and_congr ?_ ?_
  · generalize List.range _ = indices
    generalize b.graph.blockOf phi = block
    induction indices generalizing b with
    | nil =>
      exact ⟨fun h => by cases h; exact .nil, fun h => by cases h; rfl⟩
    | cons index indices ih =>
      rw [foldlM_cons, bind_eq_ok]
      constructor
      · rintro ⟨e, he, hrest⟩
        cases hp : b.graph.predecessor? block index with
        | none =>
          rw [hp] at he
          cases he
        | some predecessor =>
          rw [hp] at he
          obtain ⟨⟨value, c⟩, hr, hpure⟩ := bind_eq_ok.1 he
          obtain rfl := pure_eq_ok.1 hpure
          exact .cons hp hr (ih.1 hrest)
      · intro h
        cases h with
        | cons hp hr hrest =>
          refine ⟨_, ?_, ih.2 hrest⟩
          rw [hp]
          exact bind_eq_ok.2 ⟨_, hr, rfl⟩
  · exact pure_eq_ok

/-- A builder with a new merge that has no operands yet, and the slot defined
as this merge. -/
def openMerge (b : Builder) (slot : Slot) (block : NodeId) : Builder :=
  (b.place (.phi slot.channel) block []).2.write slot block b.graph.size

/-- A builder with a new merge that waits for its block to be sealed. -/
def await (b : Builder) (slot : Slot) (block : NodeId) : Builder :=
  let c := (b.place (.phi slot.channel) block []).2
  Builder.write { c with placeholders := c.placeholders ++ [⟨block, slot, b.graph.size⟩] }
    slot block b.graph.size

/-- **How a read comes to its result**, with one bound less for the reads
inside. -/
inductive ReadCase (bound : Nat) (b : Builder) (slot : Slot) (block : NodeId) :
    NodeId → Builder → Prop
  | found {node : NodeId} (hdef : b.definition? slot block = some node) :
      ReadCase bound b slot block (b.resolve node) b
  | passes {jump value : NodeId} {c : Builder} (hdef : b.definition? slot block = none)
      (hsealed : b.isSealed block = true) (hops : b.graph.operands block = [jump])
      (hread : readWithin bound b slot (b.graph.blockOf jump) = .ok (value, c)) :
      ReadCase bound b slot block value (c.write slot block value)
  | merges {value : NodeId} {c : Builder} (hdef : b.definition? slot block = none)
      (hsealed : b.isSealed block = true) (hops : ∀ jump, b.graph.operands block ≠ [jump])
      (hread : complete (readWithin bound) (b.openMerge slot block) slot b.graph.size =
        .ok (value, c)) :
      ReadCase bound b slot block value (c.write slot block value)
  | waits (hdef : b.definition? slot block = none) (hsealed : b.isSealed block = false) :
      ReadCase bound b slot block b.graph.size (b.await slot block)

theorem readWithin_eq_ok {bound : Nat} : readWithin bound b slot block = .ok (value, c) ↔
      ∃ smaller, bound = smaller + 1 ∧ ReadCase smaller b slot block value c := by
  cases bound with
  | zero => exact ⟨fun h => absurd h nofun, fun ⟨_, h, _⟩ => absurd h nofun⟩
  | succ bound =>
    simp only [Nat.add_right_cancel_iff, exists_eq_left']
    unfold readWithin
    cases hd : b.definition? slot block with
    | some node =>
      constructor
      · intro h
        cases h
        exact .found hd
      · intro h
        cases h with
        | found h =>
          cases hd.symm.trans h
          rfl
        | passes h | merges h | waits h => cases hd.symm.trans h
    | none =>
      dsimp only
      constructor
      · intro h
        split at h
        · rename_i hs
          split at h
          · obtain ⟨_, hr, hp⟩ := bind_eq_ok.1 h
            cases pure_eq_ok.1 hp
            exact .passes hd hs ‹_› hr
          · obtain ⟨_, hr, hp⟩ := bind_eq_ok.1 h
            cases pure_eq_ok.1 hp
            exact .merges hd hs ‹_› hr
        · rename_i hs
          rw [Bool.not_eq_true] at hs
          cases h
          exact .waits hd hs
      · intro h
        cases h with
        | found h => cases hd.symm.trans h
        | passes _ hs ho hr =>
          rw [if_pos hs, ho]
          exact bind_eq_ok.2 ⟨_, hr, rfl⟩
        | merges _ hs ho hr =>
          rw [if_pos hs]
          split
          · rename_i jump hj
            exact absurd hj (ho jump)
          · exact bind_eq_ok.2 ⟨_, hr, rfl⟩
        | waits _ hs =>
          rw [if_neg (by simp [hs])]
          rfl

/-! ## What a read leaves -/

/-- **The placeholders made in between** wait in blocks that are not sealed,
for slots that were not defined there. -/
def Awaits (which : Slot → Prop) (b c : Builder) : Prop :=
  ∃ new, c.placeholders = b.placeholders ++ new ∧
    ∀ q ∈ new, b.graph.size ≤ q.phi ∧ b.isSealed q.block = false ∧ which q.slot ∧
      b.definition? q.slot q.block = none

variable {which : Slot → Prop}

theorem Awaits.refl (which : Slot → Prop) (b : Builder) : Awaits which b b :=
  ⟨[], (append_nil _).symm, forall_mem_nil _⟩

theorem Awaits.mono {which' : Slot → Prop} (h : Awaits which b c)
    (hle : ∀ slot, which slot → which' slot) : Awaits which' b c := by
  obtain ⟨new, heq, hnew⟩ := h
  refine ⟨new, heq, fun q hq => ?_⟩
  obtain ⟨hlt, hs, hslot, hdef⟩ := hnew q hq
  exact ⟨hlt, hs, hle _ hslot, hdef⟩

theorem definition?_write (b : Builder) (slot : Slot) (block value : NodeId) :
    (b.write slot block value).definition? slot block = some value :=
  lookup_cons_self

/-- What is not defined later is not defined before. -/
theorem definition?_eq_none_of_suffix (hs : b.defs <:+ c.defs)
    (h : c.definition? slot block = none) : b.definition? slot block = none := by
  unfold definition? at h ⊢
  rw [lookup_eq_none_iff] at h ⊢
  exact fun e he => h e (hs.mem he)

theorem Awaits.trans (h : Awaits which b c) (h' : Awaits which c d) (hev : Evolves old b c) :
    Awaits which b d := by
  obtain ⟨new, heq, hnew⟩ := h
  obtain ⟨new', heq', hnew'⟩ := h'
  refine ⟨new ++ new', by rw [heq', heq, append_assoc], fun q hq => ?_⟩
  rcases mem_append.1 hq with hq | hq
  · exact hnew q hq
  · obtain ⟨hle, hs, hslot, hdef⟩ := hnew' q hq
    refine ⟨hev.size_le.trans hle, ?_, hslot, definition?_eq_none_of_suffix hev.defs hdef⟩
    unfold isSealed at hs ⊢
    rwa [← hev.sealedBlocks]

theorem Awaits.ne (h : Awaits which b c) (hphi : phi < b.graph.size)
    (hb : ∀ q ∈ b.placeholders, q.phi ≠ phi) : ∀ q ∈ c.placeholders, q.phi ≠ phi := by
  obtain ⟨new, heq, hnew⟩ := h
  intro q hq
  rcases mem_append.1 (heq ▸ hq) with hq | hq
  · exact hb q hq
  · exact fun he => Nat.not_lt.2 (hnew q hq).1 (he ▸ hphi)

/-- **What a read leaves**: a node that stands, and all earlier nodes as they
were. -/
structure ReadResult (slot : Slot) (b : Builder) (value : NodeId) (c : Builder) : Prop where
  wf : c.WellFormed
  evolves : Evolves b.graph.size b c
  value_lt : value < c.graph.size
  value_stands : c.Stands value
  awaits : Awaits (· = slot) b c

/-- **A tidy read** leaves what it should whatever it is asked. -/
def Tidy (read : Builder → Slot → NodeId → Except Fault (NodeId × Builder)) : Prop :=
  ∀ {b c : Builder} {slot : Slot} {block value : NodeId}, b.WellFormed →
    (b.graph.kind block).isBlock = true → read b slot block = .ok (value, c) →
    ReadResult slot b value c

/-- What reading the operands of a merge leaves: of the earlier nodes, only
the merge has changed. -/
structure Filled (slot : Slot) (phi : NodeId) (b d : Builder) : Prop where
  wf : d.WellFormed
  evolves : ∀ old ≤ phi, Evolves old b d
  operands : ∀ n < b.graph.size, n ≠ phi → d.graph.operands n = b.graph.operands n
  stands : ∀ n < b.graph.size, (d.Stands n ↔ b.Stands n)
  awaits : Awaits (· = slot) b d

/-- What completing a merge leaves. -/
structure Completed (slot : Slot) (old : Nat) (phi : NodeId) (b : Builder) (value : NodeId)
    (c : Builder) : Prop where
  wf : c.WellFormed
  evolves : Evolves old b c
  value_eq : value = c.resolve phi
  value_lt : value < c.graph.size
  value_stands : c.Stands value
  bare : ∀ n < b.graph.size, n ≠ phi → b.graph.operands n = [] →
    c.graph.operands n = [] ∧ (b.Stands n → c.Stands n)
  awaits : Awaits (· = slot) b c

theorem WellFormed.resolve_lt (h : b.WellFormed) (hn : n < b.graph.size) :
    b.resolve n < b.graph.size := by
  rw [resolve_eq_root h.forwards]
  exact root_lt (fun e he => (h.retired e he).2.2) hn

theorem WellFormed.stands_resolve (h : b.WellFormed) (n : NodeId) : b.Stands (b.resolve n) := by
  rw [resolve_eq_root h.forwards]
  exact h.forwards.lookup_root n

theorem isBlock_of_predecessor? (h : b.WellFormed) {index : Nat} {predecessor : NodeId}
    (hp : b.graph.predecessor? block index = some predecessor) :
    (b.graph.kind predecessor).isBlock := by
  obtain ⟨jump, hj, rfl⟩ := map_eq_some_iff.1 hp
  exact h.home _ (h.coherent.closed block jump (mem_of_getElem? hj))

/-- **A merge whose operands are being read.** -/
structure Filling (phi : NodeId) (b : Builder) : Prop where
  wf : b.WellFormed
  isPhi : (b.graph.kind phi).isPhi = true
  stands : b.Stands phi
  waiting : ∀ q ∈ b.placeholders, q.phi ≠ phi

/-- It remains one when the next operand is read. -/
theorem Filling.push (h : Filling phi b) (hr : ReadResult slot b value c) :
    Filling phi (c.withGraph (c.graph.pushOperand phi value)) := by
  have hlt := lt_of_isPhi h.isPhi
  have hp : (c.graph.kind phi).isPhi = true := by
    rw [hr.evolves.kind phi hlt]
    exact h.isPhi
  have hs := (hr.evolves.stands phi hlt).2 h.stands
  have hw := hr.awaits.ne hlt h.waiting
  exact ⟨hr.wf.push hp hs hw hr.value_lt hr.value_stands,
    ((sameNodes_pushOperand c.graph phi value).kind phi).symm ▸ hp, hs, hw⟩

theorem ReadResult.length_push (hr : ReadResult slot b value c) (hphi : (b.graph.kind phi).isPhi) :
    ((c.withGraph (c.graph.pushOperand phi value)).graph.operands phi).length =
      (b.graph.operands phi).length + 1 := by
  have hlt := lt_of_isPhi hphi
  have hops := operands_pushOperand c.graph (hlt.trans_le hr.evolves.size_le) value
  rw [← hr.evolves.operands phi hlt]
  exact (congrArg List.length ((hops phi).trans (if_pos rfl))).trans length_append

theorem Filling.ready (h : Filling phi b) (hold : old ≤ phi)
    (hc : ∀ n < old, ∀ a ∈ b.graph.operands n, a < old) : Ready old phi b :=
  ⟨h.wf, hold.trans (lt_of_isPhi h.isPhi).le, hc, h.waiting⟩

theorem Filling.retirable (h : Filling phi b) (hold : old ≤ phi) : Retirable old phi b phi :=
  ⟨h.isPhi, h.stands, hold, .inr rfl⟩

theorem closed_zero (b : Builder) : ∀ n < 0, ∀ a ∈ b.graph.operands n, a < 0 :=
  fun n hn => absurd hn (Nat.not_lt_zero n)

theorem Filled.filling (hf : Filled slot phi b d) (h : Filling phi b) : Filling phi d := by
  have hlt := lt_of_isPhi h.isPhi
  refine ⟨hf.wf, ?_, (hf.stands phi hlt).2 h.stands, hf.awaits.ne hlt h.waiting⟩
  rw [(hf.evolves 0 (Nat.zero_le _)).kind phi hlt]
  exact h.isPhi

section Complete

variable {read : Builder → Slot → NodeId → Except Fault (NodeId × Builder)}

theorem Fills.spec (hspec : Tidy read) {indices : List Nat}
    (h : Fills read slot phi block indices b d) (hfilling : Filling phi b) :
    Filled slot phi b d := by
  induction h with
  | nil =>
    exact ⟨hfilling.wf, fun old _ => .refl old _, fun _ _ _ => rfl, fun _ _ => Iff.rfl, .refl _ _⟩
  | @cons index rest b c d predecessor value hp hread hrest ih =>
    have hwf := hfilling.wf
    have hr := hspec hwf (isBlock_of_predecessor? hwf hp) hread
    have hlt := lt_of_isPhi hfilling.isPhi
    have hf := ih (hfilling.push hr)
    have hsame := sameNodes_pushOperand c.graph phi value
    have hphi : (c.graph.kind phi).isPhi = true := by
      rw [hr.evolves.kind phi hlt]
      exact hfilling.isPhi
    have hops := operands_pushOperand c.graph (lt_of_isPhi hphi) value
    have hs : b.graph.size ≤ (c.withGraph (c.graph.pushOperand phi value)).graph.size :=
      hr.evolves.size_le.trans hsame.size.symm.le
    refine ⟨hf.wf, fun old ho => ?_, fun n hn hne => ?_, fun n hn => ?_, ?_⟩
    · have hle : old ≤ b.graph.size := ho.trans hlt.le
      exact ((hr.evolves.mono hle).trans (evolves_push value hphi ho)).trans (hf.evolves old ho)
    · refine (hf.operands n (hn.trans_le hs) hne).trans ?_
      exact ((hops n).trans (if_neg hne)).trans (hr.evolves.operands n hn)
    · exact (hf.stands n (hn.trans_le hs)).trans (hr.evolves.stands n hn)
    · have hmid : Awaits (· = slot) b (c.withGraph (c.graph.pushOperand phi value)) := hr.awaits
      exact hmid.trans hf.awaits ((hr.evolves.mono (Nat.zero_le _)).trans
        (evolves_push value hphi (Nat.zero_le _)))

/-- **How a merge is completed**: its operands are read, and then it is retired if
it is trivial, with other merges after it. -/
theorem Filling.completes (h : Filling phi b) (hspec : Tidy read)
    (hcomplete : complete read b slot phi = .ok (value, c)) (ho : old ≤ phi)
    (hclosed : ∀ n < old, ∀ a ∈ b.graph.operands n, a < old) :
    ∃ d, Fills read slot phi (b.graph.blockOf phi)
        (List.range (b.graph.operands (b.graph.blockOf phi)).length) b d ∧ Filled slot phi b d ∧
      Ready old phi d ∧ d.simplify (d.graph.size + 1) phi = (value, c) ∧
      Relation.ReflTransGen (Retires old phi) d c ∧ value = c.resolve phi := by
  obtain ⟨d, hfills, hs⟩ := complete_eq_ok.1 hcomplete
  have hf := hfills.spec hspec h
  have hfilled := hf.filling h
  have hr := hfilled.ready ho fun n hn a ha =>
    hclosed n hn a ((hf.evolves old ho).operands n hn ▸ ha)
  obtain ⟨hc, hv, -⟩ := simplify_chain (d.graph.size + 1) hr (hfilled.retirable ho)
  rw [hs] at hc hv
  exact ⟨d, hfills, hf, hr, hs, hc, hv⟩

/-- **Completing a merge**: it is filled, and then retired if it is
trivial. -/
theorem complete_spec (hspec : Tidy read) (h : complete read b slot phi = .ok (value, c))
    (hfilling : Filling phi b) (ho : old ≤ phi)
    (hc : ∀ n < old, ∀ a ∈ b.graph.operands n, a < old) :
    Completed slot old phi b value c := by
  obtain ⟨d, -, hf, hr, -, hchain, hv⟩ := hfilling.completes hspec h ho hc
  have hev := hf.evolves old ho
  obtain ⟨hr', hev', ht⟩ := chain_spec hchain hr
  have hw' := hr'.wf
  have hlt' : phi < c.graph.size := Nat.lt_of_lt_of_le (lt_of_isPhi hfilling.isPhi)
    (hev.size_le.trans hev'.size_le)
  refine ⟨hw', hev.trans hev', hv, hv ▸ hw'.resolve_lt hlt',
    hv ▸ hw'.stands_resolve phi, fun n hn hne hnil => ?_, ?_⟩
  · obtain ⟨hops, hs⟩ := ht.bare n hne (hn.trans_le hev.size_le)
      ((hf.operands n hn hne).trans hnil)
    exact ⟨hops, fun hn' => hs ((hf.stands n hn).2 hn')⟩
  · obtain ⟨new, heq, hnew⟩ := hf.awaits
    exact ⟨new, ht.placeholders.trans heq, hnew⟩

end Complete

/-! ## Opening a merge -/

theorem evolves_openMerge (slot : Slot) (block : NodeId) (hold : old ≤ b.graph.size) :
    Evolves old b (b.openMerge slot block) :=
  (evolves_place hold).trans (evolves_write slot block b.graph.size)

theorem size_openMerge (b : Builder) (slot : Slot) (block : NodeId) :
    (b.openMerge slot block).graph.size = b.graph.size + 1 :=
  size_addNode b.graph _ _ _

theorem kind_openMerge (b : Builder) (slot : Slot) (block n : NodeId) :
    (b.openMerge slot block).graph.kind n =
      if n = b.graph.size then .phi slot.channel else b.graph.kind n :=
  kind_addNode b.graph _ _ _ n

theorem blockOf_openMerge (b : Builder) (slot : Slot) (block n : NodeId) :
    (b.openMerge slot block).graph.blockOf n =
      if n = b.graph.size then block else b.graph.blockOf n :=
  blockOf_addNode b.graph _ _ _ n

theorem operands_openMerge (b : Builder) (slot : Slot) (block n : NodeId) :
    (b.openMerge slot block).graph.operands n = b.graph.operands n := by
  refine (operands_addNode b.graph _ _ _ n).trans ?_
  split
  · rename_i h
    rw [h, b.graph.operands_of_size_le le_rfl]
  · rfl

theorem find?_reverse_eq_none {α : Type} {p : α → Bool} {l : List α}
    (h : ∀ e ∈ l, p e = false) : l.reverse.find? p = none :=
  find?_eq_none.2 fun e he => by simp [h e (mem_reverse.1 he)]

theorem slotOf_openMerge (h : b.Shaped) :
    (b.openMerge slot block).slotOf b.graph.size = some slot := by
  have hv : b.defs.reverse.find? (·.2 == b.graph.size) = none :=
    find?_reverse_eq_none fun e he => beq_false_of_ne (h.defined e he).ne
  show (List.find? _ (List.reverse (_ :: b.defs))).map _ = _
  rw [reverse_cons, find?_append, hv]
  simp

/-- **A merge is opened where its slot is not defined**, so it is marked. -/
theorem Marked.openMerge (h : Marked b) (hshaped : b.Shaped)
    (hdef : b.definition? slot block = none) : Marked (b.openMerge slot block) := by
  have hs : b.defs <:+ (b.openMerge slot block).defs := suffix_cons _ _
  intro n hn
  rw [kind_openMerge] at hn ⊢
  rw [blockOf_openMerge]
  by_cases hnew : n = b.graph.size
  · subst hnew
    have hkey : b.defs.reverse.find? (·.1 == (block, slot)) = none :=
      find?_reverse_eq_none fun e he => by
        have := lookup_eq_none_iff.1 hdef e he
        exact beq_false_of_ne fun he => bne_iff_ne.1 this he.symm
    refine ⟨slot, if_pos rfl, slotOf_openMerge hshaped, ?_⟩
    rw [if_pos rfl]
    show (List.find? _ (List.reverse (_ :: b.defs))).map _ = _
    rw [reverse_cons, find?_append, hkey]
    simp
  · rw [if_neg hnew] at hn ⊢
    rw [if_neg hnew]
    obtain ⟨slot', hk, hslot, hf⟩ := h n hn
    exact ⟨slot', hk, slotOf_of_suffix hs hslot, firstDef_of_suffix hs hf⟩

theorem WellFormed.openMerge (h : b.WellFormed) (hb : (b.graph.kind block).isBlock)
    (hdef : b.definition? slot block = none) : (b.openMerge slot block).WellFormed := by
  have hp : (b.place (.phi slot.channel) block []).2.Shaped :=
    h.place (forall_mem_nil _) rfl hb fun _ => rfl
  refine ⟨hp.write slot block ?_, h.marked.openMerge h.toShaped hdef, fun q hq =>
    slotOf_of_suffix (suffix_cons _ _) (h.slots q hq)⟩
  rw [show (b.place (.phi slot.channel) block []).2.graph.size = b.graph.size + 1 from
    size_addNode _ _ _ _]
  exact Nat.lt_succ_self _

theorem WellFormed.stands_of_size_le (h : b.WellFormed) (hn : b.graph.size ≤ n) : b.Stands n :=
  h.stands_of_isPhi_eq_false (by rw [kind_of_size_le _ hn]; rfl)

theorem WellFormed.filling_openMerge (h : b.WellFormed) (hb : (b.graph.kind block).isBlock)
    (hdef : b.definition? slot block = none) :
    Filling b.graph.size (b.openMerge slot block) where
  wf := h.openMerge hb hdef
  isPhi := by
    rw [kind_openMerge, if_pos rfl]
    rfl
  stands := h.stands_of_size_le le_rfl
  waiting := fun q hq => (h.waiting q hq).1.ne

theorem WellFormed.closed_openMerge (h : b.WellFormed) (slot : Slot) (block : NodeId) :
    ∀ n < b.graph.size, ∀ a ∈ (b.openMerge slot block).graph.operands n, a < b.graph.size :=
  fun n _ a ha => h.coherent.closed n a (operands_openMerge b slot block n ▸ ha)

theorem evolves_await (slot : Slot) (block : NodeId) (hold : old ≤ b.graph.size) :
    Evolves old b (b.await slot block) :=
  { evolves_openMerge slot block hold with }

theorem WellFormed.await (h : b.WellFormed) (hb : (b.graph.kind block).isBlock)
    (hdef : b.definition? slot block = none) : (b.await slot block).WellFormed := by
  have ho := h.openMerge hb hdef
  have hnew : ∀ q ∈ b.placeholders, q.phi ≠ b.graph.size := fun q hq =>
    (h.waiting q hq).1.ne
  refine { ho with waiting := fun q hq => ?_, distinct := ?_, slots := fun q hq => ?_ }
  · rcases mem_append.1 hq with hq | hq
    · exact ho.waiting q hq
    · obtain rfl := mem_singleton.1 hq
      refine ⟨?_, (kind_openMerge b slot block _).trans (if_pos rfl),
        (blockOf_openMerge b slot block _).trans (if_pos rfl),
        (operands_openMerge b slot block _).trans (b.graph.operands_of_size_le le_rfl),
        h.stands_of_size_le le_rfl⟩
      exact (Nat.lt_succ_self _).trans_eq (size_openMerge b slot block).symm
  · show ((b.placeholders ++ [(⟨block, slot, b.graph.size⟩ : Placeholder)]).map (·.phi)).Nodup
    rw [map_append, nodup_append]
    refine ⟨h.distinct, nodup_singleton _, fun n hn m hm => ?_⟩
    obtain ⟨q, hq, rfl⟩ := mem_map.1 hn
    rw [mem_singleton.1 hm]
    exact hnew q hq
  · rcases mem_append.1 hq with hq | hq
    · exact ho.slots q hq
    · obtain rfl := mem_singleton.1 hq
      exact slotOf_openMerge h.toShaped

/-! ## Reading -/

/-- **A read changes no earlier node**, whatever its bound. -/
theorem tidy_readWithin (bound : Nat) : Tidy (readWithin bound) := by
  induction bound with
  | zero => exact fun _ _ h => absurd h nofun
  | succ bound ih =>
    intro b c slot block value hwf hb h
    obtain ⟨_, hbound, hc⟩ := readWithin_eq_ok.1 h
    cases hbound
    cases hc with
    | @found node hd =>
      have hlt := hwf.defined _ (mem_of_lookup_eq_some hd)
      exact ⟨hwf, .refl _ b, hwf.resolve_lt hlt, hwf.stands_resolve node, .refl _ b⟩
    | @passes jump _ c hd hs ho hread =>
      have hj := hwf.coherent.closed block jump (ho ▸ mem_singleton_self jump)
      have hr := ih hwf (hwf.home jump hj) hread
      exact ⟨hr.wf.write slot block hr.value_lt,
        hr.evolves.trans (evolves_write slot block value), hr.value_lt, hr.value_stands,
        hr.awaits⟩
    | @merges _ c hd hs ho hread =>
      have hr := complete_spec ih hread (hwf.filling_openMerge hb hd) le_rfl
        (hwf.closed_openMerge slot block)
      have hev := evolves_openMerge slot block (Nat.le_refl b.graph.size)
      refine ⟨hr.wf.write slot block hr.value_lt,
        (hev.trans hr.evolves).trans (evolves_write slot block value), hr.value_lt,
        hr.value_stands, ?_⟩
      have hmid : Awaits (· = slot) b (b.openMerge slot block) :=
        ⟨[], (append_nil _).symm, forall_mem_nil _⟩
      exact hmid.trans hr.awaits hev
    | waits hd hs =>
      refine ⟨hwf.await hb hd, evolves_await slot block le_rfl, ?_,
        hwf.stands_of_size_le le_rfl, ⟨[⟨block, slot, b.graph.size⟩], rfl, ?_⟩⟩
      · exact (Nat.lt_succ_self _).trans_eq (size_openMerge b slot block).symm
      · intro q hq
        obtain rfl := mem_singleton.1 hq
        exact ⟨le_rfl, hs, rfl, hd⟩

theorem tidy_read : Tidy read := fun hwf hb h => tidy_readWithin _ hwf hb h

/-! ## Sealing -/

/-- **Placeholders are completed** one after the other. -/
inductive CompletesAll : List Placeholder → Builder → Builder → Prop
  | nil {b : Builder} : CompletesAll [] b b
  | cons {p : Placeholder} {rest : List Placeholder} {b c d : Builder} {value : NodeId}
      (hfirst : complete read b p.slot p.phi = .ok (value, c)) (hrest : CompletesAll rest c d) :
      CompletesAll (p :: rest) b d

/-- The placeholders of a block that satisfy `which`, and the others. -/
def due (which : Slot → Bool) (b : Builder) (block : NodeId) : List Placeholder :=
  b.placeholders.filter fun p => p.block == block && which p.slot

def notDue (which : Slot → Bool) (b : Builder) (block : NodeId) : List Placeholder :=
  b.placeholders.filter fun p => !(p.block == block && which p.slot)

theorem completeWhere_eq_ok {which : Slot → Bool} : completeWhere which b block = .ok c ↔
      CompletesAll (due which b block) { b with placeholders := notDue which b block } c := by
  have hfold : ∀ (l : List Placeholder) (b : Builder),
      l.foldlM (fun b p => (complete read b p.slot p.phi).map (·.2)) b = .ok c ↔
        CompletesAll l b c := fun l => by
    induction l with
    | nil =>
      intro b
      exact ⟨fun h => by cases h; exact .nil, fun h => by cases h; rfl⟩
    | cons p l ih =>
      intro b
      rw [foldlM_cons, bind_eq_ok]
      constructor
      · rintro ⟨d, hd, hr⟩
        cases hf : complete read b p.slot p.phi with
        | error => rw [hf] at hd; cases hd
        | ok r =>
          rw [hf] at hd
          cases hd
          exact .cons hf ((ih _).1 hr)
      · intro h
        cases h with
        | cons hf hr => exact ⟨_, by rw [hf]; rfl, (ih _).2 hr⟩
  unfold completeWhere
  rw [partition_eq_filter_filter]
  exact hfold _ _

theorem sealBlock_eq_ok : b.sealBlock block = .ok c ↔
      ∃ d e, completeWhere (· ≠ .effect) b block = .ok d ∧
        completeWhere (· = .effect) d block = .ok e ∧
        c = { e with sealedBlocks := block :: e.sealedBlocks.filter (· ≠ block) } := by
  unfold sealBlock
  simp only [bind_eq_ok, pure_eq_ok]
  constructor
  · rintro ⟨d, hd, e, he, h⟩
    exact ⟨d, e, hd, he, h.symm⟩
  · rintro ⟨d, e, hd, he, h⟩
    exact ⟨d, hd, e, he, h.symm⟩

/-- Merges that wait no more and are to be completed next. -/
structure Pending (l : List Placeholder) (b : Builder) : Prop where
  merge : ∀ p ∈ l, (b.graph.kind p.phi).isPhi = true ∧ b.graph.operands p.phi = [] ∧ b.Stands p.phi
  distinct : (l.map (·.phi)).Nodup
  waiting : ∀ p ∈ l, ∀ q ∈ b.placeholders, q.phi ≠ p.phi

/-- What completing one merge leaves of the others. -/
theorem Pending.tail (h : Pending (p :: l) b) (hr : Completed p.slot 0 p.phi b value c) :
    Pending l c := by
  obtain ⟨hm, hd, hw⟩ := h
  obtain ⟨hnot, hd⟩ := nodup_cons.1 hd
  refine ⟨fun q hq => ?_, hd, fun q hq => ?_⟩
  · obtain ⟨hphi, hnil, hs⟩ := hm q (.tail _ hq)
    have hlt := lt_of_isPhi hphi
    have hne : q.phi ≠ p.phi := fun he => hnot (mem_map.2 ⟨q, hq, he⟩)
    obtain ⟨hnil', hs'⟩ := hr.bare q.phi hlt hne hnil
    exact ⟨by rwa [hr.evolves.kind _ hlt], hnil', hs' hs⟩
  · have hlt := lt_of_isPhi (hm q (.tail _ hq)).1
    exact hr.awaits.ne hlt (hw q (.tail _ hq))

theorem Pending.filling (h : Pending (p :: l) b) (hwf : b.WellFormed) : Filling p.phi b := by
  obtain ⟨hphi, -, hs⟩ := h.merge p (.head _)
  exact ⟨hwf, hphi, hs, h.waiting p (.head _)⟩

theorem Pending.head (h : Pending (p :: l) b) (hwf : b.WellFormed)
    (hf : complete read b p.slot p.phi = .ok (value, c)) :
    Completed p.slot 0 p.phi b value c :=
  complete_spec tidy_read hf (h.filling hwf) (Nat.zero_le _) b.closed_zero

theorem CompletesAll.spec (h : CompletesAll l b c) (hwf : b.WellFormed) (hp : Pending l b) :
    c.WellFormed ∧ Evolves 0 b c ∧ Awaits (fun slot => ∃ p ∈ l, slot = p.slot) b c := by
  induction h with
  | nil => exact ⟨hwf, .refl 0 _, .refl _ _⟩
  | @cons p rest b c d value hf hrest ih =>
    have hr := hp.head hwf hf
    obtain ⟨hwf', hev, ha⟩ := ih hr.wf (hp.tail hr)
    refine ⟨hwf', hr.evolves.trans hev, Awaits.trans
      (hr.awaits.mono fun slot he => ⟨p, .head _, he⟩)
      (ha.mono fun slot ⟨q, hq, he⟩ => ⟨q, .tail _ hq, he⟩) hr.evolves⟩

theorem WellFormed.notDue (h : b.WellFormed) (which : Slot → Bool) (block : NodeId) :
    WellFormed { b with placeholders := notDue which b block } :=
  { h with
    waiting := fun q hq => h.waiting q (mem_of_mem_filter hq)
    slots := fun q hq => h.slots q (mem_of_mem_filter hq)
    distinct := h.distinct.sublist (filter_sublist.map _) }

theorem WellFormed.pending (h : b.WellFormed) (which : Slot → Bool) (block : NodeId) :
    Pending (due which b block) { b with placeholders := Builder.notDue which b block } := by
  refine ⟨fun p hp => ?_, h.distinct.sublist (filter_sublist.map _), fun p hp q hq he => ?_⟩
  · obtain ⟨-, hk, -, hnil, hs⟩ := h.waiting p (mem_of_mem_filter hp)
    exact ⟨by rw [hk]; rfl, hnil, hs⟩
  · have hp' := mem_filter.1 hp
    have hq' := mem_filter.1 hq
    have heq : q = p := inj_on_of_nodup_map h.distinct hq'.1 hp'.1 he
    rw [heq, hp'.2] at hq'
    exact absurd hq'.2 nofun

theorem completeWhere_spec {which : Slot → Bool} (hwf : b.WellFormed)
    (h : completeWhere which b block = .ok c) :
    c.WellFormed ∧ Evolves 0 b c ∧
      Awaits (fun slot => ∃ p ∈ due which b block, slot = p.slot)
        { b with placeholders := notDue which b block } c := by
  obtain ⟨hwf', hev, ha⟩ :=
    (completeWhere_eq_ok.1 h).spec (hwf.notDue which block) (hwf.pending which block)
  exact ⟨hwf', { hev with }, ha⟩

theorem WellFormed.definition?_ne_none (h : b.WellFormed) (hq : q ∈ b.placeholders) :
    b.definition? q.slot q.block ≠ none := by
  obtain ⟨-, hk, hb, -, -⟩ := h.waiting q hq
  obtain ⟨slot, -, hs, hf⟩ := h.marked q.phi (by rw [hk]; rfl)
  cases hs.symm.trans (h.slots q hq)
  obtain ⟨e, he, -⟩ := map_eq_some_iff.1 hf
  intro hn
  have hkey := find?_some he
  have hne := lookup_eq_none_iff.1 hn e (mem_reverse.1 (mem_of_find?_eq_some he))
  rw [hb] at hkey
  exact bne_iff_ne.1 hne (beq_iff_eq.1 hkey).symm

theorem placeholders_of_completeWhere {which : Slot → Bool} (hwf : b.WellFormed)
    (h : completeWhere which b block = .ok c) (hq : q ∈ c.placeholders) (hb : q.block = block) :
    q ∈ b.placeholders ∧ which q.slot = false := by
  obtain ⟨-, -, new, heq, hnew⟩ := completeWhere_spec hwf h
  rcases mem_append.1 (heq ▸ hq) with hq | hq
  · obtain ⟨hm, hn⟩ := mem_filter.1 hq
    refine ⟨hm, ?_⟩
    rw [hb, beq_self_eq_true, Bool.not_eq_true'] at hn
    exact hn
  · obtain ⟨-, -, ⟨p, hp, hs⟩, hd⟩ := hnew q hq
    obtain ⟨hm, hdue⟩ := mem_filter.1 hp
    rw [Bool.and_eq_true, beq_iff_eq] at hdue
    rw [hs, hb, ← hdue.1] at hd
    exact absurd hd (hwf.definition?_ne_none hm)

/-- **What sealing leaves**: the block is sealed, and nothing waits in it. -/
structure SealResult (block : NodeId) (b e : Builder) : Prop where
  wf : e.WellFormed
  evolves : Evolves 0 b e
  waiting : ∀ q ∈ e.placeholders, q.block ≠ block

/-- The two passes of sealing, before the block is marked. -/
theorem sealBlock_spec (hwf : b.WellFormed) (h : b.sealBlock block = .ok c) :
    ∃ e, SealResult block b e ∧
      c = { e with sealedBlocks := block :: e.sealedBlocks.filter (· ≠ block) } := by
  obtain ⟨d, e, hd, he, rfl⟩ := sealBlock_eq_ok.1 h
  obtain ⟨hw, hevD, -⟩ := completeWhere_spec hwf hd
  obtain ⟨hwfE, hevE, -⟩ := completeWhere_spec hw he
  refine ⟨e, ⟨hwfE, hevD.trans hevE, fun q hq hb => ?_⟩, rfl⟩
  obtain ⟨hqD, hvar⟩ := placeholders_of_completeWhere hw he hq hb
  obtain ⟨-, heffect⟩ := placeholders_of_completeWhere hwf hd hqD hb
  simp_all

end SsaCompiler.Builder
