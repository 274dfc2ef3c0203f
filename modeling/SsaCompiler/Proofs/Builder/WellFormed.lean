import SsaCompiler.Proofs.Builder.Forwarding
import SsaCompiler.Proofs.Draft

/-!
# What every builder keeps

`WellFormed` collects what holds of a builder whatever its caller does: both
records of the edges agree, retired merges have no operands, and **no merge
has a retired operand**. `Evolves` relates a state to a later one. It has a
parameter `old`: the nodes below it keep their operands and are not retired
in between. A read started with `old` nodes evolves the builder in this
sense, which is the reason why a merge whose operands are still being read
is not looked at before it is complete.

Reads change a builder by small steps. This module has one lemma per step
for both notions, and ends with `simplify`, which is a chain of
retirements.
-/

namespace SsaCompiler

open List Graph Kind
open Graph (startBlock endBlock)

variable {k kind : Kind} {n block value phi first : NodeId} {g : Graph} {operands : List NodeId}
  {slot : Slot}

theorem Kind.isBlock_eq_false_of_isPhi (h : k.isPhi) : k.isBlock = false := by
  cases k <;> first | rfl | cases h

theorem Kind.isBlock_eq_false_of_isTerminator (h : k.isTerminator) : k.isBlock = false := by
  cases k <;> first | rfl | cases h

theorem Kind.isTerminator_eq_false_of_isPhi (h : k.isPhi) : k.isTerminator = false := by
  cases k <;> first | rfl | cases h

theorem Kind.isPhi_eq_false_of_isShareable (h : k.isShareable) : k.isPhi = false := by
  cases k <;> first | rfl | cases h

theorem Kind.isBlock_eq_false_of_isShareable (h : k.isShareable) : k.isBlock = false := by
  cases k <;> first | rfl | cases h

namespace Builder

/-- A node that was not retired **stands** for itself. -/
def Stands (b : Builder) (n : NodeId) : Prop :=
  b.forwarded.lookup n = none

/-- What holds of the nodes and edges of every builder. -/
structure Shaped (b : Builder) : Prop where
  coherent : b.graph.Coherent
  entry : (b.graph.kind startBlock).isBlock = true
  /-- Every node belongs to a block. -/
  home : ∀ n < b.graph.size, (b.graph.kind (b.graph.blockOf n)).isBlock = true
  /-- The operands of a block are the jumps that lead to it. -/
  jumps : ∀ n, (b.graph.kind n).isBlock = true →
    ∀ a ∈ b.graph.operands n, (b.graph.kind a).isTerminator = true
  forwards : Forwards b.forwarded
  /-- Only merges are retired, and a retired merge keeps no operands. -/
  retired : ∀ e ∈ b.forwarded, (b.graph.kind e.1).isPhi = true ∧ b.graph.operands e.1 = [] ∧
    e.2 < b.graph.size
  /-- No merge has a retired operand. -/
  merges : ∀ n, (b.graph.kind n).isPhi = true → ∀ a ∈ b.graph.operands n, b.Stands a
  defined : ∀ e ∈ b.defs, e.2 < b.graph.size
  table : ∀ e ∈ b.known, e.2 < b.graph.size ∧ b.graph.kind e.2 = e.1.kind ∧
    b.graph.blockOf e.2 = e.1.block
  /-- A shared node has the operands of its key, up to the retirements since. -/
  shared : ∀ e ∈ b.known, e.1.kind.isShareable = true ∧ ∃ operands new,
    e.1 = .of e.1.kind e.1.block operands ∧ new <+: b.forwarded ∧
      b.graph.operands e.2 = operands.map (root new)
  waiting : ∀ q ∈ b.placeholders, q.phi < b.graph.size ∧
    b.graph.kind q.phi = .phi q.slot.channel ∧ b.graph.blockOf q.phi = q.block ∧
    b.graph.operands q.phi = [] ∧ b.Stands q.phi
  distinct : (b.placeholders.map (·.phi)).Nodup

/-- The slot a merge was made for: that of the first definition by it. -/
def slotOf (b : Builder) (n : NodeId) : Option Slot :=
  (b.defs.reverse.find? (·.2 == n)).map (·.1.2)

/-- The first definition of a slot in a block. -/
def firstDef (b : Builder) (slot : Slot) (block : NodeId) : Option NodeId :=
  (b.defs.reverse.find? (·.1 == (block, slot))).map (·.2)

/-- **A merge is the first definition of its slot in its block.** So a block
has one merge of a slot at most. -/
def Marked (b : Builder) : Prop :=
  ∀ n, (b.graph.kind n).isPhi = true → ∃ slot, b.graph.kind n = .phi slot.channel ∧
    b.slotOf n = some slot ∧ b.firstDef slot (b.graph.blockOf n) = some n

/-- **What holds of every builder.** -/
structure WellFormed (b : Builder) : Prop extends Shaped b where
  marked : Marked b
  slots : ∀ q ∈ b.placeholders, b.slotOf q.phi = some q.slot

/-- **How reading changes a builder.** Nodes only come in addition, namely
merges and undefined values; the nodes below `old` keep their operands and
are not retired, and so do all blocks. -/
structure Evolves (old : Nat) (b c : Builder) : Prop where
  name : c.graph.name = b.graph.name
  roles : c.graph.roles = b.graph.roles
  size_le : b.graph.size ≤ c.graph.size
  kind : ∀ n < b.graph.size, c.graph.kind n = b.graph.kind n
  fresh : ∀ n, b.graph.size ≤ n → (c.graph.kind n).isPhi = true ∨ c.graph.kind n = .undefined
  bare : ∀ n, b.graph.size ≤ n → c.graph.kind n = .undefined → c.graph.operands n = []
  blockOf : ∀ n < b.graph.size, c.graph.blockOf n = b.graph.blockOf n
  operands : ∀ n < old, c.graph.operands n = b.graph.operands n
  jumps : ∀ n, (b.graph.kind n).isBlock = true → c.graph.operands n = b.graph.operands n
  stands : ∀ n < old, (c.Stands n ↔ b.Stands n)
  /-- Where a merge was retired in between, its users hold what stands for it. -/
  resolved : ∃ new, c.forwarded = new ++ b.forwarded ∧
    ∀ n < b.graph.size, (b.graph.kind n).isPhi = false →
      c.graph.operands n = (b.graph.operands n).map (root new)
  defs : b.defs <:+ c.defs
  sealedBlocks : c.sealedBlocks = b.sealedBlocks
  current : c.current = b.current

variable {b c d : Builder} {old : Nat}

theorem kind_of_size_le (g : Graph) (h : g.size ≤ n) : g.kind n = .undefined := by
  unfold Graph.kind Graph.node
  rw [Array.getD_eq_getD_getElem?, Array.getElem?_eq_none h]
  rfl

theorem lt_of_isBlock (h : (g.kind n).isBlock) : n < g.size := by
  by_contra hn
  rw [kind_of_size_le g (not_lt.1 hn)] at h
  exact absurd h Bool.false_ne_true

theorem lt_of_isPhi (h : (g.kind n).isPhi) : n < g.size := by
  by_contra hn
  rw [kind_of_size_le g (not_lt.1 hn)] at h
  exact absurd h Bool.false_ne_true

theorem lt_of_isTerminator (h : (g.kind n).isTerminator) : n < g.size := by
  by_contra hn
  rw [kind_of_size_le g (not_lt.1 hn)] at h
  exact absurd h Bool.false_ne_true

theorem Evolves.refl (old : Nat) (b : Builder) : Evolves old b b where
  name := rfl
  roles := rfl
  size_le := le_rfl
  kind := fun _ _ => rfl
  fresh := fun _ hn => .inr (kind_of_size_le _ hn)
  bare := fun _ hn _ => b.graph.operands_of_size_le hn
  blockOf := fun _ _ => rfl
  operands := fun _ _ => rfl
  jumps := fun _ _ => rfl
  stands := fun _ _ => Iff.rfl
  resolved := ⟨[], rfl, fun _ _ _ => (map_id _).symm⟩
  defs := suffix_refl _
  sealedBlocks := rfl
  current := rfl

theorem Evolves.forwarded (h : Evolves old b c) : b.forwarded <:+ c.forwarded := by
  obtain ⟨new, heq, -⟩ := h.resolved
  exact ⟨new, heq.symm⟩

theorem Evolves.isBlock (h : Evolves old b c) (hn : (b.graph.kind n).isBlock) :
    (c.graph.kind n).isBlock := by
  rwa [h.kind n (lt_of_isBlock hn)]

theorem Evolves.trans (h : Evolves old b c) (h' : Evolves old c d) : Evolves old b d where
  name := h'.name.trans h.name
  roles := h'.roles.trans h.roles
  size_le := h.size_le.trans h'.size_le
  kind := fun n hn => (h'.kind n (hn.trans_le h.size_le)).trans (h.kind n hn)
  fresh := fun n hn => by
    by_cases hc : n < c.graph.size
    · rw [h'.kind n hc]
      exact h.fresh n hn
    · exact h'.fresh n (not_lt.1 hc)
  bare := fun n hn hk => by
    by_cases hc : n < c.graph.size
    · rw [h'.kind n hc] at hk
      obtain ⟨new, -, hops⟩ := h'.resolved
      rw [hops n hc (by rw [hk]; rfl), h.bare n hn hk]
      rfl
    · exact h'.bare n (not_lt.1 hc) hk
  blockOf := fun n hn => (h'.blockOf n (hn.trans_le h.size_le)).trans (h.blockOf n hn)
  operands := fun n hn => (h'.operands n hn).trans (h.operands n hn)
  jumps := fun n hn => (h'.jumps n (h.isBlock hn)).trans (h.jumps n hn)
  stands := fun n hn => (h'.stands n hn).trans (h.stands n hn)
  resolved := by
    obtain ⟨new, heq, hops⟩ := h.resolved
    obtain ⟨new', heq', hops'⟩ := h'.resolved
    refine ⟨new' ++ new, by rw [heq', heq, append_assoc], fun n hn hk => ?_⟩
    rw [hops' n (hn.trans_le h.size_le) (by rw [h.kind n hn]; exact hk), hops n hn hk,
      map_map]
    exact map_congr_left fun a _ => (root_append new' new a).symm
  defs := h.defs.trans h'.defs
  sealedBlocks := h'.sealedBlocks.trans h.sealedBlocks
  current := h'.current.trans h.current

theorem Evolves.mono {old' : Nat} (h : Evolves old b c) (hle : old' ≤ old) : Evolves old' b c where
  name := h.name
  roles := h.roles
  size_le := h.size_le
  kind := h.kind
  fresh := h.fresh
  bare := h.bare
  blockOf := h.blockOf
  operands := fun n hn => h.operands n (hn.trans_le hle)
  jumps := h.jumps
  stands := fun n hn => h.stands n (hn.trans_le hle)
  resolved := h.resolved
  defs := h.defs
  sealedBlocks := h.sealedBlocks
  current := h.current

/-! ## Nodes and definitions in addition -/

theorem stands_iff : b.Stands n ↔ ∀ e ∈ b.forwarded, e.1 ≠ n := by
  unfold Stands
  rw [lookup_eq_none_iff]
  exact forall₂_congr fun e _ => bne_iff_ne.trans ne_comm

theorem Shaped.stands_of_isPhi_eq_false (h : b.Shaped) (hn : (b.graph.kind n).isPhi = false) :
    b.Stands n := by
  refine stands_iff.2 fun e he hne => ?_
  rw [← hne, (h.retired e he).1] at hn
  cases hn

theorem kind_of_appends {d : Draft} (h : b.toDraft.Appends kind block d) (hn : b.graph.size ≤ n) :
    d.graph.kind n = kind ∨ d.graph.kind n = .undefined := by
  rw [h.kind]
  split
  · exact .inl rfl
  · exact .inr (kind_of_size_le _ hn)

/-- **A new node**, made in whatever way, evolves a builder. -/
theorem evolves_of_adds {d : Draft} (h : b.toDraft.Adds kind block d) (hold : old ≤ b.graph.size)
    (hkind : kind.isPhi ∨ kind = .undefined)
    (hb : kind = .undefined → d.graph.operands b.graph.size = []) :
    Evolves old b { b with toDraft := d } where
  name := h.name
  roles := h.roles
  size_le := by
    rw [h.size]
    exact Nat.le_succ _
  kind := fun n hn => (h.kind n).trans (if_neg hn.ne)
  fresh := fun n hn => (kind_of_appends h.appends hn).elim (fun he => he ▸ hkind) .inr
  bare := fun n hn hk => by
    rw [h.kind] at hk
    split at hk
    · rename_i he
      rw [he]
      exact hb hk
    · exact (h.operands n ‹_›).trans (b.graph.operands_of_size_le hn)
  blockOf := fun n hn => (h.blockOf n).trans (if_neg hn.ne)
  operands := fun n hn => h.operands n (hn.trans_le hold).ne
  jumps := fun n hn => h.operands n (lt_of_isBlock hn).ne
  stands := fun _ _ => Iff.rfl
  resolved := ⟨[], rfl, fun n hn _ =>
    (h.operands n hn.ne).trans (map_id _).symm⟩
  defs := suffix_refl _
  sealedBlocks := rfl
  current := rfl

/-- A new node keeps a builder well formed; a new merge or block has no operands
yet. -/
theorem Shaped.of_adds {d : Draft} (h : b.Shaped) (hadds : b.toDraft.Appends kind block d)
    (hc : d.graph.Coherent) (hknown : ∀ e ∈ d.known, e ∈ b.known ∨ kind.isShareable ∧
      e = (.of kind block (d.graph.operands b.graph.size), b.graph.size))
    (hblock : (b.graph.kind block).isBlock ∨ block = b.graph.size ∧ kind.isBlock)
    (hbare : kind.isBlock ∨ kind.isPhi → d.graph.operands b.graph.size = []) :
    Shaped { b with toDraft := d } := by
  have hsize : d.graph.size = b.graph.size + 1 := hadds.size
  have hkind : ∀ n < b.graph.size, d.graph.kind n = b.graph.kind n := fun n hn =>
    (hadds.kind n).trans (if_neg hn.ne)
  have hkindNew : d.graph.kind b.graph.size = kind := (hadds.kind _).trans (if_pos rfl)
  have hlt : ∀ n, n < b.graph.size → n < d.graph.size := fun n hn => by omega
  have ho : ∀ {n a}, (d.graph.kind n).isBlock ∨ (d.graph.kind n).isPhi →
      a ∈ d.graph.operands n → d.graph.kind n = b.graph.kind n ∧ a ∈ b.graph.operands n :=
    fun {n a} hn ha => by
      by_cases hne : n = b.graph.size
      · rw [hne, hkindNew] at hn
        rw [hne, hbare hn] at ha
        cases ha
      · rw [hadds.operands n hne] at ha
        exact ⟨hkind n (lt_of_mem_operands ha), ha⟩
  have hkeep : ∀ n, (b.graph.kind n).isBlock = true → (d.graph.kind n).isBlock = true :=
    fun n hn => by rwa [hkind n (lt_of_isBlock hn)]
  refine
    { coherent := hc, entry := hkeep _ h.entry, home := fun n hn => ?_,
      jumps := fun n hn a ha => ?_, forwards := h.forwards, retired := fun e he => ?_,
      merges := fun n hn a ha => ?_, defined := fun e he => hlt _ (h.defined e he),
      table := fun e he => ?_, shared := fun e he => ?_, waiting := fun q hq => ?_,
      distinct := h.distinct }
  · rw [hadds.blockOf]
    split
    · rcases hblock with hblock | ⟨rfl, hblock⟩
      · exact hkeep _ hblock
      · rwa [hkindNew]
    · rename_i hne
      have hle : n ≤ b.graph.size := Nat.le_of_lt_succ (hn.trans_eq hsize)
      exact hkeep _ (h.home n (Nat.lt_of_le_of_ne hle hne))
  · obtain ⟨hk, ha⟩ := ho (.inl hn) ha
    rw [hkind a (h.coherent.closed n a ha)]
    exact h.jumps n (hk ▸ hn) a ha
  · obtain ⟨hphi, hops, hv⟩ := h.retired e he
    have hlt' := lt_of_isPhi hphi
    refine ⟨?_, (hadds.operands _ hlt'.ne).trans hops, hlt _ hv⟩
    rwa [hkind _ hlt']
  · obtain ⟨hk, ha⟩ := ho (.inr hn) ha
    exact h.merges n (hk ▸ hn) a ha
  · rcases hknown e he with ho | ⟨-, rfl⟩
    · obtain ⟨hlt', hk, hb⟩ := h.table e ho
      have hne := hlt'.ne
      exact ⟨hlt _ hlt', (hkind _ hlt').trans hk, ((hadds.blockOf _).trans (if_neg hne)).trans hb⟩
    · exact ⟨hsize ▸ Nat.lt_succ_self _, hkindNew, (hadds.blockOf _).trans (if_pos rfl)⟩
  · rcases hknown e he with ho | ⟨hs, rfl⟩
    · obtain ⟨hs, operands, new, hkey, hnew, hops⟩ := h.shared e ho
      exact ⟨hs, operands, new, hkey, hnew, (hadds.operands _ (h.table e ho).1.ne).trans hops⟩
    · exact ⟨hs, _, [], rfl, nil_prefix, (map_id _).symm⟩
  · obtain ⟨hlt', hk, hb, hops, hstands⟩ := h.waiting q hq
    have hne := hlt'.ne
    exact ⟨hlt _ hlt', (hkind _ hlt').trans hk, ((hadds.blockOf _).trans (if_neg hne)).trans hb,
      (hadds.operands _ hne).trans hops, hstands⟩

theorem evolves_place {channel : Channel} (hold : old ≤ b.graph.size) :
    Evolves old b (b.place (.phi channel) block []).2 :=
  evolves_of_adds (b.adds_addNode _ _ _) hold (.inl rfl) fun hk => absurd hk nofun

theorem known_add (b : Builder) (kind : Kind) (block : NodeId) (operands : List NodeId) :
    ∀ e ∈ (b.toDraft.add kind block operands).2.known, e ∈ b.known ∨ kind.isShareable ∧
      e = (.of kind block ((b.toDraft.add kind block operands).2.graph.operands b.graph.size),
        b.graph.size) := by
  intro e he
  have ha := (b.add_spec kind block operands).2
  generalize b.add kind block operands = r at ha he
  obtain ⟨n, d⟩ := r
  cases ha with
  | unshared _ hk | again _ _ _ hk => exact .inl (hk ▸ he)
  | first hs hops hk =>
    rcases mem_cons.1 (hk ▸ he) with rfl | he
    · exact .inr ⟨hs, by rw [hops]⟩
    · exact .inl he

section

variable (h : b.Shaped) (hops : ∀ a ∈ operands, a < b.graph.size) (hnot : kind.isBlock = false)
  (hblock : (b.graph.kind block).isBlock)

include h hops hnot hblock

theorem Shaped.place (hphi : kind.isPhi → operands = []) : (b.place kind block operands).2.Shaped :=
  h.of_adds (b.adds_addNode kind block operands).appends (h.coherent.addNode kind block hops)
    (fun _ he => .inl he) (.inl hblock) fun hk =>
      ((operands_addNode _ _ _ _ _).trans (if_pos rfl)).trans (hphi (by simpa [hnot] using hk))

theorem Shaped.lift_add (hphi : kind.isPhi = false) :
    (b.lift (b.add kind block operands)).2.Shaped :=
  h.of_adds (b.add_spec kind block operands).1.appends
    (b.coherent_add kind block operands h.coherent hops) (b.known_add kind block operands)
    (.inl hblock) fun hk => absurd hk (by simp [hnot, hphi])

end

theorem Shaped.answer (h : b.Shaped) (kind : Kind) (block : NodeId)
    (operands : List NodeId) :
    let r := b.lift (b.add kind block operands)
    r.1 < r.2.graph.size ∧ r.2.graph.kind r.1 = kind ∧ r.2.graph.blockOf r.1 = block := by
  obtain ⟨ha, hanswer⟩ := b.add_spec kind block operands
  generalize b.add kind block operands = r at ha hanswer
  obtain ⟨n, d⟩ := r
  have hnew : b.graph.size < d.graph.size ∧ d.graph.kind b.graph.size = kind ∧
      d.graph.blockOf b.graph.size = block :=
    ⟨ha.size ▸ Nat.lt_succ_self _, (ha.kind _).trans (if_pos rfl),
      (ha.blockOf _).trans (if_pos rfl)⟩
  cases hanswer with
  | unshared | first => exact hnew
  | again _ hmem _ _ =>
    obtain ⟨hlt, hk, hblock⟩ := h.table _ hmem
    have hne := hlt.ne
    exact ⟨ha.size ▸ Nat.lt_succ_of_lt hlt, ((ha.kind n).trans (if_neg hne)).trans hk,
      ((ha.blockOf n).trans (if_neg hne)).trans hblock⟩

/-- **A node of the value table has its key** if no operand of the key was retired. -/
theorem Shaped.valueKey_of_stands (h : b.Shaped) {e : ValueKey × NodeId} (he : e ∈ b.known)
    (hstands : ∀ a ∈ e.1.operands, b.Stands a) : b.graph.valueKey e.2 = e.1 := by
  obtain ⟨-, hk, hblock⟩ := h.table e he
  obtain ⟨-, operands, new, hof, ⟨old, hnew⟩, hops⟩ := h.shared e he
  have hr : ∀ a ∈ operands, root new a = a := fun a ha => by
    have ha := hstands a (hof ▸ (ValueKey.perm_operands_of _ _ _).mem_iff.2 ha)
    rw [Stands, ← hnew, lookup_append, Option.or_eq_none_iff] at ha
    exact (root_of_lookup ha.1).1
  show ValueKey.of (b.graph.kind e.2) (b.graph.blockOf e.2) (b.graph.operands e.2) = e.1
  rw [hk, hblock, hops, map_congr_left hr, map_id', ← hof]

/-- **The answer to a new node has its operands**, perhaps in another order where
that does not matter, if none of them was retired. -/
theorem Shaped.operands_answer (h : b.Shaped) (kind : Kind) (block : NodeId)
    (hops : ∀ a ∈ operands, b.Stands a) :
    ValueKey.of kind block
        ((b.add kind block operands).2.graph.operands (b.add kind block operands).1) =
      .of kind block operands := by
  obtain ⟨hadds, hanswer⟩ := b.add_spec kind block operands
  generalize b.add kind block operands = r at hadds hanswer
  obtain ⟨n, d⟩ := r
  cases hanswer with
  | unshared hn | first _ hn => exact congrArg _ hn
  | again _ hm _ _ =>
    obtain ⟨hlt, hk, hblock⟩ := h.table _ hm
    have hkey : ValueKey.of (b.graph.kind n) (b.graph.blockOf n) (b.graph.operands n) = _ :=
      h.valueKey_of_stands hm fun a ha =>
        hops a ((ValueKey.perm_operands_of kind block operands).mem_iff.1 ha)
    rw [hk, hblock] at hkey
    exact (congrArg _ (hadds.operands n hlt.ne)).trans hkey

theorem evolves_undefined (hold : old ≤ b.graph.size) : Evolves old b b.undefined.2 :=
  evolves_of_adds (b.add_spec _ _ _).1 hold (.inr rfl) fun _ =>
    (b.add_spec _ _ _).2.operands_new.elim id id

theorem Shaped.undefined (h : b.Shaped) : b.undefined.2.Shaped :=
  h.lift_add (forall_mem_nil _) rfl h.entry rfl

theorem evolves_write (slot : Slot) (block value : NodeId) :
    Evolves old b (b.write slot block value) :=
  { Evolves.refl old b with defs := suffix_cons _ _ }

theorem Shaped.write (h : b.Shaped) (slot : Slot) (block : NodeId) (hv : value < b.graph.size) :
    (b.write slot block value).Shaped :=
  { h with
    defined := fun e he => by
      rcases mem_cons.1 he with rfl | he
      · exact hv
      · exact h.defined e he }

/-! ## One more operand of a merge -/

theorem evolves_push (value : NodeId) (hphi : (b.graph.kind phi).isPhi) (hold : old ≤ phi) :
    Evolves old b (b.withGraph (b.graph.pushOperand phi value)) := by
  have hs := sameNodes_pushOperand b.graph phi value
  have hops := fun m => operands_pushOperand b.graph (lt_of_isPhi hphi) value m
  refine
    { Evolves.refl old b with
      name := hs.name, roles := hs.roles, size_le := hs.size.symm.le,
      kind := fun n _ => hs.kind n, fresh := fun n hn => ?_, bare := fun n hn _ => ?_,
      blockOf := fun n _ => hs.blockOf n, operands := fun n hn => ?_,
      jumps := fun n hn => ?_, resolved := ⟨[], rfl, fun n _ hk => ?_⟩ }
  · exact .inr ((hs.kind n).trans (kind_of_size_le _ hn))
  · exact operands_of_size_le _ (hs.size.le.trans hn)
  · exact (hops n).trans (if_neg (hn.trans_le hold).ne)
  · refine (hops n).trans (if_neg fun he => ?_)
    rw [he, isBlock_eq_false_of_isPhi hphi] at hn
    cases hn
  · refine ((hops n).trans (if_neg fun he => ?_)).trans (map_id _).symm
    rw [he, hphi] at hk
    cases hk

/-- A node that is not shared gets one more operand: a block a jump, a merge a value that
stands. -/
theorem Shaped.pushOperand (h : b.Shaped) (hlt : n < b.graph.size) (hv : value < b.graph.size)
    (hnot : (b.graph.kind n).isShareable = false) (hstands : b.Stands n)
    (hwaiting : ∀ q ∈ b.placeholders, q.phi ≠ n)
    (hj : (b.graph.kind n).isBlock → (b.graph.kind value).isTerminator)
    (hmerge : (b.graph.kind n).isPhi → b.Stands value) :
    (b.withGraph (b.graph.pushOperand n value)).Shaped := by
  have hsame := sameNodes_pushOperand b.graph n value
  have hk : ∀ m, (b.withGraph (b.graph.pushOperand n value)).graph.kind m =
      b.graph.kind m := hsame.kind
  have hb : ∀ m, (b.withGraph (b.graph.pushOperand n value)).graph.blockOf m =
      b.graph.blockOf m := hsame.blockOf
  have hs : (b.withGraph (b.graph.pushOperand n value)).graph.size = b.graph.size :=
    hsame.size
  have hops : ∀ m, (b.withGraph (b.graph.pushOperand n value)).graph.operands m = _ :=
    operands_pushOperand b.graph hlt value
  refine
    { coherent := h.coherent.pushOperand hlt hv, entry := by rw [hk]; exact h.entry,
      home := fun m hm => ?_, jumps := fun m hm a ha => ?_, forwards := h.forwards,
      retired := fun e he => ?_, merges := fun m hm a ha => ?_,
      defined := fun e he => by rw [hs]; exact h.defined e he,
      table := fun e he => ?_, shared := fun e he => ?_, waiting := fun q hq => ?_,
      distinct := h.distinct }
  · rw [hk, hb]
    exact h.home m (hs ▸ hm)
  · rw [hk] at hm ⊢
    rw [hops] at ha
    split at ha
    · rename_i he
      rw [he] at hm
      rcases mem_append.1 ha with ha | ha
      · exact h.jumps n hm a (he ▸ ha)
      · exact mem_singleton.1 ha ▸ hj hm
    · exact h.jumps m hm a ha
  · rw [hk, hs, hops, if_neg (stands_iff.1 hstands e he)]
    exact h.retired e he
  · rw [hk] at hm
    rw [hops] at ha
    split at ha
    · rename_i he
      rw [he] at hm
      rcases mem_append.1 ha with ha | ha
      · exact h.merges n hm a (he ▸ ha)
      · exact mem_singleton.1 ha ▸ hmerge hm
    · exact h.merges m hm a ha
  · rw [hk, hb, hs]
    exact h.table e he
  · rw [hops, if_neg fun heq => ?_]
    · exact h.shared e he
    · rw [← heq, (h.table e he).2.1, (h.shared e he).1] at hnot
      cases hnot
  · rw [hk, hb, hs, hops, if_neg (hwaiting q hq)]
    exact h.waiting q hq

/-! ## Retiring a merge -/

/-- What retiring does to the operands: the merge loses its own, and
everywhere else its value takes its place. -/
theorem operands_retire (h : b.Shaped) (phi value m : NodeId) :
    (b.retire phi value).graph.operands m = if m = phi then []
      else (b.graph.operands m).map fun a => if a = phi then value else a := by
  refine (operands_detach _ phi m).trans ?_
  rw [h.coherent.operands_replaceUses]

theorem sameNodes_retire (b : Builder) (phi value : NodeId) :
    b.graph.SameNodes (b.retire phi value).graph :=
  (sameNodes_replaceUses b.graph phi value).trans (sameNodes_detach _ phi)

theorem forwarded_retire (hstands : b.Stands phi) (value : NodeId) :
    (b.retire phi value).forwarded = (phi, value) :: b.forwarded := by
  show (phi, value) :: b.forwarded.filter (·.1 ≠ phi) = _
  rw [filter_eq_self.2 fun e he => decide_eq_true (stands_iff.1 hstands e he)]

theorem Shaped.not_mem_jumps (h : b.Shaped) (hphi : (b.graph.kind phi).isPhi)
    (hn : (b.graph.kind n).isBlock) :
    phi ∉ b.graph.operands n := by
  intro hmem
  have ht := h.jumps n hn phi hmem
  rw [isTerminator_eq_false_of_isPhi hphi] at ht
  cases ht

theorem map_replace_of_not_mem {l : List NodeId} (h : phi ∉ l) :
    l.map (fun a => if a = phi then value else a) = l :=
  (map_congr_left fun a ha => if_neg fun (he : a = phi) => h (he ▸ ha)).trans
    (map_id l)

theorem evolves_retire (h : b.Shaped) (value : NodeId) (hphi : (b.graph.kind phi).isPhi)
    (hstands : b.Stands phi) (ho : old ≤ phi)
    (hc : ∀ n < old, ∀ a ∈ b.graph.operands n, a < old) :
    Evolves old b (b.retire phi value) := by
  have hs := sameNodes_retire b phi value
  have hops := operands_retire h phi value
  refine
    { Evolves.refl old b with
      name := hs.name, roles := hs.roles, size_le := hs.size.symm.le,
      kind := fun n _ => hs.kind n, fresh := fun n hn => ?_, bare := fun n hn _ => ?_,
      blockOf := fun n _ => hs.blockOf n, operands := fun n hn => ?_,
      jumps := fun n hn => ?_, stands := fun n hn => ?_,
      resolved := ⟨[(phi, value)], forwarded_retire hstands value, fun n _ hk => ?_⟩ }
  · exact .inr ((hs.kind n).trans (kind_of_size_le _ hn))
  · exact operands_of_size_le _ (hs.size.le.trans hn)
  · refine ((hops n).trans (if_neg (hn.trans_le ho).ne)).trans ?_
    exact map_replace_of_not_mem fun hmem => Nat.not_lt.2 ho (hc n hn phi hmem)
  · refine ((hops n).trans (if_neg fun he => ?_)).trans
      (map_replace_of_not_mem (h.not_mem_jumps hphi hn))
    rw [he, isBlock_eq_false_of_isPhi hphi] at hn
    cases hn
  · unfold Stands
    rw [forwarded_retire hstands, lookup_cons_eq_none]
    exact and_iff_right (hn.trans_le ho).ne
  · refine (hops n).trans (if_neg fun he => ?_)
    rw [he, hphi] at hk
    cases hk

theorem Shaped.retire (h : b.Shaped) (hphi : (b.graph.kind phi).isPhi) (hstands : b.Stands phi)
    (hwaiting : ∀ q ∈ b.placeholders, q.phi ≠ phi) (hne : phi ≠ value)
    (hvalue : value < b.graph.size) (hvalueStands : b.Stands value) :
    (b.retire phi value).Shaped := by
  have hsame := sameNodes_retire b phi value
  have hops := operands_retire h phi value
  have hf := forwarded_retire hstands value
  have hlt := lt_of_isPhi hphi
  -- A node stands afterwards if it stood before and is not the merge.
  have hstill : ∀ {n}, b.Stands n → n ≠ phi → (b.retire phi value).Stands n := fun hn hne' => by
    unfold Stands
    rw [hf, lookup_cons_eq_none]
    exact ⟨hne', hn⟩
  refine
    { coherent := (h.coherent.replaceUses hlt hvalue).detach _,
      entry := by rw [hsame.kind]; exact h.entry,
      home := fun n hn => ?_, jumps := fun n hn a ha => ?_,
      forwards := hf ▸ .cons h.forwards hstands hvalueStands hne,
      retired := fun e he => ?_, merges := fun n hn a ha => ?_,
      defined := fun e he => by rw [hsame.size]; exact h.defined e he,
      table := fun e he => ?_, shared := fun e he => ?_, waiting := fun q hq => ?_,
      distinct := h.distinct }
  · rw [hsame.kind, hsame.blockOf]
    exact h.home n (hsame.size ▸ hn)
  · rw [hsame.kind] at hn ⊢
    rw [hops] at ha
    split at ha
    · cases ha
    · rw [map_replace_of_not_mem (h.not_mem_jumps hphi hn)] at ha
      exact h.jumps n hn a ha
  · rw [hsame.kind, hsame.size, hops]
    rcases mem_cons.1 (hf ▸ he) with rfl | he
    · exact ⟨hphi, if_pos rfl, hvalue⟩
    · obtain ⟨hk, hnil, hv⟩ := h.retired e he
      rw [if_neg (stands_iff.1 hstands e he), hnil]
      exact ⟨hk, rfl, hv⟩
  · rw [hsame.kind] at hn
    rw [hops] at ha
    split at ha
    · cases ha
    · obtain ⟨a', ha', rfl⟩ := mem_map.1 ha
      split
      · exact hstill hvalueStands (Ne.symm hne)
      · exact hstill (h.merges n hn a' ha') ‹_›
  · rw [hsame.kind, hsame.blockOf, hsame.size]
    exact h.table e he
  · obtain ⟨hshareable, operands, new, hkey, hnew, hold⟩ := h.shared e he
    refine ⟨hshareable, operands, (phi, value) :: new, hkey, ?_, ?_⟩
    · rw [hf]
      exact (prefix_cons_inj _).2 hnew
    · rw [hops, if_neg fun heq => ?_, hold, map_map]
      · rfl
      · rw [← (h.table e he).2.1, heq] at hshareable
        cases (isPhi_eq_false_of_isShareable hshareable).symm.trans hphi
  · obtain ⟨hq', hk, hb, hnil, hs⟩ := h.waiting q hq
    have hq'' := hwaiting q hq
    rw [hsame.kind, hsame.blockOf, hsame.size, hops, if_neg hq'', hnil]
    exact ⟨hq', hk, hb, rfl, hstill hs hq''⟩

/-! ## Merges stay marked -/

theorem slotOf_of_suffix (hs : b.defs <:+ c.defs) (h : b.slotOf n = some slot) :
    c.slotOf n = some slot := by
  obtain ⟨new, hnew⟩ := hs
  obtain ⟨e, he, rfl⟩ := Option.map_eq_some_iff.1 h
  unfold slotOf
  rw [← hnew, reverse_append, find?_append, he]
  rfl

theorem firstDef_of_suffix (hs : b.defs <:+ c.defs) (h : b.firstDef slot block = some n) :
    c.firstDef slot block = some n := by
  obtain ⟨new, hnew⟩ := hs
  obtain ⟨e, he, rfl⟩ := Option.map_eq_some_iff.1 h
  unfold firstDef
  rw [← hnew, reverse_append, find?_append, he]
  rfl

theorem Marked.of_evolves (h : Marked b) (hev : Evolves 0 b c)
    (hnew : ∀ n, b.graph.size ≤ n → (c.graph.kind n).isPhi = false) : Marked c := by
  intro n hn
  have hlt : n < b.graph.size := by
    by_contra hle
    rw [hnew n (not_lt.1 hle)] at hn
    cases hn
  rw [hev.kind n hlt] at hn ⊢
  rw [hev.blockOf n hlt]
  obtain ⟨slot, hk, hs, hf⟩ := h n hn
  exact ⟨slot, hk, slotOf_of_suffix hev.defs hs, firstDef_of_suffix hev.defs hf⟩

theorem Marked.of_size_eq (h : Marked b) (hev : Evolves 0 b c)
    (hs : c.graph.size = b.graph.size) : Marked c :=
  h.of_evolves hev fun n hn => by
    rw [kind_of_size_le _ (hs.le.trans hn)]
    rfl

theorem WellFormed.undefined (h : b.WellFormed) : b.undefined.2.WellFormed := by
  have ha := (b.add_spec .undefined startBlock []).1
  refine ⟨h.toShaped.undefined, h.marked.of_evolves (evolves_undefined (Nat.zero_le _))
    fun n hn => ?_, h.slots⟩
  exact (kind_of_appends ha.appends hn).elim (congrArg isPhi) (congrArg isPhi)

theorem WellFormed.write (h : b.WellFormed) (slot : Slot) (block : NodeId)
    (hv : value < b.graph.size) : (b.write slot block value).WellFormed :=
  ⟨h.toShaped.write slot block hv, h.marked.of_size_eq (evolves_write slot block value) rfl,
    fun q hq => slotOf_of_suffix (suffix_cons _ _) (h.slots q hq)⟩

section

variable (h : b.WellFormed) (hphi : (b.graph.kind phi).isPhi) (hstands : b.Stands phi)
  (hwaiting : ∀ q ∈ b.placeholders, q.phi ≠ phi)

include h hphi hstands hwaiting

theorem WellFormed.push (hvalue : value < b.graph.size) (hv : b.Stands value) :
    (b.withGraph (b.graph.pushOperand phi value)).WellFormed :=
  ⟨h.toShaped.pushOperand (lt_of_isPhi hphi) hvalue
      (Bool.eq_false_iff.2 fun hs => Bool.eq_false_iff.1 (isPhi_eq_false_of_isShareable hs) hphi)
      hstands hwaiting (fun hb => absurd hb (Bool.eq_false_iff.1 (isBlock_eq_false_of_isPhi hphi)))
      fun _ => hv,
    h.marked.of_size_eq (evolves_push value hphi (Nat.zero_le _))
      (sameNodes_pushOperand b.graph phi value).size, h.slots⟩

theorem WellFormed.retire (hne : phi ≠ value) (hvalue : value < b.graph.size)
    (hv : b.Stands value) : (b.retire phi value).WellFormed :=
  ⟨h.toShaped.retire hphi hstands hwaiting hne hvalue hv, h.marked.of_size_eq
      (evolves_retire h.toShaped value hphi hstands (Nat.zero_le _)
        fun n hn => absurd hn (Nat.not_lt_zero n))
      (sameNodes_retire b phi value).size, h.slots⟩

end

/-! ## Chains of retirements -/

theorem mem_merged {a : NodeId} : a ∈ b.merged phi ↔ a ∈ b.graph.operands phi ∧ a ≠ phi := by
  unfold merged
  rw [mem_eraseDups, mem_filter, decide_eq_true_iff]

/-- **One merge is retired** because it merges a single value, or none at
all. A merge without operands may be retired only if it is `first`. -/
inductive Retires (old : Nat) (first : NodeId) (b : Builder) : Builder → Prop
  | single {phi value : NodeId} (hphi : (b.graph.kind phi).isPhi = true)
      (hstands : b.Stands phi) (hold : old ≤ phi)
      (hops : b.graph.operands phi ≠ [] ∨ phi = first) (hmerged : b.merged phi = [value]) :
      Retires old first b (b.retire phi value)
  | none {phi : NodeId} (hphi : (b.graph.kind phi).isPhi = true)
      (hstands : b.Stands phi) (hold : old ≤ phi)
      (hops : b.graph.operands phi ≠ [] ∨ phi = first) (hmerged : b.merged phi = []) :
      Retires old first b (b.undefined.2.retire phi b.undefined.1)

/-- **A merge that may be retired**: it stands, it is one of the later nodes, and it has
operands unless it is `first`. -/
structure Retirable (old : Nat) (first : NodeId) (b : Builder) (phi : NodeId) : Prop where
  isPhi : (b.graph.kind phi).isPhi = true
  stands : b.Stands phi
  old_le : old ≤ phi
  full : b.graph.operands phi ≠ [] ∨ phi = first

/-- **What a trivial merge is replaced by**: the only node that it merges, or an undefined
value, which is made first. -/
inductive Replaces (b : Builder) (phi : NodeId) : Builder → NodeId → Prop
  | single {value : NodeId} (hmerged : b.merged phi = [value]) : Replaces b phi b value
  | none (hmerged : b.merged phi = []) : Replaces b phi b.undefined.2 b.undefined.1

/-- What has to hold for merges from `old` on to be retired. -/
structure Ready (old : Nat) (first : NodeId) (b : Builder) : Prop where
  wf : b.WellFormed
  old_le : old ≤ b.graph.size
  closed : ∀ n < old, ∀ a ∈ b.graph.operands n, a < old
  waiting : ∀ q ∈ b.placeholders, q.phi ≠ first

/-- **What a retirement keeps**: definitions and placeholders, merges without
operands, and the number of operands of merges that are not retired. It
makes no merges. -/
structure Thins (first : NodeId) (b c : Builder) : Prop where
  defs : c.defs = b.defs
  placeholders : c.placeholders = b.placeholders
  size_le : b.graph.size ≤ c.graph.size
  merge_lt : ∀ n, (c.graph.kind n).isPhi = true → n < b.graph.size
  stands : ∀ n, c.Stands n → b.Stands n
  bare : ∀ n ≠ first, n < b.graph.size → b.graph.operands n = [] →
    c.graph.operands n = [] ∧ (b.Stands n → c.Stands n)
  length : ∀ n < b.graph.size, c.Stands n →
    (c.graph.operands n).length = (b.graph.operands n).length

theorem Thins.refl (first : NodeId) (b : Builder) : Thins first b b :=
  ⟨rfl, rfl, le_rfl, fun _ => lt_of_isPhi, fun _ h => h, fun _ _ _ h => ⟨h, id⟩, fun _ _ _ => rfl⟩

theorem Thins.full (h : Thins first b c) (hn : b.graph.operands n ≠ []) (hs : c.Stands n) :
    c.graph.operands n ≠ [] := by
  obtain ⟨a, ha⟩ := exists_mem_of_ne_nil _ hn
  intro hnil
  have hl := h.length n (lt_of_mem_operands ha) hs
  rw [hnil] at hl
  exact hn (length_eq_zero_iff.1 hl.symm)

theorem Thins.trans (h : Thins first b c) (h' : Thins first c d)
    (hk : ∀ n < c.graph.size, d.graph.kind n = c.graph.kind n) : Thins first b d := by
  refine ⟨h'.defs.trans h.defs, h'.placeholders.trans h.placeholders, h.size_le.trans h'.size_le,
    fun n hn => h.merge_lt n (hk n (h'.merge_lt n hn) ▸ hn),
    fun n hn => h.stands n (h'.stands n hn), fun n hne hlt hnil => ?_, fun n hlt hn => ?_⟩
  · obtain ⟨hc, hs⟩ := h.bare n hne hlt hnil
    obtain ⟨hd, hs'⟩ := h'.bare n hne (hlt.trans_le h.size_le) hc
    exact ⟨hd, fun hn => hs' (hs hn)⟩
  · exact (h'.length n (hlt.trans_le h.size_le) hn).trans
      (h.length n hlt (h'.stands n hn))

section Chain

variable {first phi value : NodeId}

theorem Ready.undefined (h : Ready old first b) :
    Ready old first b.undefined.2 ∧ Evolves old b b.undefined.2 ∧
      Thins first b b.undefined.2 := by
  obtain ⟨hwf, ho, hc, hwaiting⟩ := h
  have hadds := (b.add_spec .undefined Graph.startBlock []).1
  have hev := evolves_undefined ho
  refine ⟨⟨hwf.undefined, ho.trans hev.size_le, fun n hn a ha => ?_, hwaiting⟩, hev,
    ⟨rfl, rfl, hev.size_le, fun n hn => ?_, fun _ hn => hn, fun n _ hlt hnil => ⟨?_, id⟩,
      fun n hlt _ => ?_⟩⟩
  · exact hc n hn a (hev.operands n hn ▸ ha)
  · exact lt_of_isPhi (hadds.appends.of_isPhi rfl hn).2.1
  · exact (hadds.operands n hlt.ne).trans hnil
  · exact congrArg List.length (hadds.operands n hlt.ne)

theorem Ready.retire (h : Ready old first b) (hr : Retirable old first b phi)
    (hne : phi ≠ value) (hvalue : value < b.graph.size) (hv : b.Stands value) :
    Ready old first (b.retire phi value) ∧ Evolves old b (b.retire phi value) ∧
      Thins first b (b.retire phi value) := by
  obtain ⟨hwf, hle, hc, hwaiting⟩ := h
  obtain ⟨hphi, hstands, hold, hops⟩ := hr
  have hev := evolves_retire hwf.toShaped value hphi hstands hold hc
  have ho := operands_retire hwf.toShaped phi value
  have hs := (sameNodes_retire b phi value).size
  have hf := forwarded_retire hstands value
  -- A waiting merge has no operands, so it is not this one.
  have hnot : ∀ q ∈ b.placeholders, q.phi ≠ phi := fun q hq he => by
    rcases hops with hops | hfirst
    · exact hops (he ▸ (hwf.waiting q hq).2.2.2.1)
    · exact hwaiting q hq (he.trans hfirst)
  refine ⟨⟨hwf.retire hphi hstands hnot hne hvalue hv, hs.symm ▸ hle,
    fun n hn a ha => hc n hn a (hev.operands n hn ▸ ha), hwaiting⟩, hev,
    ⟨rfl, rfl, hs.symm.le, fun n hn => hs ▸ lt_of_isPhi hn,
      fun n hn => ?_, fun n hfirst hlt hnil => ?_, fun n _ hn => ?_⟩⟩
  · unfold Stands at hn
    rw [hf, lookup_cons_eq_none] at hn
    exact hn.2
  · rw [ho, hnil]
    refine ⟨ite_self _, fun hn => ?_⟩
    unfold Stands
    rw [hf, lookup_cons_eq_none]
    refine ⟨fun he => ?_, hn⟩
    rcases hops with hops | hphi
    · exact hops (he ▸ hnil)
    · exact hfirst (he.trans hphi)
  · unfold Stands at hn
    rw [hf, lookup_cons_eq_none] at hn
    rw [ho, if_neg hn.1, length_map]

theorem Replaces.spec (h : Replaces b phi d value) (hr : Ready old first b)
    (hphi : Retirable old first b phi) :
    (Ready old first d ∧ Evolves old b d ∧ Thins first b d) ∧ Retirable old first d phi ∧
      phi ≠ value ∧ value < d.graph.size ∧ d.Stands value := by
  have hwf := hr.wf
  cases h with
  | single hm =>
    obtain ⟨hmem, hne⟩ := mem_merged.1 (hm ▸ mem_singleton_self value)
    exact ⟨⟨hr, .refl old b, .refl first b⟩, hphi, Ne.symm hne, hwf.coherent.closed _ _ hmem,
      hwf.merges phi hphi.isPhi value hmem⟩
  | none =>
    obtain ⟨hr', hev, ht⟩ := hr.undefined
    have hphi' : (b.undefined.2.graph.kind phi).isPhi = true := by
      rw [hev.kind phi (lt_of_isPhi hphi.isPhi), hphi.isPhi]
    obtain ⟨hv, hk, -⟩ := hwf.answer .undefined startBlock []
    have hk : b.undefined.2.graph.kind b.undefined.1 = .undefined := hk
    refine ⟨⟨hr', hev, ht⟩, ⟨hphi', hphi.stands, hphi.old_le,
      hphi.full.imp_left fun hf => ht.full hf hphi.stands⟩, fun he => ?_, hv,
      hr'.wf.stands_of_isPhi_eq_false (by rw [hk]; rfl)⟩
    rw [he, hk] at hphi'
    cases hphi'

theorem Replaces.retire (h : Replaces b phi d value) (hr : Ready old first b)
    (hphi : Retirable old first b phi) :
    Ready old first (d.retire phi value) ∧ Evolves old d (d.retire phi value) ∧
      Thins first d (d.retire phi value) :=
  have ⟨⟨hr', _⟩, hphi', hne, hv, hstands⟩ := h.spec hr hphi
  hr'.retire hphi' hne hv hstands

theorem Replaces.retires (h : Replaces b phi d value) (hphi : Retirable old first b phi) :
    Retires old first b (d.retire phi value) := by
  obtain ⟨hphi, hstands, ho, hops⟩ := hphi
  cases h with
  | single hm => exact .single hphi hstands ho hops hm
  | none hm => exact .none hphi hstands ho hops hm

theorem Retires.exists_replaces (h : Retires old first b c) : ∃ phi d value,
    Retirable old first b phi ∧ Replaces b phi d value ∧ c = d.retire phi value := by
  cases h with
  | single hphi hstands ho hops hm =>
    exact ⟨_, _, _, ⟨hphi, hstands, ho, hops⟩, .single hm, rfl⟩
  | none hphi hstands ho hops hm =>
    exact ⟨_, _, _, ⟨hphi, hstands, ho, hops⟩, .none hm, rfl⟩

theorem Retires.spec (h : Retires old first b c) (hready : Ready old first b) :
    Ready old first c ∧ Evolves old b c ∧ Thins first b c := by
  obtain ⟨phi, d, value, hphi, hr, rfl⟩ := h.exists_replaces
  obtain ⟨⟨-, hev, ht⟩, -⟩ := hr.spec hready hphi
  obtain ⟨hready', hev', ht'⟩ := hr.retire hready hphi
  exact ⟨hready', hev.trans hev', ht.trans ht' hev'.kind⟩

theorem chain_spec (h : Relation.ReflTransGen (Retires old first) b c)
    (hr : Ready old first b) : Ready old first c ∧ Evolves old b c ∧ Thins first b c := by
  induction h with
  | refl => exact ⟨hr, .refl old b, .refl first b⟩
  | tail _ hs ih =>
    obtain ⟨hr', hev, ht⟩ := ih
    obtain ⟨hready'', hev', ht'⟩ := hs.spec hr'
    exact ⟨hready'', hev.trans hev', ht.trans ht' hev'.kind⟩

/-- A user of a merge from `old` on is itself one of the later nodes. -/
theorem Ready.users (h : Ready old first b) {u : NodeId} (hold : old ≤ phi)
    (hu : u ∈ (b.graph.users phi).filter (· ≠ phi)) :
    old ≤ u ∧ phi ∈ b.graph.operands u := by
  have hm := h.wf.coherent.mem_users.1 (mem_filter.1 hu).1
  refine ⟨not_lt.1 fun hlt => ?_, hm⟩
  exact Nat.not_lt.2 hold (h.closed u hlt phi hm)

/-- The merges that used a retired one may be looked at again. -/
theorem Ready.users_retire (h : Ready old first b) (hold : old ≤ phi)
    (ht : Thins first b (b.retire phi value)) :
    ∀ u ∈ (b.graph.users phi).filter (· ≠ phi), old ≤ u ∧
      ((b.retire phi value).Stands u → (b.retire phi value).graph.operands u ≠ []) := by
  intro u hu
  obtain ⟨hle, hmem⟩ := h.users hold hu
  exact ⟨hle, ht.full (ne_nil_of_mem hmem)⟩

theorem resolve_of_stands (h : b.WellFormed) (hn : b.Stands n) : b.resolve n = n :=
  (resolve_eq_root h.forwards n).trans (root_of_lookup hn).1

/-- **Induction along simplifying.** A merge stays, or it is replaced and its users are
looked at, each in the state that the one before it leaves. -/
theorem simplify_induction {P : Nat → Builder → NodeId → NodeId × Builder → Prop}
    {Q : Nat → List NodeId → Builder → Builder → Prop}
    (stay : ∀ {bound b phi}, Ready old first b → Retirable old first b phi →
      (0 < bound → 2 ≤ (b.merged phi).length) → P bound b phi (phi, b))
    (replace : ∀ {bound b d phi value c}, Ready old first b → Retirable old first b phi →
      Replaces b phi d value → Relation.ReflTransGen (Retires old first) (d.retire phi value) c →
      Q bound ((d.graph.users phi).filter (· ≠ phi)) (d.retire phi value) c →
      P (bound + 1) b phi (c.resolve value, c)) (nil : ∀ {bound b}, Q bound [] b b)
    (skip : ∀ {bound user users b c}, ¬ ((b.graph.kind user).isPhi ∧ b.Stands user) →
      Q bound users b c → Q bound (user :: users) b c)
    (visit : ∀ {bound user users b c}, Ready old first b → Retirable old first b user →
      Relation.ReflTransGen (Retires old first) b (b.simplify bound user).2 →
      P bound b user (b.simplify bound user) → Q bound users (b.simplify bound user).2 c →
      Q bound (user :: users) b c) (bound : Nat) (hr : Ready old first b)
    (hphi : Retirable old first b phi) :
    Relation.ReflTransGen (Retires old first) b (b.simplify bound phi).2 ∧
      P bound b phi (b.simplify bound phi) := by
  induction bound generalizing b phi with
  | zero => exact ⟨.refl, stay hr hphi fun h => absurd h (Nat.lt_irrefl 0)⟩
  | succ bound ih =>
    have husers : ∀ (users : List NodeId) {b : Builder}, Ready old first b →
        (∀ u ∈ users, old ≤ u ∧ (b.Stands u → b.graph.operands u ≠ [])) →
        let c := users.foldl (fun b user =>
          if (b.graph.kind user).isPhi && (b.forwarded.lookup user).isNone then
            (b.simplify bound user).2
          else b) b
        Relation.ReflTransGen (Retires old first) b c ∧ Q bound users b c := by
      intro users b hr husers
      induction users generalizing b with
      | nil => exact ⟨.refl, nil⟩
      | cons user users ihUsers =>
        obtain ⟨hold, hf⟩ := husers user (.head _)
        have hrest := fun u hu => husers u (.tail _ hu)
        rw [foldl_cons]
        split <;> rename_i hcond <;>
          rw [Bool.and_eq_true, Option.isNone_iff_eq_none] at hcond
        · have huser : Retirable old first b user := ⟨hcond.1, hcond.2, hold, .inl (hf hcond.2)⟩
          obtain ⟨hc, hp⟩ := ih hr huser
          obtain ⟨hr', -, ht⟩ := chain_spec hc hr
          obtain ⟨hc', hq⟩ := ihUsers hr' fun u hu => ⟨(hrest u hu).1, fun hn =>
            ht.full ((hrest u hu).2 (ht.stands u hn)) hn⟩
          exact ⟨hc.trans hc', visit hr huser hc hp hq⟩
        · obtain ⟨hc, hq⟩ := ihUsers hr hrest
          exact ⟨hc, skip hcond hq⟩
    have hreplace : ∀ {d value}, Replaces b phi d value →
        let c := ((d.graph.users phi).filter (· ≠ phi)).foldl (fun b user =>
          if (b.graph.kind user).isPhi && (b.forwarded.lookup user).isNone then
            (b.simplify bound user).2
          else b) (d.retire phi value)
        Relation.ReflTransGen (Retires old first) b c ∧ P (bound + 1) b phi (c.resolve value, c) := by
      intro d value hreplaces
      obtain ⟨⟨hr', -⟩, -⟩ := hreplaces.spec hr hphi
      obtain ⟨hready'', -, ht⟩ := hreplaces.retire hr hphi
      obtain ⟨hc, hq⟩ := husers _ hready'' (hr'.users_retire hphi.old_le ht)
      exact ⟨.head (hreplaces.retires hphi) hc, replace hr hphi hreplaces hc hq⟩
    unfold simplify
    split
    · rename_i hmany
      exact ⟨.refl, stay hr hphi fun _ => by rw [hmany]; simp⟩
    · rename_i operands hmany
      cases hm : b.merged phi with
      | nil => exact hreplace (.none hm)
      | cons value rest =>
        cases rest with
        | cons => exact absurd hm (hmany _ _ _)
        | nil => exact hreplace (.single hm)

/-- **Simplifying is a chain of retirements**, and its answer is what stands
for the merge afterwards. A merge of one value or none is retired. -/
theorem simplify_chain (bound : Nat) (hr : Ready old first b)
    (hphi : Retirable old first b phi) :
    Relation.ReflTransGen (Retires old first) b (b.simplify bound phi).2 ∧
      (b.simplify bound phi).1 = (b.simplify bound phi).2.resolve phi ∧
      (0 < bound → (b.merged phi).length ≤ 1 → ¬ (b.simplify bound phi).2.Stands phi) := by
  refine simplify_induction
    (P := fun bound b phi r => r.1 = r.2.resolve phi ∧
      (0 < bound → (b.merged phi).length ≤ 1 → ¬ r.2.Stands phi))
    (Q := fun _ _ _ _ => True) (fun hr hphi hm => ?_)
    (fun {_ _ d phi value c} hr hphi hreplaces hc _ => ?_) trivial (fun _ _ => trivial)
    (fun _ _ _ _ _ => trivial) bound hr hphi
  · exact ⟨(resolve_of_stands hr.wf hphi.stands).symm,
      fun hb hle => absurd (hm hb) (Nat.not_le_of_lt (Nat.lt_succ_of_le hle))⟩
  · obtain ⟨-, hphi', -⟩ := hreplaces.spec hr hphi
    obtain ⟨hr', hev, -⟩ := chain_spec hc (hreplaces.retire hr hphi).1
    have hf := hr'.wf.forwards
    have hsuffix := forwarded_retire hphi'.stands value ▸ hev.forwarded
    rw [resolve_eq_root hf, resolve_eq_root hf]
    refine ⟨(root_eq_of_suffix hf hsuffix).symm, fun _ _ hs => ?_⟩
    exact stands_iff.1 hs _ (hsuffix.mem (.head _)) rfl

end Chain

end Builder

end SsaCompiler
