import SsaCompiler.Proofs.Builder.Termination

/-!
# What a read retires

A read may make merges, complete them and retire those that turn out trivial, in many
blocks. All of this is about nodes that the read has made itself: **no earlier node is
retired and no operand of an earlier node changes** (`Run.reads_retire_own_merges`).

So a caller may hold on to a node while it asks for others. Only when a block is sealed are
earlier merges looked at again; any other request leaves the nodes that stand standing
(`Spares`).
-/

namespace SsaCompiler.Builder

open List Graph

variable {b c d : Builder} {r : Request} {kind : Kind} {block : NodeId} {operands : List NodeId}

/-- **Earlier nodes are spared**: they stay what they are, none of them is retired, and all
but the blocks keep their operands. -/
structure Spares (b c : Builder) : Prop where
  size_le : b.graph.size ≤ c.graph.size
  kind : ∀ n < b.graph.size, c.graph.kind n = b.graph.kind n
  stands : ∀ n < b.graph.size, b.Stands n → c.Stands n
  operands : ∀ n < b.graph.size, (b.graph.kind n).isBlock = false →
    c.graph.operands n = b.graph.operands n

theorem Spares.trans (h : Spares b c) (h' : Spares c d) : Spares b d where
  size_le := h.size_le.trans h'.size_le
  kind := fun n hn => (h'.kind n (hn.trans_le h.size_le)).trans (h.kind n hn)
  stands := fun n hn hs => h'.stands n (hn.trans_le h.size_le) (h.stands n hn hs)
  operands := fun n hn hnot => by
    rw [h'.operands n (hn.trans_le h.size_le) (h.kind n hn ▸ hnot), h.operands n hn hnot]

theorem Evolves.spares (h : Evolves b.graph.size b c) : Spares b c where
  size_le := h.size_le
  kind := h.kind
  stands := fun n hn => (h.stands n hn).2
  operands := fun n hn _ => h.operands n hn

theorem spares_of_adds {d : Draft} (h : b.toDraft.Adds kind block d) :
    Spares b { b with toDraft := d } where
  size_le := Nat.le_of_lt (h.size ▸ Nat.lt_succ_self _)
  kind := fun n hn => (h.kind n).trans (if_neg hn.ne)
  stands := fun _ _ hs => hs
  operands := fun n hn _ => h.operands n hn.ne

theorem spares_place (b : Builder) (kind : Kind) (block : NodeId) (operands : List NodeId) :
    Spares b (b.place kind block operands).2 :=
  spares_of_adds (b.adds_addNode kind block operands)

theorem spares_write (b : Builder) (slot : Slot) (block value : NodeId) :
    Spares b (b.write slot block value) :=
  ⟨le_rfl, fun _ _ => rfl, fun _ _ hs => hs, fun _ _ _ => rfl⟩

theorem spares_trapping (b : Builder) (op : BinOp) (lhs rhs effect : NodeId) :
    Spares b (b.trapping op lhs rhs effect) :=
  (((spares_place _ _ _ _).trans (spares_place _ _ _ _)).trans (spares_write _ _ _ _)).trans
    (spares_place _ _ _ _)

/-- A jump changes the operands of the blocks it leads to only. -/
theorem spares_leave (htargets : ∀ target ∈ kind.exits, (b.graph.kind target).isBlock) :
    Spares b (b.leave kind block operands) where
  size_le := by rw [size_leave]; exact Nat.le_succ _
  kind := fun n hn => (b.kind_leave kind block operands n).trans (if_neg hn.ne)
  stands := fun _ _ hs => hs
  operands := fun n hn hnot => by
    rw [b.operands_leave block operands fun target ht => lt_of_isBlock (htargets target ht),
      if_neg hn.ne, count_eq_zero_of_not_mem fun ht => ?_]
    · exact append_nil _
    · exact absurd (hnot.symm.trans (htargets n ht)) nofun

/-- **A request that is answered without sealing a block.** -/
def Asks (b c : Builder) : Prop :=
  ∃ r n, r.Valid false b ∧ (∀ block, r ≠ .seals block) ∧ b.answer r = .ok (n, c)

/-- **Every request but that to seal a block spares earlier nodes.** -/
theorem Asks.spares (h : Asks b c) (ho : Ongoing false b) : Spares b c := by
  obtain ⟨r, answered, hv, hseals, ha⟩ := h
  have hr : ∀ {slot block value c}, (b.graph.kind block).isBlock = true →
      b.read slot block = .ok (value, c) → Spares b c := fun hb hc =>
    (tidy_read ho.wf hb hc).evolves.spares
  cases reply_of_answer ha with
  | newBlock role =>
    exact ⟨Nat.le_of_lt (by rw [show (b.newBlock role).2.graph.size = _ from
      size_newBlock b.graph role]; exact Nat.lt_succ_self _),
      fun n hn => kind_newBlock_of_ne b.graph role hn.ne, fun _ _ hs => hs,
      fun n _ _ => operands_newBlock b.graph role n⟩
  | enter => exact ⟨le_rfl, fun _ _ => rfl, fun _ _ hs => hs, fun _ _ _ => rfl⟩
  | make => exact spares_of_adds (b.add_spec _ _ _).1
  | trapping _ hc => exact (hr ho.current hc).trans (spares_trapping _ _ _ _ _)
  | leave hk =>
    obtain ⟨-, he, hblocks⟩ := Request.isTerminator_of_exit? hk
    exact spares_leave fun n hn => hv.blocks n (hblocks ▸ he ▸ hn)
  | ret hc =>
    have hspares := hr ho.current hc
    refine hspares.trans (spares_leave fun n hn => ?_)
    have hb := hv.blocks n hn
    rw [hspares.kind n (lt_of_isBlock hb), hb]
  | write => exact spares_write _ _ _ _
  | read hc => exact hr (hv.blocks _ (.head _)) hc
  | seals => exact absurd rfl (hseals _)

theorem spares_of_asks (h : Relation.ReflTransGen Asks b c) (ho : Ongoing false b) :
    Spares b c := by
  induction h using Relation.ReflTransGen.head_induction_on with
  | refl => exact (Evolves.refl _ _).spares
  | head hask _ ih =>
    have hs := hask.spares ho
    obtain ⟨r, n, hv, -, ha⟩ := hask
    exact hs.trans (ih ((moves_answer ho hv ha).ongoing ho))

/-- **A read retires only what it made.** Whatever was asked of a builder before, the merges
that a read of a variable or of the effect retires are merges made during that read, and no
operand of an earlier node changes. So a node that stands goes on standing, as the node that
it is, until a block is sealed. -/
theorem Run.reads_retire_own_merges {name : String} {sharing : Bool}
    (h : Run false (init name sharing) b) :
    (∀ slot block value c, (b.graph.kind block).isBlock = true →
      b.read slot block = .ok (value, c) →
      (∀ n, b.forwarded.lookup n = none → c.forwarded.lookup n ≠ none →
        b.graph.size ≤ n ∧ n < c.graph.size ∧ (c.graph.kind n).isPhi = true) ∧
      ∀ n < b.graph.size, c.graph.operands n = b.graph.operands n) ∧
    ∀ d, Relation.ReflTransGen Asks b d → ∀ n < b.graph.size, b.forwarded.lookup n = none →
      d.forwarded.lookup n = none ∧ d.graph.kind n = b.graph.kind n := by
  refine ⟨fun slot block value c hblock hread => ?_, fun d hasks n hn hs => ?_⟩
  · have hresult := tidy_read h.ongoing.wf hblock hread
    refine ⟨fun n hbefore hafter => ?_, hresult.evolves.operands⟩
    obtain ⟨m, hm⟩ := Option.ne_none_iff_exists'.1 hafter
    have hphi := (hresult.wf.retired _ (mem_of_lookup_eq_some hm)).1
    refine ⟨not_lt.1 fun hn => ?_, lt_of_isPhi hphi, hphi⟩
    exact hafter ((hresult.evolves.stands n hn).2 hbefore)
  · have hspares := spares_of_asks hasks h.ongoing
    exact ⟨hspares.stands n hn hs, hspares.kind n hn⟩

/-- Around two loops a read makes three merges and retires them all. The ten nodes there
were before are none of them. -/
theorem read_around_nestedLoops_spares : ∃ b c, Run false (init "f" true) b ∧
    b.graph.size = 10 ∧ b.read (.var "x") 6 = .ok (13, c) ∧
    c.forwarded = [(11, 13), (10, 11), (12, 13)] ∧
    ∀ n, b.forwarded.lookup n = none → c.forwarded.lookup n ≠ none → 10 ≤ n := by
  have hfacts : (nestedLoops.foldlM (ask? false) (init "f" true)).any fun b =>
      b.graph.size = 10 ∧ (b.graph.kind 6).isBlock = true ∧
        (b.read (.var "x") 6).toOption.map (fun r => (r.1, r.2.forwarded)) =
          some (13, [(11, 13), (10, 11), (12, 13)]) := by
    decide +kernel
  obtain ⟨b, hb, hfacts⟩ := (Option.any_eq_true _ _).1 hfacts
  obtain ⟨hsize, hblock, hresult⟩ := of_decide_eq_true hfacts
  obtain ⟨⟨value, c⟩, hread, he⟩ := Option.map_eq_some_iff.1 hresult
  obtain ⟨rfl, hforwarded⟩ := Prod.mk.inj he
  have hread := Except.toOption_eq_some.1 hread
  have hrun : Run false (init "f" true) b := Run.refl.of_foldlM hb
  refine ⟨b, c, hrun, hsize, hread, hforwarded, fun n hbefore hafter => hsize ▸ ?_⟩
  exact (((Run.reads_retire_own_merges hrun).1 _ _ _ _ hblock hread).1 n hbefore hafter).1

end SsaCompiler.Builder
