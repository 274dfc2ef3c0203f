import SsaCompiler.Proofs.Graph.Selection
import SsaCompiler.Proofs.Schedule.Dependencies

/-!
# Everything is placed once

A schedule is put together from a walk over the blocks, a walk over the
nodes and the copies that a block's merges ask of its predecessors. This
module says where each of these comes to stand, and that nothing is lost or
comes twice (`Schedule.Places`).

Blocks are laid out if the start block leads to them, and the layout goes
against the control flow **only where the control flow goes round in a
circle**. A node is placed in its own block. A copy is not: it belongs to a
merge of the block that the edge leads to, and stands in the block that the
edge comes from.

The graph may be any graph that refers to nodes of its own only. It need not
have been built by a translation.
-/

namespace SsaCompiler

open List Graph

variable {item : Item} {b : ScheduledBlock}

namespace Graph

variable {g : Graph} {block target n t : NodeId}

/-- **The end of a block** is the first terminator made for it. -/
structure EndsWith (g : Graph) (block t : NodeId) : Prop where
  isTerminator : (g.kind t).isTerminator = true
  blockOf : g.blockOf t = block
  least : ∀ n, (g.kind n).isTerminator = true → g.blockOf n = block → t ≤ n

theorem EndsWith.unique (h : g.EndsWith block t) (h' : g.EndsWith block n) : t = n :=
  (h.least n h'.isTerminator h'.blockOf).antisymm (h'.least t h.isTerminator h.blockOf)

/-- **Control goes from a block to the targets of its end.** -/
def GoesTo (g : Graph) (block target : NodeId) : Prop :=
  ∃ t, g.EndsWith block t ∧ target ∈ g.targets t

theorem terminator?_eq_some_iff : g.terminator? block = some t ↔ g.EndsWith block t := by
  rw [terminator?, ids, find?_range_eq_some]
  simp only [mem_range, Bool.and_eq_true, beq_iff_eq, Bool.not_eq_true', Bool.and_eq_false_imp,
    beq_eq_false_iff_ne]
  constructor
  · rintro ⟨⟨ht, hb⟩, -, least⟩
    exact ⟨ht, hb, fun n hn hn' => not_lt.1 fun hlt => least n hlt hn hn'⟩
  · rintro ⟨ht, hb, least⟩
    exact ⟨⟨ht, hb⟩, Builder.lt_of_isTerminator ht,
      fun n hlt hn hn' => Nat.not_le.2 hlt (least n hn hn')⟩

theorem mem_blockNext_iff : target ∈ g.blockNext block ↔ g.GoesTo block target := by
  unfold blockNext GoesTo
  cases h : g.terminator? block with
  | some t =>
    have ht := terminator?_eq_some_iff.1 h
    rw [mem_reverse]
    refine ⟨fun hm => ⟨t, ht, hm⟩, fun ⟨t', ht', hm⟩ => ?_⟩
    rwa [ht.unique ht']
  | none =>
    refine ⟨fun hm => absurd hm not_mem_nil, fun ⟨t, ht, _⟩ => ?_⟩
    rw [terminator?_eq_some_iff.2 ht] at h
    cases h

theorem reach_blockNext_iff :
    Walk.Reach g.blockNext block target ↔ Relation.ReflTransGen g.GoesTo block target := by
  rw [Walk.Reach, show (fun a b => b ∈ g.blockNext a) = g.GoesTo from
    funext fun _ => funext fun _ => propext mem_blockNext_iff]

/-- The blocks that the start block leads to are laid out, and no
others. -/
theorem Closed.mem_layout_iff (h : g.Closed) :
    block ∈ g.layout ↔ Relation.ReflTransGen g.GoesTo startBlock block := by
  rw [← reach_blockNext_iff]
  refine ⟨fun hm => ?_, h.mem_layout_of_reach⟩
  obtain ⟨r, hr, reach⟩ := Walk.reach_of_mem_postorder (mem_reverse.1 hm)
  rwa [mem_singleton.1 hr] at reach

/-- **A jump that does not go forward in the layout** goes to a block that
leads back. -/
theorem Closed.idxOf_lt_or_leads_back (h : g.Closed) (hb : block ∈ g.layout)
    (hgo : g.GoesTo block target) :
    g.layout.idxOf block < g.layout.idxOf target
      ∨ Relation.ReflTransGen g.GoesTo target block := by
  obtain ⟨before, after, split⟩ := append_of_mem (mem_reverse.1 hb)
  have roots : [startBlock] ⊆ g.ids := fun x hx => by
    rw [mem_singleton.1 hx]
    exact mem_range.2 h.entry
  rcases Walk.mem_before_of_mem_next g.ids (fun x _ => h.blockNext_subset x) roots
    length_range.le split (mem_blockNext_iff.2 hgo) with hm | back
  · have reversed : g.layout = after.reverse ++ block :: before.reverse := by
      rw [layout, split]
      simp
    exact .inl (idxOf_lt_idxOf_of_mem g.nodup_layout reversed (mem_reverse.2 hm))
  · exact .inr (reach_blockNext_iff.1 back)

end Graph

namespace Schedule

variable {g : Graph} {s : Schedule} {ends : List NodeId} {block target n t i : Nat}

/-- **Where a schedule places everything.** -/
structure Places (g : Graph) (s : Schedule) : Prop where
  /-- No block is laid out twice. -/
  nodup_blocks : (s.blocks.map (·.block)).Nodup
  /-- The start block is the first. -/
  first : (s.blocks.map (·.block)).head? = some Graph.startBlock
  /-- The blocks are those that the start block leads to. -/
  mem_blocks : ∀ block, block ∈ s.blocks.map (·.block)
    ↔ Relation.ReflTransGen g.GoesTo Graph.startBlock block
  /-- A jump goes forward, or to a block that leads back. -/
  forward : ∀ block ∈ s.blocks.map (·.block), ∀ target, g.GoesTo block target →
    (s.blocks.map (·.block)).idxOf block < (s.blocks.map (·.block)).idxOf target
      ∨ Relation.ReflTransGen g.GoesTo target block
  /-- What is scheduled is what the ends of the blocks lead to, as far as it
  belongs to these blocks. -/
  scheduled_iff : ∀ n, s.isScheduled n = true ↔ g.blockOf n ∈ s.blocks.map (·.block)
    ∧ ∃ block ∈ s.blocks.map (·.block), ∃ t, g.EndsWith block t ∧ Walk.Reach g.next t n
  /-- A block consists of ordinary nodes, then copies, then its end. -/
  shape : ∀ b ∈ s.blocks, ∃ (nodes : List NodeId) (copies : List Item) (t : NodeId),
    b.items = nodes.map Item.node ++ copies ++ [.node t] ∧ g.EndsWith b.block t
      ∧ (∀ n ∈ nodes, (g.kind n).isOrdinary = true)
      ∧ ∀ item ∈ copies, ∃ target edge, item = .phiMoves target edge
  /-- No item comes twice, in whatever blocks. -/
  nodup_items : s.items.Nodup
  /-- An ordinary node is an item of its own block if it is scheduled, and of
  no other. -/
  node_mem : ∀ b ∈ s.blocks, ∀ n, (g.kind n).isOrdinary = true →
    (Item.node n ∈ b.items ↔ s.isScheduled n = true ∧ g.blockOf n = b.block)
  /-- The copies along an edge are an item of the block that the edge comes
  from if the block it leads to is laid out and has a scheduled merge, and of no
  other. -/
  copies_mem : ∀ b ∈ s.blocks, ∀ target edge, Item.phiMoves target edge ∈ b.items
    ↔ target ∈ s.blocks.map (·.block)
      ∧ (∃ phi, s.isScheduled phi = true ∧ (g.kind phi).isValuePhi = true ∧ g.blockOf phi = target)
      ∧ g.predecessor? target edge = some b.block

/-! ## What is scheduled -/

theorem lt_size_of_reach (h : g.Closed) (hn : n < g.size) (reach : Walk.Reach g.next n t) :
    t < g.size := by
  induction reach with
  | refl => exact hn
  | tail _ step ih => exact mem_range.1 (h.next_subset ih step)

/-- **The scheduled nodes** are those that the ends of the laid-out blocks
lead to, without those of other blocks. -/
theorem Built.isScheduled_iff (hs : s.Built g ends) (h : g.Closed) :
    s.isScheduled n ↔ g.blockOf n ∈ g.layout
      ∧ ∃ block ∈ g.layout, ∃ t, g.EndsWith block t ∧ Walk.Reach g.next t n := by
  have roots : ends ⊆ g.ids := fun t ht => by
    obtain ⟨block, -, he⟩ := (mem_ends hs.terminators).1 ht
    exact mem_range.2
      (Builder.lt_of_isTerminator (terminator?_eq_some he).1)
  have reached : n ∈ g.postorder ends ↔ ∃ t ∈ ends, Walk.Reach g.next t n :=
    ⟨Walk.reach_of_mem_postorder, fun ⟨t, ht, reach⟩ =>
      Walk.mem_postorder_of_reach g.ids (fun x hx => h.next_subset (mem_range.1 hx)) roots
        length_range.le ht reach⟩
  rw [isScheduled, contains_iff_mem, hs.postorder_eq, mem_filter, reached,
    contains_iff_mem, and_comm]
  refine and_congr_right fun _ => ⟨fun ⟨t, ht, reach⟩ => ?_, fun ⟨block, hb, t, he, reach⟩ => ?_⟩
  · obtain ⟨block, hb, he⟩ := (mem_ends hs.terminators).1 ht
    exact ⟨block, hb, t, terminator?_eq_some_iff.1 he, reach⟩
  · exact ⟨t, (mem_ends hs.terminators).2 ⟨block, hb, terminator?_eq_some_iff.2 he⟩, reach⟩

theorem Built.mem_scheduled (hs : s.Built g ends) (h : g.Closed) :
    n ∈ s.scheduled g ↔ s.isScheduled n := by
  rw [mem_scheduled_iff, isScheduled, contains_iff_mem]
  refine ⟨And.right, fun hn => ⟨?_, hn⟩⟩
  obtain ⟨-, _, -, t, hend, reach⟩ := (hs.isScheduled_iff h).1 (contains_iff_mem.2 hn)
  exact lt_size_of_reach h (Builder.lt_of_isTerminator hend.isTerminator) reach

/-! ## Copies -/

/-- The copies into the merges of a block are asked for along every
edge. -/
theorem mem_movesInto {scheduled : List NodeId} {m : NodeId × Item} :
    m ∈ movesInto g scheduled target ↔ ∃ phi edge, (phisOf g scheduled target).head? = some phi
      ∧ edge < (g.operands phi).length ∧ m = (g.consumedIn phi edge, .phiMoves target edge) := by
  unfold movesInto
  cases phisOf g scheduled target with
  | nil => simp
  | cons phi rest => simp [eq_comm]

theorem Built.consumedIn_eq_iff (hs : s.Built g ends) (hn : n ∈ s.scheduled g)
    (hp : (g.kind n).isValuePhi) :
    (i < (g.operands n).length ∧ g.consumedIn n i = block)
      ↔ g.predecessor? (g.blockOf n) i = some block := by
  rw [Graph.consumedIn, if_pos (Kind.isPhi_of_isValuePhi hp), hs.arity n hn hp,
    Graph.predecessor?, Graph.operand?]
  by_cases hi : i < (g.operands (g.blockOf n)).length
  · simp [hi]
  · simp [hi]

/-- **Copies stand where their edge comes from.** -/
theorem Built.mem_copiesIn_iff (hs : s.Built g ends) :
    item ∈ s.copiesIn g block ↔ ∃ target edge, item = .phiMoves target edge
      ∧ target ∈ g.layout
      ∧ (∃ phi ∈ s.scheduled g, (g.kind phi).isValuePhi ∧ g.blockOf phi = target)
      ∧ g.predecessor? target edge = some block := by
  have merges : ∀ {target phi}, phi ∈ phisOf g (s.scheduled g) target ↔
      phi ∈ s.scheduled g ∧ (g.kind phi).isValuePhi = true ∧ g.blockOf phi = target := by
    simp [phisOf]
  simp only [copiesIn, mem_map, mem_filter, mem_flatMap, mem_movesInto, beq_iff_eq]
  constructor
  · rintro ⟨m, ⟨⟨target, ht, phi, edge, hh, hlt, rfl⟩, hb⟩, rfl⟩
    obtain ⟨hn, hphi, rfl⟩ := merges.1 (mem_of_mem_head? hh)
    exact ⟨_, edge, rfl, ht, ⟨phi, hn, hphi, rfl⟩, (hs.consumedIn_eq_iff hn hphi).1 ⟨hlt, hb⟩⟩
  · rintro ⟨target, edge, rfl, ht, ⟨phi, hphi⟩, hp⟩
    -- the first merge of the block decides, whichever merge was given
    obtain ⟨first, hh⟩ : ∃ first, (phisOf g (s.scheduled g) target).head? = some first :=
      Option.isSome_iff_exists.1 (isSome_head?.2 (ne_nil_of_mem (merges.2 hphi)))
    obtain ⟨hn, hf, rfl⟩ := merges.1 (mem_of_mem_head? hh)
    obtain ⟨hlt, hb⟩ := (hs.consumedIn_eq_iff hn hf).2 hp
    exact ⟨_, ⟨⟨_, ht, first, edge, hh, hlt, rfl⟩, hb⟩, rfl⟩

theorem nodup_copiesIn (g : Graph) (s : Schedule) (block : NodeId) :
    (s.copiesIn g block).Nodup := by
  have asked : ((g.layout.flatMap (movesInto g (s.scheduled g))).map (·.2)).Nodup := by
    rw [map_flatMap, nodup_flatMap]
    refine ⟨fun target _ => ?_, g.nodup_layout.imp fun hne item hi hi' => ?_⟩
    · unfold movesInto
      split
      · exact nodup_nil
      · rw [map_map]
        exact nodup_range.map fun i j e => (Item.phiMoves.inj e).2
    · obtain ⟨m, hm, rfl⟩ := mem_map.1 hi
      obtain ⟨m', hm', e⟩ := mem_map.1 hi'
      obtain ⟨_, _, -, -, rfl⟩ := mem_movesInto.1 hm
      obtain ⟨_, _, -, -, rfl⟩ := mem_movesInto.1 hm'
      exact hne (Item.phiMoves.inj e).1.symm
  exact asked.sublist (filter_sublist.map _)

/-! ## Items -/

/-- **What the items of a block are**: its scheduled ordinary nodes, its copies
and its end. -/
theorem Built.mem_items (hs : s.Built g ends) (h : g.Closed) (hb : b ∈ s.blocks) : item ∈ b.items ↔
      (∃ n, item = .node n ∧ s.isScheduled n ∧ (g.kind n).isOrdinary ∧ g.blockOf n = b.block)
      ∨ item ∈ s.copiesIn g b.block
      ∨ ∃ t, item = .node t ∧ g.EndsWith b.block t := by
  obtain ⟨-, t, ht, e⟩ := hs.of_mem_blocks hb
  have he := terminator?_eq_some_iff.1 ht
  have members : ∀ n, n ∈ g.orderMembers (membersOf g (s.scheduled g) b.block)
      ↔ s.isScheduled n = true ∧ (g.kind n).isOrdinary = true ∧ g.blockOf n = b.block := by
    intro n
    have nodup : (membersOf g (s.scheduled g) b.block).Nodup := (g.nodup_ids.filter _).filter _
    rw [(g.orderMembers_perm nodup).mem_iff]
    simp [membersOf, hs.mem_scheduled h]
  rw [e, body, mem_append, mem_append, or_assoc]
  refine or_congr ?_ (or_congr_right ?_)
  · simp only [mem_map, members, @eq_comm _ item]
    exact exists_congr fun n => and_comm
  · rw [mem_singleton]
    constructor
    · exact fun hi => ⟨t, hi, he⟩
    · rintro ⟨t', hi, hend'⟩
      exact he.unique hend' ▸ hi

/-- **The copies along an edge** stand in the block that the edge comes from, if
the block it leads to has a merge. -/
theorem Built.phiMoves_mem_items (hs : s.Built g ends) (h : g.Closed) (hb : b ∈ s.blocks) :
    Item.phiMoves target i ∈ b.items ↔ target ∈ g.layout
      ∧ (∃ phi, s.isScheduled phi ∧ (g.kind phi).isValuePhi ∧ g.blockOf phi = target)
      ∧ g.predecessor? target i = some b.block := by
  rw [hs.mem_items h hb, hs.mem_copiesIn_iff]
  constructor
  · rintro (⟨_, e, -⟩ | ⟨_, _, e, ht, ⟨phi, hn, hphi⟩, hp⟩ | ⟨_, e, -⟩)
    · cases e
    · cases e
      exact ⟨ht, ⟨phi, (hs.mem_scheduled h).1 hn, hphi⟩, hp⟩
    · cases e
  · rintro ⟨ht, ⟨phi, hn, hphi⟩, hp⟩
    exact .inr (.inl ⟨target, i, rfl, ht, ⟨phi, (hs.mem_scheduled h).2 hn, hphi⟩, hp⟩)

theorem Built.nodup_items_block (hs : s.Built g ends) (hb : b ∈ s.blocks) : b.items.Nodup := by
  obtain ⟨-, t, ht, e⟩ := hs.of_mem_blocks hb
  rw [e]
  have nodes : ((g.orderMembers (membersOf g (s.scheduled g) b.block)).map Item.node).Nodup :=
    (Walk.nodup_postorder _ _ _).map fun _ _ => Item.node.inj
  refine nodup_append.2 ⟨nodup_append.2 ⟨nodes, nodup_copiesIn g s b.block, ?_⟩,
    nodup_singleton _, ?_⟩
  · rintro item hnode _ hc rfl
    obtain ⟨n, -, rfl⟩ := mem_map.1 hnode
    cases node?_copiesIn hc
  · rintro item hi _ hend rfl
    rw [mem_singleton.1 hend] at hi
    rcases of_mem_body hi with ⟨n, hn, -, ordinary, -⟩ | hc
    · -- the end of a block is no ordinary node
      cases hn
      simp [Kind.isOrdinary, (terminator?_eq_some ht).1] at ordinary
    · cases node?_copiesIn hc

theorem Built.block_eq_of_mem_items (hs : s.Built g ends) (h : g.Closed) {b' : ScheduledBlock}
    (hb : b ∈ s.blocks) (hb' : b' ∈ s.blocks) (hi : item ∈ b.items) (hi' : item ∈ b'.items) :
    b.block = b'.block := by
  cases item with
  | node n =>
    have home : ∀ {b}, b ∈ s.blocks → Item.node n ∈ b.items → g.blockOf n = b.block :=
      fun hb hi => hs.blockOf_of_mem_items hb (mem_filterMap.2 ⟨_, hi, rfl⟩)
    exact (home hb hi).symm.trans (home hb' hi')
  | phiMoves target edge =>
    have origin := ((hs.phiMoves_mem_items h hb).1 hi).2.2
    exact Option.some.inj (origin.symm.trans ((hs.phiMoves_mem_items h hb').1 hi').2.2)

/-- **A schedule places everything once.** Of every graph that refers to its
own nodes only and that can be scheduled: the laid-out blocks are the blocks
the start block leads to, each once and the start block first, and a jump
goes forward unless it closes a circle. Each block is made of its scheduled
ordinary nodes, of the copies for the edges that leave it, and of its end,
in this order, and no item comes twice. -/
theorem build_places_everything_once (h : g.Closed) (hbuild : build g = .ok s) : s.Places g := by
  obtain ⟨ends, hs⟩ := build_eq_ok hbuild
  refine ⟨hs.nodup_map_block, ?_, ?_, ?_, ?_, ?_, ?_, ?_, ?_⟩
  · obtain ⟨later, e⟩ := h.layout_eq_cons
    rw [hs.map_block, e]
    rfl
  · intro block
    rw [hs.map_block]
    exact h.mem_layout_iff
  · intro block hb target hgo
    rw [hs.map_block] at hb ⊢
    exact h.idxOf_lt_or_leads_back hb hgo
  · intro n
    rw [hs.map_block]
    exact hs.isScheduled_iff h
  · intro b hb
    obtain ⟨-, t, ht, e⟩ := hs.of_mem_blocks hb
    refine ⟨_, s.copiesIn g b.block, t, e, Graph.terminator?_eq_some_iff.1 ht, fun n hn => ?_,
      fun item hitem => ?_⟩
    · have := Graph.mem_of_mem_orderMembers hn
      simp only [membersOf, List.mem_filter, Bool.and_eq_true] at this
      exact this.2.1
    · obtain ⟨target, edge, rfl, -⟩ := hs.mem_copiesIn_iff.1 hitem
      exact ⟨target, edge, rfl⟩
  · refine List.nodup_flatMap.2 ⟨fun b hb => hs.nodup_items_block hb, ?_⟩
    refine List.Pairwise.imp_of_mem ?_ (List.pairwise_map.1 hs.nodup_map_block)
    exact fun hb hb' hne item hi hi' => hne (hs.block_eq_of_mem_items h hb hb' hi hi')
  · intro b hb n ordinary
    rw [hs.mem_items h hb]
    constructor
    · rintro (⟨n, e, hn, -, home⟩ | hcopy | ⟨t, e, hend⟩)
      · obtain rfl := Item.node.inj e
        exact ⟨hn, home⟩
      · cases node?_copiesIn hcopy
      · obtain rfl := Item.node.inj e
        simp [Kind.isOrdinary, hend.isTerminator] at ordinary
    · rintro ⟨hn, home⟩
      exact .inl ⟨n, rfl, hn, ordinary, home⟩
  · intro b hb target edge
    rw [hs.map_block]
    exact hs.phiMoves_mem_items h hb

/-! ## A loop -/

/-- The graph of a loop that counts to ten. The merge in its header is filled
from the start block and from the body. -/
def countingLoop : Graph where
  name := "f"
  nodes := #[⟨.block "f_start", 0, [], []⟩, ⟨.start, 0, [], [15]⟩, ⟨.block "f_end", 2, [15], []⟩,
    ⟨.constInt 0, 0, [], [6]⟩, ⟨.block "f_header", 4, [5, 14], []⟩, ⟨.jump 4, 0, [], [4]⟩,
    ⟨.phi .value, 4, [3, 13], [8, 13, 15]⟩, ⟨.constInt 10, 4, [], [8]⟩,
    ⟨.compare .less, 4, [6, 7], [11]⟩, ⟨.block "f_body", 9, [11], []⟩,
    ⟨.block "f_exit", 10, [11], []⟩, ⟨.condJump 9 10, 4, [8], [9, 10]⟩,
    ⟨.constInt 1, 9, [], [13]⟩, ⟨.binary (.arith .add), 9, [6, 12], [6]⟩, ⟨.jump 4, 9, [], [4]⟩,
    ⟨.ret, 10, [1, 6], [2]⟩]
  roles := ["exit", "body", "header", "end", "start"]

/-- The schedule of the loop: the header behind the start block, then the body,
which goes back, and the exit. -/
def countingLoopSchedule : Schedule where
  blocks := [⟨0, [], [.node 3, .phiMoves 4 0, .node 5]⟩, ⟨4, [6], [.node 7, .node 8, .node 11]⟩,
    ⟨9, [], [.node 12, .node 13, .phiMoves 4 1, .node 14]⟩, ⟨10, [], [.node 15]⟩]
  postorder := [0, 5, 3, 9, 12, 13, 14, 4, 6, 7, 8, 11, 1, 10, 15]

theorem countingLoop_placed_once :
    build countingLoop = .ok countingLoopSchedule ∧ countingLoopSchedule.Places countingLoop := by
  have built : build countingLoop = .ok countingLoopSchedule := by decide +kernel
  have closed : countingLoop.Closed := by
    refine ⟨by decide, fun n a ha => ?_, by decide, fun n target ht => ?_⟩
    · have all : ∀ n < 16, ∀ a ∈ countingLoop.operands n, a < 16 := by decide
      exact all n (Graph.lt_of_mem_operands ha) a ha
    · have all : ∀ n < 16, ∀ target ∈ countingLoop.targets n, target < 16 := by decide
      exact all n (Builder.lt_of_isTerminator (Kind.isTerminator_of_mem_targets ht)) target ht
  exact ⟨built, build_places_everything_once closed built⟩

end Schedule

end SsaCompiler
