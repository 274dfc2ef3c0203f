import SsaCompiler.Schedule
import SsaCompiler.Proofs.Except
import SsaCompiler.Proofs.Walk

/-!
# What a schedule consists of

A schedule that was built is described by its graph and by the list of the
ends of its blocks (`Schedule.Built`). From the description follows what
later stages rely on: the blocks are those of the layout, each once; a
block's items are its ordinary nodes, then copies, then its end; and **no
node is an item twice** (`Schedule.Built.nodup_nodes`).
-/

namespace SsaCompiler

open List SsaCompiler.Except Graph

variable {b : ScheduledBlock} {item : Item}

namespace Graph

variable {g : Graph} {n : NodeId}

/-- The layout has no block twice. -/
theorem nodup_layout (g : Graph) : g.layout.Nodup := nodup_reverse.2 (Walk.nodup_postorder _ _ _)

theorem nodup_ids (g : Graph) : g.ids.Nodup := nodup_range

theorem terminator?_eq_some {block t : NodeId} (h : g.terminator? block = some t) :
    (g.kind t).isTerminator ∧ g.blockOf t = block := by
  simpa using find?_some h

theorem mem_of_mem_orderMembers {members : List NodeId} (h : n ∈ g.orderMembers members) :
    n ∈ members := by
  obtain ⟨r, hr, reach⟩ := Walk.reach_of_mem_postorder h
  induction reach with
  | refl => exact hr
  | tail _ hn _ => simpa using (mem_filter.1 hn).2

end Graph

/-- The node of an item that stands for one. -/
def Item.node? : Item → Option NodeId
  | node n => some n
  | phiMoves _ _ => none

namespace Schedule

/-- The nodes of a graph that are scheduled, in the order they were made. -/
def scheduled (g : Graph) (s : Schedule) : List NodeId :=
  g.ids.filter s.postorder.contains

/-- The copies made in a block. -/
def copiesIn (g : Graph) (s : Schedule) (block : NodeId) : List Item :=
  ((g.layout.flatMap (movesInto g (s.scheduled g))).filter fun m => m.1 == block).map (·.2)

/-- **The items of a block before its end.** -/
def body (g : Graph) (s : Schedule) (block : NodeId) : List Item :=
  (g.orderMembers (membersOf g (s.scheduled g) block)).map .node ++ s.copiesIn g block

/-- **A schedule that was built from a graph**, with the ends of the laid-out
blocks. -/
structure Built (g : Graph) (s : Schedule) (ends : List NodeId) : Prop where
  terminators : List.Forall₂ (fun block t => g.terminator? block = some t) g.layout ends
  postorder_eq : s.postorder = (g.postorder ends).filter fun n => g.layout.contains (g.blockOf n)
  arity : ∀ n ∈ s.scheduled g, (g.kind n).isValuePhi = true →
    (g.operands n).length = (g.operands (g.blockOf n)).length
  blocks_eq : s.blocks = (g.layout.zip ends).map fun (block, t) =>
    { block, phis := phisOf g (s.scheduled g) block, items := s.body g block ++ [.node t] }

variable {g : Graph} {s : Schedule} {ends : List NodeId} {block n : NodeId}

theorem checkArity_eq_ok : checkArity g n = .ok ()
    ↔ (g.operands n).length = (g.operands (g.blockOf n)).length := by
  by_cases h : (g.operands n).length = (g.operands (g.blockOf n)).length <;>
    simp [checkArity]

theorem terminators_eq_ok {layout : List NodeId} : terminators g layout = .ok ends
    ↔ List.Forall₂ (fun block t => g.terminator? block = some t) layout ends := by
  rw [terminators, mapM_eq_ok]
  refine ⟨fun h => h.imp fun block t => ?_, fun h => h.imp fun block t ht => ?_⟩
  · cases g.terminator? block <;> simp
  · simp only [ht]

/-- What building a schedule comes to. -/
theorem build_eq_ok (h : build g = .ok s) : ∃ ends, s.Built g ends := by
  obtain ⟨ends, he, h⟩ := bind_eq_ok.1 h
  obtain ⟨_, ha, h⟩ := bind_eq_ok.1 h
  obtain rfl := pure_eq_ok.1 h
  refine ⟨ends, terminators_eq_ok.1 he, rfl, fun n hn hphi => ?_, rfl⟩
  exact checkArity_eq_ok.1 (forM_eq_ok.1 ha n (mem_filter.2 ⟨hn, hphi⟩))

namespace Built

/-- The blocks of the schedule are those of the layout. -/
theorem map_block (h : s.Built g ends) : s.blocks.map (·.block) = g.layout := by
  rw [h.blocks_eq, map_map]
  exact List.map_fst_zip (Nat.le_of_eq h.terminators.length_eq)

theorem nodup_map_block (h : s.Built g ends) : (s.blocks.map (·.block)).Nodup :=
  h.map_block ▸ g.nodup_layout

/-- What a block of the schedule is: items, then its end. -/
theorem of_mem_blocks (h : s.Built g ends) (hb : b ∈ s.blocks) :
    b.phis = phisOf g (s.scheduled g) b.block
      ∧ ∃ t, g.terminator? b.block = some t ∧ b.items = s.body g b.block ++ [.node t] := by
  rw [h.blocks_eq] at hb
  obtain ⟨⟨block, t⟩, hp, rfl⟩ := mem_map.1 hb
  exact ⟨rfl, t, List.forall₂_iff_zip.1 h.terminators |>.2 hp, rfl⟩

theorem mem_valuePhis (h : s.Built g ends) (hn : n ∈ s.valuePhis block) :
    n ∈ s.scheduled g ∧ (g.kind n).isValuePhi ∧ g.blockOf n = block := by
  unfold valuePhis at hn
  cases hf : s.blocks.find? (·.block == block) with
  | none => simp [hf] at hn
  | some b =>
    have hb : b.block = block := by simpa using find?_some hf
    have hp := (h.of_mem_blocks (mem_of_find?_eq_some hf)).1
    simp only [hf, Option.map_some, hp, hb] at hn
    simpa [phisOf] using hn

theorem nodup_valuePhis (h : s.Built g ends) (block : NodeId) :
    (s.valuePhis block).Nodup := by
  unfold valuePhis
  cases hf : s.blocks.find? (·.block == block) with
  | none => exact nodup_nil
  | some b =>
    have hp := (h.of_mem_blocks (mem_of_find?_eq_some hf)).1
    simp only [Option.map_some, hp]
    exact (g.nodup_ids.filter _).filter _

end Built

/-! ## Items -/

/-- An item before the end of a block is an ordinary node of the block, or a
copy. -/
theorem of_mem_body (h : item ∈ s.body g block) :
    (∃ n, item = .node n ∧ n ∈ s.scheduled g ∧ (g.kind n).isOrdinary ∧ g.blockOf n = block)
      ∨ item ∈ s.copiesIn g block := by
  rcases mem_append.1 h with h | h
  · obtain ⟨n, hn, rfl⟩ := mem_map.1 h
    have := mem_of_mem_orderMembers hn
    exact .inl ⟨n, rfl, by simpa [membersOf] using this⟩
  · exact .inr h

theorem node?_copiesIn (h : item ∈ s.copiesIn g block) : item.node? = none := by
  obtain ⟨⟨b, i⟩, hm, rfl⟩ := mem_map.1 h
  obtain ⟨target, -, hm⟩ := mem_flatMap.1 (mem_filter.1 hm).1
  unfold movesInto at hm
  split at hm
  · cases hm
  · obtain ⟨edge, -, e⟩ := mem_map.1 hm
    rw [← (Prod.mk.inj e).2]
    rfl

theorem filterMap_node?_body (g : Graph) (s : Schedule) (block : NodeId) :
    (s.body g block).filterMap Item.node?
      = g.orderMembers (membersOf g (s.scheduled g) block) := by
  have copies : (s.copiesIn g block).filterMap Item.node? = [] :=
    filterMap_eq_nil_iff.2 fun _ => node?_copiesIn
  rw [body, filterMap_append, copies, append_nil, filterMap_map]
  exact filterMap_some

theorem Built.blockOf_of_mem_items (h : s.Built g ends) (hb : b ∈ s.blocks)
    (hn : n ∈ b.items.filterMap Item.node?) : g.blockOf n = b.block := by
  obtain ⟨-, t, ht, e⟩ := h.of_mem_blocks hb
  rw [e, filterMap_append, filterMap_node?_body] at hn
  rcases mem_append.1 hn with hn | hn
  · have := mem_of_mem_orderMembers hn
    simp [membersOf] at this
    exact this.2.2
  · obtain rfl : n = t := by simpa [Item.node?] using hn
    exact (terminator?_eq_some ht).2

/-- **No node is an item twice.** -/
theorem Built.nodup_nodes (h : s.Built g ends) : (s.items.filterMap Item.node?).Nodup := by
  have split : s.items.filterMap Item.node?
      = s.blocks.flatMap fun b => b.items.filterMap Item.node? :=
    filterMap_flatMap
  rw [split, nodup_flatMap]
  constructor
  · -- within a block: the ordinary nodes are ordered without repeats, the end is not ordinary
    intro b hb
    obtain ⟨-, t, ht, e⟩ := h.of_mem_blocks hb
    rw [e, filterMap_append, filterMap_node?_body]
    refine nodup_append.2 ⟨Walk.nodup_postorder _ _ _, nodup_singleton t, ?_⟩
    intro n hn m hm
    obtain rfl : m = t := by simpa [Item.node?] using hm
    rintro rfl
    have ordinary := mem_of_mem_orderMembers hn
    have terminator := (terminator?_eq_some ht).1
    simp [membersOf, Kind.isOrdinary, terminator] at ordinary
  · -- across blocks: a node belongs to one block
    refine List.Pairwise.imp_of_mem ?_ (pairwise_map.1 h.nodup_map_block)
    intro a b ha hb hne n hna hnb
    exact hne ((h.blockOf_of_mem_items ha hna).symm.trans (h.blockOf_of_mem_items hb hnb))

end Schedule

end SsaCompiler
