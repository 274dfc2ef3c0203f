import SsaCompiler.Proofs.Builder.Wiring
import SsaCompiler.Proofs.Schedule

/-!
# The control flow of a finished graph

`Graph.Regular` says what holds of the control flow of a graph that was built
completely: every block is ended once at most, every edge is recorded at both of
its ends, and nothing leads into the start block or out of the end block. Then
**the blocks that are laid out are those that a path leads to**, apart from the
end block (`Graph.Regular.mem_layout`), and a jump goes to a block that is laid
out.
-/

namespace SsaCompiler

open List Builder Kind

variable {k : Kind} {block pred : NodeId} {index : Nat}

/-- **All that a graph refers to are nodes of it.** -/
structure Graph.Closed (g : Graph) : Prop where
  entry : startBlock < g.size
  operands : ∀ n, ∀ a ∈ g.operands n, a < g.size
  home : ∀ n < g.size, g.blockOf n < g.size
  targets : ∀ n, ∀ target ∈ g.targets n, target < g.size

/-- **The control flow of a graph is complete.** -/
structure Graph.Regular (g : Graph) : Prop where
  coherent : g.Coherent
  entry : (g.kind startBlock).isBlock = true
  first : g.operands startBlock = []
  /-- Every node belongs to a block. -/
  home : ∀ n < g.size, (g.kind (g.blockOf n)).isBlock = true
  self : ∀ n, (g.kind n).isBlock = true → g.blockOf n = n
  /-- The operands of a block are the jumps that lead to it. -/
  jumps : ∀ n, (g.kind n).isBlock = true → ∀ a ∈ g.operands n, (g.kind a).isTerminator = true
  /-- A block is ended once. -/
  single : ∀ m n, (g.kind m).isTerminator = true → (g.kind n).isTerminator = true →
    g.blockOf m = g.blockOf n → m = n
  exits : ∀ n, (g.kind n).isTerminator = true → ∀ target ∈ (g.kind n).exits,
    (g.kind target).isBlock = true
  /-- A block has an edge from every jump that leads to it. -/
  edges : ∀ block, (g.kind block).isBlock = true → ∀ jump, (g.kind jump).isTerminator = true →
    (g.operands block).count jump = (g.kind jump).exits.count block
  /-- Only blocks that a path leads to are ended. -/
  reaches : ∀ n, (g.kind n).isTerminator = true → g.Reaches (g.blockOf n)
  /-- Nothing ends the end block. -/
  final : ∀ n, (g.kind n).isTerminator = true → g.blockOf n ≠ endBlock
  /-- Only returns lead to the end block. -/
  targets : ∀ n, endBlock ∉ g.targets n
  /-- A path comes to a jump on a condition before it comes to either target. -/
  branches : ∀ n ifTrue ifFalse, g.kind n = .condJump ifTrue ifFalse → ifTrue ≠ ifFalse ∧
    ∃ path, IsPath g.preds path ∧ Path.last path = g.blockOf n ∧
      ¬ Path.Visits path ifTrue ∧ ¬ Path.Visits path ifFalse

theorem Kind.mem_exits_of_mem_targets (h : block ∈ k.targets) : block ∈ k.exits := by
  cases k <;> first | exact h | cases h

theorem Kind.isTerminator_of_mem_targets (h : block ∈ k.targets) : k.isTerminator := by
  cases k <;> first | rfl | cases h

theorem Kind.mem_targets_of_mem_exits (h : block ∈ k.exits) (hne : block ≠ Graph.endBlock) :
    block ∈ k.targets := by
  cases k <;> first | exact h | exact absurd (mem_singleton.1 h) hne

namespace Graph

variable {g : Graph} {block block' n t : NodeId} {path : Path}

theorem terminator?_eq_none (h : g.terminator? block = none) (hn : (g.kind n).isTerminator) :
    g.blockOf n ≠ block := fun he => by
  have hmem : n ∈ g.ids := mem_range.2 (lt_of_isTerminator hn)
  have := find?_eq_none.1 h n hmem
  simp [hn, he] at this

/-! ## Graphs that refer to their own nodes -/

namespace Closed

variable (h : g.Closed)

include h

theorem next_subset (hn : n < g.size) : g.next n ⊆ g.ids := fun a ha => by
  unfold next at ha
  split at ha
  · exact mem_range.2 (h.operands n a ha)
  · rcases mem_append.1 ha with ha | ha
    · exact mem_range.2 (h.operands n a ha)
    · exact mem_range.2 (mem_singleton.1 ha ▸ h.home n hn)

theorem blockNext_subset (block : NodeId) : g.blockNext block ⊆ g.ids := fun next hn => by
  unfold blockNext at hn
  split at hn
  · exact mem_range.2 (h.targets _ next (mem_reverse.1 hn))
  · cases hn

theorem mem_layout_of_reach (hr : Walk.Reach g.blockNext startBlock block) :
    block ∈ g.layout := by
  refine mem_reverse.2 (Walk.mem_postorder_of_reach g.ids (fun x _ => h.blockNext_subset x)
    (fun x hx => ?_) length_range.le (.head _) hr)
  rw [mem_singleton.1 hx]
  exact mem_range.2 h.entry

/-- **The walks of a graph are loops.** The nodes reached from some roots, the layout of the
blocks and the order of the members of a block are what the loop with a stack leaves. -/
theorem exists_loops {roots : List NodeId} (hroots : ∀ r ∈ roots, r < g.size)
    (members : List NodeId) :
    (∃ w : Walk, (∀ w', Walk.Loops g.next (roots.map .enter) {} w' ↔ w' = w) ∧
      w.left.reverse = g.postorder roots) ∧
    (∃ w : Walk, (∀ w', Walk.Loops g.blockNext [.enter startBlock] {} w' ↔ w' = w) ∧
      w.left = g.layout) ∧
    ∃ w : Walk, (∀ w', Walk.Loops (g.dependencies members) (members.map .enter) {} w' ↔ w' = w) ∧
      w.left.reverse = g.orderMembers members := by
  refine ⟨?_, ?_, ?_⟩
  · exact Walk.exists_loops g.ids (fun x hx => h.next_subset (mem_range.1 hx))
      (fun r hr => mem_range.2 (hroots r hr)) length_range.le
  · have hs : [startBlock] ⊆ g.ids := cons_subset.2 ⟨mem_range.2 h.entry, nil_subset _⟩
    obtain ⟨w, hw, hl⟩ := Walk.exists_loops g.ids (fun x _ => h.blockNext_subset x) hs
      length_range.le
    refine ⟨w, hw, ?_⟩
    rw [layout, ← hl, reverse_reverse]
  · exact Walk.exists_loops members (fun x _ a ha => contains_iff_mem.1 (mem_filter.1 ha).2)
      (fun _ => id) le_rfl

/-- The start block is laid out first. -/
theorem layout_eq_cons : ∃ later, g.layout = startBlock :: later := by
  obtain ⟨bound, hb⟩ := Nat.exists_eq_add_of_lt h.entry
  unfold layout Walk.postorder
  rw [reverse_reverse, hb]
  exact ⟨_, rfl⟩

end Closed

namespace Regular

variable (h : g.Regular)

include h

/-- The end of a block is found. -/
theorem terminator?_eq (hn : (g.kind n).isTerminator) : g.terminator? (g.blockOf n) = some n := by
  cases ht : g.terminator? (g.blockOf n) with
  | none => exact absurd rfl (terminator?_eq_none ht hn)
  | some t =>
    obtain ⟨hterm, hb⟩ := terminator?_eq_some ht
    rw [h.single t n hterm hn hb]

theorem exists_jump (hb : (g.kind block).isBlock)
    (he : (g.preds block)[index]? = some pred) :
    ∃ jump, (g.operands block)[index]? = some jump ∧ (g.kind jump).isTerminator ∧
      g.blockOf jump = pred ∧ block ∈ (g.kind jump).exits := by
  rw [preds, getElem?_map] at he
  obtain ⟨jump, hj, rfl⟩ := Option.map_eq_some_iff.1 he
  have hm := mem_of_getElem? hj
  have ht := h.jumps block hb jump hm
  refine ⟨jump, hj, ht, rfl, count_pos_iff.1 ?_⟩
  rw [← h.edges block hb jump ht]
  exact count_pos_iff.2 hm

/-- Control comes from the block of a jump to where the jump leads. -/
theorem mem_preds (ht : (g.kind t).isTerminator) (hm : block ∈ (g.kind t).exits) :
    g.blockOf t ∈ g.preds block := by
  refine mem_map_of_mem (count_pos_iff.1 ?_)
  rw [h.edges block (h.exits t ht block hm) t ht]
  exact count_pos_iff.2 hm

theorem ne_startBlock (ht : (g.kind t).isTerminator) (hmem : block ∈ (g.kind t).exits) :
    block ≠ startBlock := fun he => by
  have hp := h.mem_preds ht hmem
  rw [he, preds, h.first] at hp
  cases hp

theorem isBlock_of_visits (hp : IsPath g.preds path)
    (hl : (g.kind (Path.last path)).isBlock) (hv : Path.Visits path block) :
    (g.kind block).isBlock := by
  induction hp with
  | nil => exact hv ▸ h.entry
  | @cons path next index hp he ih =>
    rcases hv with rfl | hv
    · exact hl
    · obtain ⟨jump, -, ht, hpred, -⟩ := h.exists_jump hl he
      exact ih (hpred ▸ h.home jump (lt_of_isTerminator ht)) hv

theorem ne_endBlock_of_edge (hb : (g.kind block).isBlock)
    (he : (g.preds block)[index]? = some pred) : pred ≠ endBlock := by
  obtain ⟨jump, -, ht, rfl, -⟩ := h.exists_jump hb he
  exact h.final jump ht

/-! ## The layout -/

theorem closed : g.Closed where
  entry := lt_of_isBlock h.entry
  operands := h.coherent.closed
  home := fun n hn => lt_of_isBlock (h.home n hn)
  targets := fun n target ht => by
    have hterm : (g.kind n).isTerminator = true := isTerminator_of_mem_targets ht
    exact lt_of_isBlock
      (h.exits n hterm target (mem_exits_of_mem_targets ht))

theorem mem_layout_of_reach (hr : Walk.Reach g.blockNext startBlock block) : block ∈ g.layout :=
  h.closed.mem_layout_of_reach hr

theorem startBlock_mem_layout : startBlock ∈ g.layout := h.mem_layout_of_reach .refl

/-- The start block is laid out first. -/
theorem layout_eq_cons : ∃ later, g.layout = startBlock :: later := h.closed.layout_eq_cons

/-- A jump out of a laid-out block goes to a laid-out block. -/
theorem mem_layout_of_target (ht : (g.kind t).isTerminator) (hb : g.blockOf t ∈ g.layout)
    (hmem : block ∈ g.targets t) : block ∈ g.layout := by
  obtain ⟨r, hr, hreach⟩ := Walk.reach_of_mem_postorder (mem_reverse.1 hb)
  rw [mem_singleton.1 hr] at hreach
  refine h.mem_layout_of_reach (hreach.tail ?_)
  unfold blockNext
  rw [h.terminator?_eq ht]
  exact mem_reverse.2 hmem

theorem reaches_of_mem_layout (hmem : block ∈ g.layout) :
    (g.kind block).isBlock ∧ g.Reaches block ∧ block ≠ endBlock := by
  obtain ⟨r, hr, hreach⟩ := Walk.reach_of_mem_postorder (mem_reverse.1 hmem)
  rw [mem_singleton.1 hr] at hreach
  induction hreach with
  | refl => exact ⟨h.entry, ⟨[], .nil, rfl⟩, nofun⟩
  | @tail b c _ hn ih =>
    unfold blockNext at hn
    split at hn
    · rename_i t ht
      obtain ⟨hterm, rfl⟩ := terminator?_eq_some ht
      have htarget := mem_reverse.1 hn
      have hexit := mem_exits_of_mem_targets htarget
      exact ⟨h.exits t hterm _ hexit, (h.reaches t hterm).step (h.mem_preds hterm hexit),
        fun he => h.targets t (he ▸ htarget)⟩
    · cases hn

/-- **Every block on a path is laid out**, apart from the end block. -/
theorem last_mem_layout (hpath : IsPath g.preds path) (hl : (g.kind (Path.last path)).isBlock)
    (hne : Path.last path ≠ endBlock) :
    Path.last path ∈ g.layout := by
  induction hpath with
  | nil => exact h.startBlock_mem_layout
  | @cons path next index hpath he ih =>
    obtain ⟨jump, -, ht, hp, hexit⟩ := h.exists_jump hl he
    have hprev : (g.kind (Path.last path)).isBlock = true :=
      hp ▸ h.home jump (lt_of_isTerminator ht)
    refine h.mem_layout_of_target ht (hp ▸ ih hprev ?_)
      (mem_targets_of_mem_exits hexit hne)
    exact hp ▸ h.final jump ht

theorem mem_layout_of_reaches (hb : (g.kind block).isBlock) (hr : g.Reaches block)
    (hne : block ≠ endBlock) : block ∈ g.layout := by
  obtain ⟨path, hp, rfl⟩ := hr
  exact h.last_mem_layout hp hb hne

/-- **What dominates a laid-out block is laid out.** -/
theorem mem_layout_of_dominates (hb : block ∈ g.layout)
    (hd : Dominates g.preds block' block) : block' ∈ g.layout := by
  obtain ⟨hi, ⟨path, hp, rfl⟩, hne⟩ := h.reaches_of_mem_layout hb
  obtain ⟨path', hs, rfl⟩ := (hd path hp rfl).exists_suffix
  have hp' := hp.of_suffix hs
  have hi' := h.isBlock_of_visits hp hi (hd path hp rfl)
  refine h.last_mem_layout hp' hi' fun he => ?_
  -- A path that has come to the end block stays there.
  obtain ⟨rest, rfl⟩ := hs
  induction rest using List.reverseRecOn with
  | nil => exact hne he
  | append_singleton rest edge _ =>
    rw [append_assoc] at hp hi
    have hedge := hp.of_suffix (suffix_append rest (edge :: path'))
    have hn := h.isBlock_of_visits hp hi
      ((Path.visits_last (edge :: path')).of_suffix (suffix_append rest _))
    cases hedge with
    | cons _ hedge => exact h.ne_endBlock_of_edge hn hedge he

end Regular

end Graph

end SsaCompiler
