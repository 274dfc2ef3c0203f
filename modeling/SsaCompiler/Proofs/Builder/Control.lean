import SsaCompiler.Proofs.Builder.Protocol
import SsaCompiler.Proofs.Builder.Wiring

/-!
# What requests do to the control flow

The blocks of a builder, their predecessors, which of them are sealed and which of
them are ended make up its control flow. Most of what a builder does leaves it
alone (`Builder.Still`): reads and computations make neither blocks nor jumps. Only
five requests change it, and how they do does not depend on what nodes are shared
(`Builder.Controls`).
-/

namespace SsaCompiler

open List

namespace Builder

namespace Request

/-- The block that is current after a request. -/
def next (current : NodeId) : Request → NodeId
  | enter block => block
  | _ => current

/-- The requests that are about the control flow. -/
def steers : Request → Bool
  | newBlock _ | enter _ | jump _ | condJump _ _ _ | ret _ | seals _ => true
  | _ => false

theorem next_of_targets {r : Request} (h : r.targets ≠ []) (current : NodeId) :
    r.next current = current ∧ (∀ role, r ≠ .newBlock role) ∧ ∀ n, r ≠ .seals n := by
  cases r with
  | jump | condJump | ret => exact ⟨rfl, nofun, nofun⟩
  | _ => exact absurd rfl h

end Request

variable {b c d : Builder} {r : Request} {kind : Kind} {block : NodeId} {operands : List NodeId}
  {n : NodeId}

/-! ## Control that is left alone -/

/-- **The control flow is left alone**: nodes come in addition at most, and none of
them is a block or a jump. -/
structure Still (b c : Builder) : Prop where
  size_le : b.graph.size ≤ c.graph.size
  kind : ∀ n < b.graph.size, c.graph.kind n = b.graph.kind n
  blockOf : ∀ n < b.graph.size, c.graph.blockOf n = b.graph.blockOf n
  isBlock : ∀ n, b.graph.size ≤ n → (c.graph.kind n).isBlock = false
  isTerminator : ∀ n, b.graph.size ≤ n → (c.graph.kind n).isTerminator = false
  jumps : ∀ n, (b.graph.kind n).isBlock = true → c.graph.operands n = b.graph.operands n
  sealedBlocks : c.sealedBlocks = b.sealedBlocks
  current : c.current = b.current

theorem still_write (b : Builder) (slot : Slot) (block value : NodeId) :
    Still b (b.write slot block value) where
  size_le := le_rfl
  kind := fun _ _ => rfl
  blockOf := fun _ _ => rfl
  isBlock := fun n hn => by rw [show (b.write slot block value).graph.kind n = _ from
    kind_of_size_le b.graph hn]; rfl
  isTerminator := fun n hn => by rw [show (b.write slot block value).graph.kind n = _ from
    kind_of_size_le b.graph hn]; rfl
  jumps := fun _ _ => rfl
  sealedBlocks := rfl
  current := rfl

theorem Still.trans (h : Still b c) (h' : Still c d) : Still b d where
  size_le := h.size_le.trans h'.size_le
  kind := fun n hn => (h'.kind n (hn.trans_le h.size_le)).trans (h.kind n hn)
  blockOf := fun n hn => (h'.blockOf n (hn.trans_le h.size_le)).trans (h.blockOf n hn)
  isBlock := fun n hn => by
    by_cases hlt : n < c.graph.size
    · rw [h'.kind n hlt, h.isBlock n hn]
    · exact h'.isBlock n (not_lt.1 hlt)
  isTerminator := fun n hn => by
    by_cases hlt : n < c.graph.size
    · rw [h'.kind n hlt, h.isTerminator n hn]
    · exact h'.isTerminator n (not_lt.1 hlt)
  jumps := fun n hn => by
    rw [h'.jumps n (by rw [h.kind n (lt_of_isBlock hn), hn]), h.jumps n hn]
  sealedBlocks := h'.sealedBlocks.trans h.sealedBlocks
  current := h'.current.trans h.current

theorem still_of_evolves {old : Nat} (h : Evolves old b c) : Still b c where
  size_le := h.size_le
  kind := h.kind
  blockOf := h.blockOf
  isBlock := fun _ => Stage.not_isBlock_of_evolves h
  isTerminator := fun _ => Stage.isTerminator_of_evolves h
  jumps := h.jumps
  sealedBlocks := h.sealedBlocks
  current := h.current

/-- A plain node is neither a block nor a jump. -/
theorem still_of_adds {d : Draft} (h : b.toDraft.Adds kind block d) (hk : kind.isPlain) :
    Still b { b with toDraft := d } := by
  obtain ⟨hb, -, ht⟩ := Kind.isPlain_iff.1 hk
  refine
    { size_le := Nat.le_of_lt (h.size ▸ Nat.lt_succ_self _),
      kind := fun n hn => (h.kind n).trans (if_neg hn.ne),
      blockOf := fun n hn => (h.blockOf n).trans (if_neg hn.ne),
      isBlock := fun n hn => ?_, isTerminator := fun n hn => ?_,
      jumps := fun n hn => h.operands n (lt_of_isBlock hn).ne,
      sealedBlocks := rfl, current := rfl }
  · rcases kind_of_appends h.appends hn with he | he
    · exact (congrArg Kind.isBlock he).trans hb
    · exact congrArg Kind.isBlock he
  · rcases kind_of_appends h.appends hn with he | he
    · exact (congrArg Kind.isTerminator he).trans ht
    · exact congrArg Kind.isTerminator he

theorem still_make (b : Builder) (kind : Kind) (block : NodeId) (operands : List NodeId)
    (hk : kind.isPlain) : Still b (b.lift (b.add kind block operands)).2 :=
  still_of_adds (b.add_spec kind block operands).1 hk

theorem still_place (b : Builder) (kind : Kind) (block : NodeId) (operands : List NodeId)
    (hk : kind.isPlain) : Still b (b.place kind block operands).2 :=
  still_of_adds (b.adds_addNode kind block operands) hk

theorem still_trapping (b : Builder) (op : BinOp) (lhs rhs effect : NodeId) :
    Still b (b.trapping op lhs rhs effect) :=
  (((still_place _ _ _ _ rfl).trans (still_place _ _ _ _ rfl)).trans (still_write _ _ _ _)).trans
    (still_place _ _ _ _ rfl)

theorem Still.isBlock_eq (h : Still b c) (n : NodeId) :
    (c.graph.kind n).isBlock = (b.graph.kind n).isBlock := by
  by_cases hlt : n < b.graph.size
  · rw [h.kind n hlt]
  · rw [h.isBlock n (not_lt.1 hlt), kind_of_size_le b.graph (not_lt.1 hlt)]
    rfl

theorem Still.preds (h : Still b c) (hwf : b.WellFormed) (hn : (b.graph.kind n).isBlock) :
    c.graph.preds n = b.graph.preds n := by
  unfold Graph.preds
  rw [h.jumps n hn]
  exact map_congr_left fun a ha => h.blockOf a (hwf.coherent.closed n a ha)

theorem Still.isOpen (h : Still b c) (ho : b.Open n) : c.Open n := fun m hm => by
  by_cases hlt : m < b.graph.size
  · rw [h.blockOf m hlt]
    exact ho m (h.kind m hlt ▸ hm)
  · exact absurd ((h.isTerminator m (not_lt.1 hlt)).symm.trans hm) nofun

/-! ## Control that changes -/

/-- **What a request does to the control flow.** -/
structure Controls (r : Request) (b c : Builder) : Prop where
  size_le : b.graph.size ≤ c.graph.size
  current : c.current = r.next b.current
  isBlock : ∀ n, (c.graph.kind n).isBlock = true ↔
    (b.graph.kind n).isBlock = true ∨ ∃ role, r = .newBlock role ∧ n = b.graph.size
  preds : ∀ n, (c.graph.kind n).isBlock = true →
    c.graph.preds n = b.graph.preds n ++ List.replicate (r.targets.count n) b.current
  isSealed : ∀ n, c.isSealed n = true ↔ b.isSealed n = true ∨ r = .seals n
  isOpen : ∀ n, b.Open n → r.targets = [] ∨ n ≠ b.current → c.Open n

theorem Still.controls (h : Still b c) (hwf : b.WellFormed) (hr : r.steers = false) :
    Controls r b c where
  size_le := h.size_le
  current := by
    rw [h.current]
    cases r <;> first | rfl | cases hr
  isBlock := fun n => by
    rw [h.isBlock_eq, or_iff_left]
    rintro ⟨role, rfl, -⟩
    cases hr
  preds := fun n hn => by
    have ht : r.targets = [] := by cases r <;> first | rfl | cases hr
    rw [ht, count_nil, replicate_zero, append_nil]
    exact h.preds hwf (h.isBlock_eq n ▸ hn)
  isSealed := fun n => by
    unfold Builder.isSealed
    rw [h.sealedBlocks, or_iff_left]
    rintro rfl
    cases hr
  isOpen := fun _ ho _ => h.isOpen ho

/-- **Ending the current block** gives the targets a predecessor each. -/
theorem Still.controls_leave (h : Still b c) (hwf : b.WellFormed) (hwf' : c.WellFormed)
    (hkind : kind.isTerminator) (hexits : kind.exits = r.targets)
    (htargets : ∀ n ∈ r.targets, (b.graph.kind n).isBlock) :
    Controls r b (c.leave kind c.current operands) := by
  have hs : r.targets ≠ [] := by
    rw [← hexits]
    cases kind <;> first | exact cons_ne_nil _ _ | cases hkind
  obtain ⟨hnext, hnew, hseals⟩ := Request.next_of_targets hs b.current
  have hlt : ∀ target ∈ kind.exits, target < c.graph.size := fun target ht =>
    Nat.lt_of_lt_of_le (lt_of_isBlock (htargets target (hexits ▸ ht))) h.size_le
  have hk := c.kind_leave kind c.current operands
  have hb := c.blockOf_leave kind c.current operands
  have hnotBlock : kind.isBlock = false := Kind.isBlock_eq_false_of_isTerminator hkind
  have hi : ∀ n, ((c.leave kind c.current operands).graph.kind n).isBlock =
      (c.graph.kind n).isBlock := fun n => by
    rw [hk]
    split
    · rw [hnotBlock, kind_of_size_le c.graph (Eq.symm ‹_›).le]
      rfl
    · rfl
  refine ⟨?_, h.current.trans hnext.symm, fun n => ?_, fun n hn => ?_, fun n => ?_,
    fun n ho hne m hm => ?_⟩
  · rw [c.size_leave]
    exact Nat.le_succ_of_le h.size_le
  · rw [hi, h.isBlock_eq, or_iff_left]
    exact fun ⟨role, he, _⟩ => hnew role he
  · have hblock : (b.graph.kind n).isBlock = true := by rw [← h.isBlock_eq, ← hi, hn]
    have hltN : n < c.graph.size := (lt_of_isBlock hblock).trans_le h.size_le
    rw [← h.preds hwf hblock, ← h.current, ← hexits]
    unfold Graph.preds
    rw [c.operands_leave c.current operands hlt, if_neg hltN.ne, map_append,
      map_replicate, hb, if_pos rfl]
    congr 1
    refine map_congr_left fun a ha => ?_
    rw [hb, if_neg (hwf'.coherent.closed n a ha).ne]
  · show c.isSealed n = true ↔ _
    unfold Builder.isSealed
    rw [h.sealedBlocks, or_iff_left (hseals n)]
  · rw [hk] at hm
    rw [hb]
    split
    · rw [h.current]
      exact (hne.resolve_left hs).symm
    · rw [if_neg ‹_›] at hm
      exact h.isOpen ho m hm

theorem controls_newBlock (hwf : b.WellFormed) (role : String) :
    Controls (.newBlock role) b (b.newBlock role).2 := by
  let s : Stage := ⟨b, fun _ _ => none⟩
  have hs : (b.newBlock role).2.graph.size = b.graph.size + 1 := Graph.size_newBlock _ _
  have hb : ∀ m, m ≠ b.graph.size → (b.newBlock role).2.graph.blockOf m = b.graph.blockOf m :=
    fun m hm => (Graph.blockOf_newBlock b.graph role m).trans (if_neg hm)
  refine ⟨hs ▸ Nat.le_succ _, rfl, fun n => ?_, fun n _ => ?_, fun n => ?_, fun n ho _ m hm => ?_⟩
  · refine (Stage.isBlock_newBlock s role n).trans (or_comm.trans (or_congr_right ?_))
    exact ⟨fun he => ⟨role, rfl, he⟩, fun ⟨_, _, he⟩ => he⟩
  · refine Eq.trans ?_ (append_nil _).symm
    unfold Graph.preds
    rw [show (b.newBlock role).2.graph.operands n = b.graph.operands n from
      Graph.operands_newBlock b.graph role n]
    refine map_congr_left fun a ha => hb a (Nat.ne_of_lt ?_)
    exact hwf.coherent.closed n a ha
  · exact (or_iff_left nofun).symm
  · have ht : (b.graph.kind m).isTerminator = true :=
      (Stage.isTerminator_newBlock s role m).symm.trans hm
    rw [hb m (lt_of_isTerminator ht).ne]
    exact ho m ht

theorem controls_enter (b : Builder) (block : NodeId) :
    Controls (.enter block) b (b.enter block) where
  size_le := le_rfl
  current := rfl
  isBlock := fun _ => (or_iff_left fun ⟨_, he, _⟩ => nomatch he).symm
  preds := fun _ _ => (append_nil _).symm
  isSealed := fun _ => (or_iff_left nofun).symm
  isOpen := fun _ ho _ => ho

theorem controls_seals (hwf : b.WellFormed) (h : b.sealBlock block = .ok c) :
    Controls (.seals block) b c := by
  obtain ⟨e, hr, rfl⟩ := sealBlock_spec hwf h
  have hs := still_of_evolves hr.evolves
  refine ⟨hs.size_le, hs.current, fun n => ?_, fun n hn => ?_, fun n => ?_,
    fun n ho _ => hs.isOpen ho⟩
  · rw [← hs.isBlock_eq]
    exact (or_iff_left fun ⟨_, he, _⟩ => nomatch he).symm
  · exact (hs.preds hwf (hs.isBlock_eq n ▸ hn)).trans (append_nil _).symm
  · rw [isSealed_mark, or_comm, Request.seals.injEq, eq_comm (a := n)]
    unfold Builder.isSealed
    rw [hs.sealedBlocks]

/-- **What an answer does to the control flow.** -/
theorem controls_answer {answered : Option NodeId} (ho : Ongoing true b)
    (hv : r.Valid true b) (ha : b.answer r = .ok (answered, c)) : Controls r b c := by
  have hwf := ho.wf
  have hread : ∀ {slot block n c}, (b.graph.kind block).isBlock = true →
      b.read slot block = .ok (n, c) → Still b c ∧ c.WellFormed := fun hblock hc =>
    have hr := tidy_read hwf hblock hc
    ⟨still_of_evolves hr.evolves, hr.wf⟩
  cases reply_of_answer ha with
  | newBlock role => exact controls_newBlock hwf role
  | enter block => exact controls_enter b block
  | make hk =>
    have hp := Kind.isPlain_of_isShareable (Request.isShareable_of_kind? hk)
    refine (still_make b _ _ _ hp).controls hwf ?_
    cases r <;> first | rfl | cases hk
  | trapping hop hc =>
    exact ((hread ho.current hc).1.trans (still_trapping _ _ _ _ _)).controls hwf rfl
  | leave hk =>
    obtain ⟨ht, he, hb⟩ := Request.isTerminator_of_exit? hk
    exact (still_of_evolves (.refl 0 b)).controls_leave hwf hwf ht he fun n hn =>
      hv.blocks n (hb ▸ hn)
  | ret hc =>
    obtain ⟨hs, hwf'⟩ := hread ho.current hc
    exact hs.controls_leave hwf hwf' rfl rfl hv.blocks
  | write => exact (still_write _ _ _ _).controls hwf rfl
  | read hc =>
    exact (hread (hv.blocks _ (.head _)) hc).1.controls hwf rfl
  | seals hseal => exact controls_seals hwf hseal

end Builder

end SsaCompiler
