import SsaCompiler.Proofs.Graph.Available
import SsaCompiler.Proofs.Graph.Evaluation
import Mathlib.Data.List.NodupEquivFin

/-!
# The lines of a graph run as the graph does

The lines of a schedule are run from the first one on (`Line.Runs`). While the
lines of the last block of a path are run, **the registers carry the words of their
nodes** (`Schedule.Carries`): the register of a node that is ready has the node's
word along the path, unless copies have been made to it already, and then it has
the word of the merge along the edge that the copies are for.

A copy may set a register that another line of the same block reads only if the
merge's block dominates this one. Then the block ends in a plain jump
(`Schedule.Built.kind_eq_jump`), there is one edge to copy for, and nothing is read
after the copies. So a line sets its register to the word of its node, or it is a
division that traps (`Schedule.Carries.step`), and the end of the block goes where
the graph does. **A run of the graph is a run of the lines**
(`Schedule.Built.ends_lines`).
-/

namespace SsaCompiler

open List Option Graph Kind

open Liveness (lineAt)

variable {guard : NodeId → List Word → Prop} {edge' : Nat}

/-- **A node has a word** at the end of a path, computed from any words. -/
abbrev Graph.HasWord (g : Graph) : Path → NodeId → Word → Prop :=
  g.Gives fun _ _ => True

namespace Line

/-- **Lines run** from one line to another. -/
def Runs (lines : Array Line) : Nat × RegisterFile → Nat × RegisterFile → Prop :=
  Relation.ReflTransGen fun p q => (lineAt lines p.1).step p.2 = some (.goto q.1 q.2)

/-- The outcome of a run that is over. -/
def Outcome.final : Option Word → Outcome
  | some w => .returns w
  | none => .traps

/-- **A run of lines ends**: it returns a word, or traps. -/
def Ends (lines : Array Line) (start : Nat × RegisterFile) (word : Option Word) : Prop :=
  ∃ p, Runs lines start p ∧ (lineAt lines p.1).step p.2 = some (.final word)

end Line

theorem Kind.isProj_eq_false_of_isOrdinary {k : Kind} (h : k.isOrdinary) : k.isProj = false := by
  cases k <;> first | rfl | cases h

/-! ## Words of nodes -/

namespace Graph

variable {g : Graph} {path : Path} {n m : NodeId} {w : Word}

/-- **A value has the word of what computes it.** -/
theorem Computes.hasWord (h : g.Computes n m) (hw : g.HasWord path m w) : g.HasWord path n w := by
  rcases h.eq_or with rfl | ⟨hk, ho, ht⟩
  · exact hw
  have ha : g.arguments n = [m] := by
    rw [arguments, hk, ho]
    rfl
  have hp := isPhi_eq_false_of_mayTrap ht
  induction hw with
  | pass hne _ ih => exact .pass (h.block ▸ hne) (ih h ho ht ha hp)
  | merge _ hphi' => cases hp.symm.trans hphi'
  | @here path m V w hb hms hg hw _ =>
    have hwords : List.Forall₂ (g.HasWord path) (g.arguments n) [w] :=
      ha.symm ▸ .cons (.here hb hms hg hw) .nil
    refine gives_of_forall₂ _ (h.block ▸ hb) hwords trivial ?_
    rw [hk]
    rfl

theorem arguments_eq_pair {a b : NodeId} (hcount : (g.kind n).argumentCount = 2)
    (ha : (g.operands n)[0]? = some a) (hb : (g.operands n)[1]? = some b) :
    g.arguments n = [a, b] := by
  rw [arguments, hcount]
  cases ho : g.operands n with
  | nil => rw [ho] at ha; cases ha
  | cons x rest =>
    cases rest with
    | nil => rw [ho] at hb; cases hb
    | cons y rest =>
      rw [ho] at ha hb
      cases ha
      cases hb
      rfl

theorem TrapsAt.blockOf_eq (h : g.TrapsAt guard path n) : g.blockOf n = Path.last path := by
  obtain ⟨_, _, _, _, _, -, hb, -⟩ := h
  exact hb

theorem TrapsAt.mayTrap (h : g.TrapsAt guard path n) : (g.kind n).mayTrap := by
  obtain ⟨op, _, _, x, y, hk, -, -, -, -, ht⟩ := h
  rw [hk]
  by_contra hcalm
  have hsome := BinOp.eval_isSome (Bool.eq_false_iff.2 hcalm) x y
  rw [ht] at hsome
  cases hsome

/-- **A division that traps has no word.** -/
theorem TrapsAt.not_gives (h : g.TrapsAt guard path n) (hw : g.Gives guard path n w) : False := by
  obtain ⟨op, a, b, x, y, hk, hb, ha, hx, hy, ht⟩ := h
  obtain ⟨words, hwords, -, hr⟩ := hw.exists_words hb (by rw [hk]; rfl)
  rw [ha] at hwords
  cases hwords with
  | cons hx' hrest =>
    cases hrest with
    | cons hy' hrest =>
      cases hrest
      obtain rfl := hx.unique hx'
      obtain rfl := hy.unique hy'
      rw [hk] at hr
      cases ht.symm.trans hr

/-- **A jump leads to a block by one edge.** -/
theorem Regular.edge_unique {block t : NodeId} {edge : Nat} (h : g.Regular)
    (hb : (g.kind block).isBlock) (ht : (g.kind t).isTerminator)
    (he : (g.operands block)[edge]? = some t) (he' : (g.operands block)[edge']? = some t) :
    edge = edge' := by
  by_contra hne
  have hcount : (g.kind t).exits.count block ≤ 1 := by
    cases hk : g.kind t with
    | jump target | ret => exact List.count_le_length
    | condJump ifTrue ifFalse =>
      have hn : [ifTrue, ifFalse].Nodup := by simp [(h.branches t _ _ hk).1]
      exact List.nodup_iff_count_le_one.1 hn block
    | _ => rw [hk] at ht; cases ht
  rw [← h.edges block hb t ht] at hcount
  have hdup : (g.operands block).Duplicate t := by
    obtain ⟨hi, hi'⟩ := List.getElem?_eq_some_iff.1 he
    obtain ⟨hj, hj'⟩ := List.getElem?_eq_some_iff.1 he'
    rcases Nat.lt_or_gt_of_ne hne with hlt | hlt
    · exact List.duplicate_iff_exists_distinct_get.2 ⟨⟨edge, hi⟩, ⟨edge', hj⟩, hlt, hi'.symm, hj'.symm⟩
    · exact List.duplicate_iff_exists_distinct_get.2 ⟨⟨edge', hj⟩, ⟨edge, hi⟩, hlt, hj'.symm, hi'.symm⟩
  exact absurd (List.duplicate_iff_two_le_count.1 hdup) (Nat.not_le.2 (Nat.lt_succ_of_le hcount))

end Graph

namespace Schedule

variable {g : Graph} {dead : NodeId → Prop} {s : Schedule} {ends : List NodeId}
  {n t block target : NodeId} {i edge : Nat} {b : ScheduledBlock} {past rest : List Item}
  {item item' : Item} {lines : Array Line} {r : VReg} {path : Path} {file : RegisterFile} {w : Word}

/-! ## Copies -/

namespace Built

variable (hs : s.Built g ends)

include hs

theorem filter_items (hb : b ∈ s.blocks) :
    b.items.filter (·.node?.isNone) = s.copiesIn g b.block := by
  obtain ⟨-, t, -, hi⟩ := hs.of_mem_blocks hb
  have hn : ∀ nodes : List NodeId, (nodes.map Item.node).filter (·.node?.isNone) = [] :=
    fun nodes => by simp [Item.node?]
  have hcopies : (s.copiesIn g b.block).filter (·.node?.isNone) = s.copiesIn g b.block :=
    filter_eq_self.2 fun item hitem => by rw [node?_copiesIn hitem]; rfl
  rw [hi, body, filter_append, filter_append, hn, hcopies]
  exact append_nil _

theorem mem_copiesIn_of_mem_past (hat : s.At i b past item rest)
    (hmem : .phiMoves target edge ∈ past) : .phiMoves target edge ∈ s.copiesIn g b.block := by
  rw [← hs.filter_items hat.mem_blocks, hat.split]
  exact mem_filter.2 ⟨mem_append_left _ hmem, rfl⟩

theorem copies_not_mem_past (hat : s.At i b past (.phiMoves target edge) rest) :
    .phiMoves target edge ∉ past := fun hmem => by
  have hn := nodup_copiesIn g s b.block
  rw [← hs.filter_items hat.mem_blocks, hat.split, filter_append]
    at hn
  exact (nodup_append.1 hn).2.2 _ (mem_filter.2 ⟨hmem, rfl⟩) _ (.head _) rfl

variable (h : g.Complete dead)

include h

section

variable (hend : g.terminator? block = some t) (hcopy : .phiMoves target edge ∈ s.copiesIn g block)

include hend hcopy

/-- **Copies are made for an edge from the end of the block.** -/
theorem edge_of_copies :
    target ∈ g.layout ∧ (g.operands target)[edge]? = some t ∧ target ∈ (g.kind t).exits := by
  obtain ⟨_, _, he, hl, -, hp⟩ := hs.mem_copiesIn.1 hcopy
  cases he
  obtain ⟨ht, hh⟩ := terminator?_eq_some hend
  obtain ⟨jump, hj, ht', hh', hexit⟩ :=
    h.exists_jump (h.reaches_of_mem_layout hl).1 hp
  obtain rfl := h.single jump t ht' ht (hh'.trans hh.symm)
  exact ⟨hl, hj, hexit⟩

/-- There is one edge to a block to copy for. -/
theorem copies_unique (hcopy' : .phiMoves target edge' ∈ s.copiesIn g block) : edge = edge' := by
  obtain ⟨hl, he, -⟩ := hs.edge_of_copies h hend hcopy
  obtain ⟨-, he', -⟩ := hs.edge_of_copies h hend hcopy'
  exact h.edge_unique (h.reaches_of_mem_layout hl).1
    (terminator?_eq_some hend).1 he he'

/-- **Copies to a block that dominates this one** are made before a plain jump
only, since a path comes to a jump on a condition before it comes to the targets. -/
theorem kind_eq_jump (hdom : Dominates g.preds target block) : g.kind t = .jump target := by
  obtain ⟨hl, -, he⟩ := hs.edge_of_copies h hend hcopy
  obtain ⟨ht, hh⟩ := terminator?_eq_some hend
  cases hk : g.kind t with
  | jump next =>
    rw [hk] at he
    rw [mem_singleton.1 he]
  | condJump ifTrue ifFalse =>
    obtain ⟨-, path, hp, hlast, hnot, hnot'⟩ := h.branches t ifTrue ifFalse hk
    have hv := hdom path hp (hlast.trans hh)
    rw [hk] at he
    rcases mem_pair.1 he with rfl | rfl
    · exact absurd hv hnot
    · exact absurd hv hnot'
  | ret =>
    rw [hk] at he
    exact absurd (mem_singleton.1 he) (h.reaches_of_mem_layout hl).2.2
  | _ => rw [hk] at ht; cases ht

end

end Built

/-! ## The registers along a path -/

/-- No copies to a node have been made. -/
def Kept (g : Graph) (s : Schedule) (past : List Item) (n : NodeId) : Prop :=
  n ∈ s.valuePhis (g.blockOf n) → ∀ edge, .phiMoves (g.blockOf n) edge ∉ past

/-- **The registers carry the words of their nodes** at the end of a path, after
some items of its last block. -/
structure Carries (g : Graph) (s : Schedule) (path : Path) (past : List Item)
    (file : RegisterFile) : Prop where
  held : ∀ r n, s.Owns g r n → Ready g (Path.last path) past n → s.Kept g past n →
    g.HasWord path n (file r)
  copied : ∀ r n target edge, s.Owns g r n → n ∈ s.valuePhis target →
    .phiMoves target edge ∈ past → g.HasWord ((target, edge) :: path) n (file r)

theorem Owns.unique_register {r' : VReg} (h : s.Owns g r n) (h' : s.Owns g r' n) : r = r' :=
  some.inj (h.symm.trans h')

/-- **A register is set to the word of its node.** -/
theorem Carries.set (hc : s.Carries g path past file) (hs : s.Built g ends) (hn : s.Owns g r n)
    (hphi : (g.kind n).isPhi = false) (hw : g.HasWord path n w) :
    s.Carries g path (past ++ [.node n]) (Function.update file r w) := by
  constructor
  · intro r' m hm hr hk
    by_cases he : r' = r
    · subst he
      obtain rfl := hn.unique hm
      rw [Function.update_self]
      exact hw
    · rw [Function.update_of_ne he]
      refine hc.held r' m hm ⟨hr.dominates, fun hb => (hr.computed hb).imp_right ?_⟩
        fun hmem edge hedge => hk hmem edge (mem_append_left _ hedge)
      intro hmem
      refine (mem_append.1 hmem).resolve_right fun hmem => he ?_
      cases mem_singleton.1 hmem
      exact hm.unique_register hn
  · intro r' m target edge hm hmem hcopy
    have hcopy : .phiMoves target edge ∈ past :=
      (mem_append.1 hcopy).resolve_right fun hcopy => absurd (mem_singleton.1 hcopy) nofun
    have hne : r' ≠ r := fun he => by
      subst he
      obtain rfl := hn.unique hm
      cases hphi.symm.trans (isPhi_of_isValuePhi (hs.mem_valuePhis hmem).2.1)
    rw [Function.update_of_ne hne]
    exact hc.copied r' m target edge hm hmem hcopy

section Step

variable (hs : s.Built g ends) (h : g.Complete dead) (hc : s.Carries g path past file)

include hs h hc

/-- **A node reads the words of its operands.** -/
theorem Carries.reads {index : Nat} (hat : s.At i b past (.node n) rest)
    (hl : Path.last path = b.block) (hop : (s.context g).operand n index = .ok r)
    (ht : (g.kind n).takes index = some .value) :
    ∃ a, (g.operands n)[index]? = some a ∧ g.HasWord path a (file r) := by
  obtain ⟨a, m, ha, hm, ho, hr⟩ := hs.exists_ready h hat hop ht
  refine ⟨a, ha, hm.hasWord (hc.held r m ho (hl ▸ hr) fun _ edge hedge => ?_)⟩
  have hcopy := hs.mem_copiesIn_of_mem_past hat hedge
  have hshape := hs.shape hat
  generalize b.block = block at hr hcopy hshape
  cases hshape with
  | member =>
    obtain ⟨_, -, he⟩ := mem_map.1 hedge
    cases he
  | copy _ hcopy => cases node?_copiesIn hcopy
  | final hend =>
    -- A plain jump reads nothing.
    rw [hs.kind_eq_jump h hend hcopy hr.dominates] at ht
    cases ht

/-- **Copies read the words of the merges' operands.** -/
theorem Carries.reads_copy {phi : NodeId} (hat : s.At i b past (.phiMoves target edge) rest)
    (hl : Path.last path = b.block) (hphi : phi ∈ s.valuePhis target)
    (hop : (s.context g).operand phi edge = .ok r) :
    ∃ a, (g.operands phi)[edge]? = some a ∧ g.HasWord path a (file r) := by
  obtain ⟨a, m, ha, hm, ho, hr⟩ := hs.exists_ready_copy h hat hphi hop
  refine ⟨a, ha, hm.hasWord (hc.held r m ho (hl ▸ hr) fun _ edge' he' => ?_)⟩
  have hcopy := hs.mem_copiesIn_of_mem_past hat he'
  obtain ⟨-, t, hend, -⟩ := hs.of_mem_blocks hat.mem_blocks
  have hk := hs.kind_eq_jump h hend hcopy hr.dominates
  -- Then the copies were for the same edge, and have been made already.
  have hcopy' : .phiMoves target edge ∈ s.copiesIn g b.block := by
    rw [← hs.filter_items hat.mem_blocks, hat.split]
    exact mem_filter.2 ⟨mem_append_right _ (.head _), rfl⟩
  obtain ⟨-, -, he⟩ := hs.edge_of_copies h hend hcopy'
  rw [hk] at he
  obtain rfl := mem_singleton.1 he
  obtain rfl := hs.copies_unique h hend hcopy' hcopy
  exact hs.copies_not_mem_past hat he'

/-- **Copies set the registers of merges** to their words along the edge. -/
theorem Carries.copy {copies : List (VReg × VReg)}
    (hat : s.At i b past (.phiMoves target edge) rest) (hl : Path.last path = b.block)
    (hall : List.Forall₂ (fun phi copy => (s.context g).register phi = .ok copy.1 ∧
      (s.context g).operand phi edge = .ok copy.2) (s.valuePhis target) copies) :
    s.Carries g path (past ++ [.phiMoves target edge])
      (file.assignAll (copies.map (·.1)) (copies.map (·.2))) := by
  have howner : ∀ r ∈ copies.map (·.1), ∃ phi ∈ s.valuePhis target, s.Owns g r phi := by
    intro r hr
    obtain ⟨copy, hcopy, rfl⟩ := mem_map.1 hr
    obtain ⟨phi, hphi, hd, -⟩ := exists_mem_of_mem_right hall hcopy
    refine ⟨phi, hphi, ?_⟩
    have ho := owns_of_register hd
    rwa [producer_of_not_isProj (isProj_eq_false_of_holdsValue
      (holdsValue_of_isValuePhi (hs.mem_valuePhis hphi).2.1))] at ho
  constructor
  · intro r n hn hready hk
    have hnot : r ∉ copies.map (·.1) := fun hr => by
      obtain ⟨phi, hphi, ho⟩ := howner r hr
      obtain rfl := hn.unique ho
      obtain ⟨-, -, rfl⟩ := hs.mem_valuePhis hphi
      exact hk hphi edge (mem_append_right _ (.head _))
    rw [RegisterFile.assignAll_of_not_mem hnot]
    refine hc.held r n hn ⟨hready.dominates, fun hb => (hready.computed hb).imp_right ?_⟩
      fun hm edge he => hk hm edge (mem_append_left _ he)
    exact fun hm => (mem_append.1 hm).resolve_right fun hm =>
      absurd (mem_singleton.1 hm) nofun
  · intro r n target' edge' hn hm hcopied
    rcases mem_append.1 hcopied with hp | hnew
    · have hnot : r ∉ copies.map (·.1) := fun hr => by
        obtain ⟨phi, hphi, ho⟩ := howner r hr
        obtain rfl := hn.unique ho
        obtain ⟨-, -, rfl⟩ := hs.mem_valuePhis hphi
        obtain ⟨-, -, rfl⟩ := hs.mem_valuePhis hm
        obtain ⟨-, t, hend, -⟩ := hs.of_mem_blocks hat.mem_blocks
        have hcopy : .phiMoves (g.blockOf phi) edge ∈ s.copiesIn g b.block := by
          rw [← hs.filter_items hat.mem_blocks, hat.split]
          exact mem_filter.2 ⟨mem_append_right _ (.head _), rfl⟩
        obtain rfl := hs.copies_unique h hend hcopy (hs.mem_copiesIn_of_mem_past hat hp)
        exact hs.copies_not_mem_past hat hp
      rw [RegisterFile.assignAll_of_not_mem hnot]
      exact hc.copied r n target' edge' hn hm hp
    · cases mem_singleton.1 hnew
      obtain ⟨copy, hcopy, hd, hu⟩ := exists_mem_of_mem_left hall hm
      obtain ⟨-, hphi, hb⟩ := hs.mem_valuePhis hm
      obtain ⟨a, ha, hw⟩ := hc.reads_copy hs h hat hl hm hu
      have ho := owns_of_register hd
      rw [producer_of_not_isProj (isProj_eq_false_of_holdsValue
        (holdsValue_of_isValuePhi hphi))] at ho
      obtain rfl := hn.unique_register ho
      have hzip : (copy.1, copy.2) ∈ (copies.map (·.1)).zip (copies.map (·.2)) := by
        rw [zip_map']
        exact mem_map_of_mem hcopy
      rw [RegisterFile.assignAll_of_mem (hs.nodup_registers hall) hzip]
      exact .merge hb (isPhi_of_isValuePhi hphi) ha hw

variable (hlines : Line.ofSchedule g s (s.numbering g) = .ok lines)

include hlines

/-- **The line of a member** sets its register to its word, or traps. -/
theorem Carries.member (hat : s.At i b past (.node n) rest) (hl : Path.last path = b.block)
    (hkind : (g.kind n).isOrdinary) (hblock : g.blockOf n = b.block) :
    (∃ file', (lineAt lines i).step file = some (.goto (i + 1) file') ∧
        s.Carries g path (past ++ [.node n]) file') ∨
      (lineAt lines i).step file = some .traps ∧ g.TrapsAt (fun _ _ => True) path n := by
  have hphi := (of_isOrdinary hkind).1
  have hset : ∀ {d words w}, (s.context g).register n = .ok d →
      List.Forall₂ (g.HasWord path) (g.arguments n) words → (g.kind n).result? words = some w →
      s.Carries g path (past ++ [.node n]) (Function.update file d w) := fun hd hwords hw => by
    have ho := owns_of_register hd
    rw [producer_of_not_isProj (isProj_eq_false_of_isOrdinary hkind)] at ho
    exact hc.set hs ho hphi (gives_of_forall₂ _ (hblock.trans hl.symm) hwords trivial hw)
  have hp : ∀ {x y}, (s.context g).operand n 0 = .ok x → (s.context g).operand n 1 = .ok y →
      (g.kind n).takes 0 = some .value → (g.kind n).takes 1 = some .value →
      (g.kind n).argumentCount = 2 → ∃ a b, g.arguments n = [a, b] ∧ g.HasWord path a (file x) ∧
        g.HasWord path b (file y) := fun hx hy ht ht' hcount => by
    obtain ⟨a, ha, hwa⟩ := hc.reads hs h hat hl hx ht
    obtain ⟨b, hb, hwb⟩ := hc.reads hs h hat hl hy ht'
    exact ⟨a, b, arguments_eq_pair hcount ha hb, hwa, hwb⟩
  have hn := Line.Context.nodeLine_eq_ok (hat.line_eq hlines)
  generalize lineAt lines i = line at hn
  have hk' : ∀ {k}, (s.context g).graph.kind n = k → g.kind n = k := id
  cases hn with
  | @load w d hk hd =>
    have hwords : List.Forall₂ (g.HasWord path) (g.arguments n) [] := by
      rw [Graph.arguments, show (g.kind n).argumentCount = 0 from argumentCount_of_constant? hk]
      exact .nil
    exact .inl ⟨_, rfl, hset hd hwords (result?_of_constant? hk _)⟩
  | @binary op d x y hk hd hx hy =>
    have hk := hk' hk
    obtain ⟨a, b, hargs, hwa, hwb⟩ := hp hx hy (by rw [hk]; rfl) (by rw [hk]; rfl) (by rw [hk]; rfl)
    cases hw : op.eval (file x) (file y) with
    | none =>
      refine .inr ⟨?_, op, a, b, _, _, hk, hblock.trans hl.symm, hargs, hwa, hwb, hw⟩
      show some (Line.Outcome.set file d (i + 1) (op.eval (file x) (file y))) = _
      rw [hw]
      rfl
    | some w =>
      have hwords : List.Forall₂ (g.HasWord path) (g.arguments n) [file x, file y] :=
        hargs.symm ▸ .cons hwa (.cons hwb .nil)
      refine .inl ⟨Function.update file d w, ?_, hset hd hwords (by rw [hk]; exact hw)⟩
      show some (Line.Outcome.set file d (i + 1) (op.eval (file x) (file y))) = _
      rw [hw]
      rfl
  | @compare op d x y hk hd hx hy =>
    have hk := hk' hk
    obtain ⟨a, b, hargs, hwa, hwb⟩ := hp hx hy (by rw [hk]; rfl) (by rw [hk]; rfl) (by rw [hk]; rfl)
    have hwords : List.Forall₂ (g.HasWord path) (g.arguments n) [file x, file y] :=
      hargs.symm ▸ .cons hwa (.cons hwb .nil)
    exact .inl ⟨_, rfl, hset hd hwords (by rw [hk]; rfl)⟩
  | jump hk | condJump hk | ret hk => rw [hk' hk] at hkind; cases hkind

/-- **A line of a block that is not its end** goes on to the line below, and the
registers carry the words of their nodes again, or it is a division that traps. -/
theorem Carries.step (hat : s.At i b past item (item' :: rest)) (hl : Path.last path = b.block) :
    (∃ file', (lineAt lines i).step file = some (.goto (i + 1) file') ∧
        s.Carries g path (past ++ [item]) file') ∨
      (lineAt lines i).step file = some .traps ∧ ∃ d, g.TrapsAt (fun _ _ => True) path d := by
  cases item with
  | node n =>
    have hshape := hs.shape hat
    generalize hr : item' :: rest = later at hshape
    cases hshape with
    | member hm =>
      obtain ⟨-, hk, hb⟩ := mem_members.1
        (hm ▸ mem_append_right _ mem_cons_self : n ∈ s.members g b.block)
      exact (hc.member hs h hlines hat hl hk hb).imp_right fun ⟨hstep, ht⟩ =>
        ⟨hstep, n, ht⟩
    | copy _ hcopy => cases node?_copiesIn hcopy
    | final => cases hr
  | phiMoves target edge =>
    obtain ⟨copies, hall, hline⟩ := Line.Context.phiMoves_eq_ok (hat.line_eq hlines)
    rw [hline]
    exact .inl ⟨_, rfl, hc.copy hs h hat hl hall⟩

omit hc in
/-- **The lines of a block run to its end**, or come to a division that traps. -/
theorem Carries.run (hc : s.Carries g path past file) (hat : s.At i b past item rest)
    (hl : Path.last path = b.block) (hend : g.terminator? b.block = some t) :
    (∃ j file', Line.Runs lines (i, file) (j, file') ∧
        s.At j b (s.body g b.block) (.node t) [] ∧ s.Carries g path (s.body g b.block) file') ∨
      Line.Ends lines (i, file) none ∧ ∃ d, g.TrapsAt (fun _ _ => True) path d := by
  induction rest generalizing i past item file with
  | nil =>
    have hshape := hs.shape hat
    generalize hb : b.block = block at hend hshape
    cases hshape with
    | final hend' =>
      cases hend'.symm.trans hend
      subst hb
      exact .inl ⟨i, file, .refl, hat, hc⟩
  | cons item' rest ih =>
    rcases hc.step hs h hlines hat hl with ⟨file', hstep, hc'⟩ | ⟨hstep, ht⟩
    · rcases ih hc' hat.next with ⟨j, last, hr, hat', hc''⟩ | ⟨⟨p, hr, htrap⟩, ht⟩
      · exact .inl ⟨j, last, .head hstep hr, hat', hc''⟩
      · exact .inr ⟨⟨p, .head hstep hr, htrap⟩, ht⟩
    · exact .inr ⟨⟨_, .refl, hstep⟩, ht⟩

omit hc hlines in
/-- **At the end of a block the registers carry the words along the edge** that
control takes. -/
theorem Carries.enter (hc : s.Carries g path (s.body g block) file) (hlast : Path.last path = block)
    (hl : block ∈ g.layout) (hend : g.terminator? block = some t)
    (hmem : target ∈ g.targets t) (hedge : (g.operands target)[edge]? = some t) :
    s.Carries g ((target, edge) :: path) [] file := by
  refine ⟨fun r n hn hr _ => ?_, fun _ _ _ _ _ _ hcopy => absurd hcopy not_mem_nil⟩
  obtain ⟨hterm, hh⟩ := terminator?_eq_some hend
  obtain ⟨hscheduled, hholds⟩ := hs.mem_scheduled_of_owns h hn
  have ht := h.mem_layout_of_target hterm (hh.symm ▸ hl) hmem
  have hp : (g.preds target)[edge]? = some block := by
    rw [Graph.preds, getElem?_map, hedge, ← hh]
    rfl
  have hnodes : ∀ m ∈ s.members g block, .node m ∈ s.body g block := fun m hm =>
    mem_append_left _ (mem_map_of_mem hm)
  by_cases hb : g.blockOf n = target
  · have hphi := (hr.computed hb).resolve_right not_mem_nil
    have hv := hs.mem_valuePhis_of_owns h hn hphi (hb ▸ ht)
    rw [hb] at hv
    refine hc.copied r n target edge hn hv (mem_append_right _ (hs.mem_copiesIn.2 ?_))
    exact ⟨target, edge, rfl, ht, ne_nil_of_mem hv, hp⟩
  · have hd : Dominates g.preds (g.blockOf n) block := hr.dominates.of_edge hb hp
    have hr : Ready g block (s.body g block) n :=
      ready_of_dominates hscheduled hholds hd hnodes
    refine .pass hb (hc.held r n hn (hlast ▸ hr) ?_)
    -- A merge that was copied to dominates this block only if control goes there.
    intro _ edge' hcopy
    have hcopy : .phiMoves (g.blockOf n) edge' ∈ s.copiesIn g block := by
      refine (mem_append.1 hcopy).resolve_left fun hnode => ?_
      obtain ⟨_, -, he⟩ := mem_map.1 hnode
      cases he
    rw [Graph.targets, hs.kind_eq_jump h hend hcopy hd] at hmem
    exact hb (mem_singleton.1 hmem).symm

/-- **The end of a block goes where the graph does.** -/
theorem Carries.turns (hat : s.At i b past (.node t) rest) (hl : Path.last path = b.block)
    (ht : g.Turns (fun _ _ => True) path t target) :
    ∃ j b' item' rest', (lineAt lines i).step file = some (.goto j file) ∧
      s.At j b' [] item' rest' ∧ b'.block = target := by
  have hn := Line.Context.nodeLine_eq_ok (hat.line_eq hlines)
  generalize lineAt lines i = line at hn
  cases ht with
  | always hkind =>
    cases hn with
    | @jump block j hk hj =>
      cases hk.symm.trans hkind
      obtain ⟨b', item', rest', hat', hb'⟩ := hs.at_target hj
      exact ⟨j, b', item', rest', rfl, hat', hb'⟩
    | load hk => rw [show (s.context g).graph.kind t = _ from hkind] at hk; cases hk
    | binary hk | compare hk | condJump hk | ret hk => cases hk.symm.trans hkind
  | @branch ifTrue ifFalse cond w hkind hops hw =>
    cases hn with
    | @condJump block block' u yes no hk hu hyes hno =>
      cases hk.symm.trans hkind
      obtain ⟨a, ha, hwa⟩ := hc.reads hs h hat hl hu (by rw [hkind]; rfl)
      rw [hops] at ha
      cases ha
      obtain rfl := hw.unique hwa
      by_cases hz : file u ≠ 0
      · obtain ⟨b', item', rest', hat', hb'⟩ := hs.at_target hyes
        refine ⟨yes, b', item', rest', ?_, hat', hb'.trans (if_pos hz).symm⟩
        show some (Line.Outcome.goto (if file u ≠ 0 then yes else no) file) = _
        rw [if_pos hz]
      · obtain ⟨b', item', rest', hat', hb'⟩ := hs.at_target hno
        refine ⟨no, b', item', rest', ?_, hat', hb'.trans (if_neg hz).symm⟩
        show some (Line.Outcome.goto (if file u ≠ 0 then yes else no) file) = _
        rw [if_neg hz]
    | load hk => rw [show (s.context g).graph.kind t = _ from hkind] at hk; cases hk
    | binary hk | compare hk | jump hk | ret hk => cases hk.symm.trans hkind

/-- **A return returns the word of its operand.** -/
theorem Carries.returns {effect value : NodeId} (hat : s.At i b past (.node t) rest)
    (hl : Path.last path = b.block) (hkind : g.kind t = .ret)
    (hops : g.operands t = [effect, value]) (hw : g.HasWord path value w) :
    (lineAt lines i).step file = some (.returns w) := by
  have hn := Line.Context.nodeLine_eq_ok (hat.line_eq hlines)
  generalize lineAt lines i = line at hn
  cases hn with
  | @ret u hk hu =>
    obtain ⟨a, ha, hwa⟩ := hc.reads hs h hat hl hu (by rw [hkind]; rfl)
    rw [hops] at ha
    cases ha
    obtain rfl := hw.unique hwa
    rfl
  | load hk => rw [show (s.context g).graph.kind t = _ from hkind] at hk; cases hk
  | binary hk | compare hk | jump hk | condJump hk => cases hk.symm.trans hkind

end Step

/-! ## Runs -/

section Runs

variable (hs : s.Built g ends) (h : g.Complete dead)

include hs h

/-- No register has to carry anything where a run begins. -/
theorem Carries.first (file : RegisterFile) : s.Carries g [] [] file := by
  refine ⟨fun r n hn hr _ => ?_, fun _ _ _ _ _ _ hcopy => absurd hcopy not_mem_nil⟩
  have hb : g.blockOf n = Graph.startBlock := hr.dominates [] .nil rfl
  have hphi := (hr.computed hb).resolve_right not_mem_nil
  exact absurd hb (h.unmerged n hphi (hs.selected h (hs.mem_scheduled_of_owns h hn).1).live)

variable (hlines : Line.ofSchedule g s (s.numbering g) = .ok lines)

include hlines

/-- **Where no division traps, the lines of a block run to its end.** -/
theorem Carries.run_of_settles (hc : s.Carries g path [] file) (hat : s.At i b [] item rest)
    (hl : Path.last path = b.block) (hend : g.terminator? b.block = some t)
    (hsettles : g.Settles (fun _ _ => True) path) :
    ∃ j file', Line.Runs lines (i, file) (j, file') ∧
      s.At j b (s.body g b.block) (.node t) [] ∧ s.Carries g path (s.body g b.block) file' := by
  refine (hc.run hs h hlines hat hl hend).resolve_right fun ⟨_, d, ht⟩ => ?_
  obtain ⟨w, hw⟩ := hsettles d ht.mayTrap ht.blockOf_eq
  exact ht.not_gives hw

/-- **Where control comes along a path, the lines come as well.** -/
theorem exists_carries (hcomes : g.Comes (fun _ _ => True) path) (first : RegisterFile) :
    ∃ i b item rest file, Line.Runs lines (0, first) (i, file) ∧ s.At i b [] item rest ∧
      Path.last path = b.block ∧ s.Carries g path [] file := by
  induction hcomes with
  | nil =>
    obtain ⟨b, item, rest, hat, hb⟩ := hs.at_zero h.toRegular
    exact ⟨0, b, item, rest, first, .refl, hat, hb.symm, .first hs h first⟩
  | @cons path jump target edge _ hsettles hh ht he ih =>
    obtain ⟨i, b, item, rest, file, hr, hat, hl, hc⟩ := ih
    obtain ⟨hterm, hmem⟩ := ht.mem_targets
    have hend : g.terminator? b.block = some jump := by
      rw [← hl, ← hh]
      exact h.terminator?_eq hterm
    have hlayout : b.block ∈ g.layout := hs.map_block ▸ mem_map_of_mem hat.mem_blocks
    obtain ⟨j, file', hr', hat', hc'⟩ := hc.run_of_settles hs h hlines hat hl hend hsettles
    obtain ⟨k, b', item', rest', hstep, hat'', hb⟩ := hc'.turns hs h hlines hat' hl ht
    exact ⟨k, b', item', rest', file', (hr.trans hr').tail hstep, hat'', hb.symm,
      hc'.enter hs h hl hlayout hend hmem he⟩

/-- **A run of the graph is a run of the lines**, from any registers. -/
theorem Built.ends_lines {word : Option Word} (he : g.Ends (fun _ _ => True) word)
    (htraps : ∀ d, (g.kind d).mayTrap → g.blockOf d ∈ g.layout → d ∈ s.scheduled g)
    (first : RegisterFile) : Line.Ends lines (0, first) word := by
  cases he with
  | @returns path jump effect value w hcomes hsettles hhome hk hops hw =>
    obtain ⟨i, b, item, rest, file, hruns, hat, hl, hc⟩ := exists_carries hs h hlines hcomes first
    have hend : g.terminator? b.block = some jump := by
      rw [← hl, ← hhome]
      exact h.terminator?_eq (by rw [hk]; rfl)
    obtain ⟨j, file', hruns', hat', hc'⟩ := hc.run_of_settles hs h hlines hat hl hend hsettles
    exact ⟨_, hruns.trans hruns', hc'.returns hs h hlines hat' hl hk hops hw⟩
  | @traps path d hcomes ht =>
    obtain ⟨i, b, item, rest, file, hruns, hat, hl, hc⟩ := exists_carries hs h hlines hcomes first
    obtain ⟨-, t, hend, -⟩ := hs.of_mem_blocks hat.mem_blocks
    have hlayout : b.block ∈ g.layout := hs.map_block ▸ mem_map_of_mem hat.mem_blocks
    rcases hc.run hs h hlines hat hl hend with ⟨j, file', -, hat', hc'⟩ | ⟨⟨p, hruns', hstep⟩, -⟩
    · -- At the end of the block the division would have a word.
      have hb := ht.blockOf_eq.trans hl
      have hh := holdsValue_of_mayTrap ht.mayTrap
      have hscheduled := htraps d ht.mayTrap (hb ▸ hlayout)
      have hp := isPhi_eq_false_of_mayTrap ht.mayTrap
      obtain ⟨r, hr⟩ := register_of_holdsValue hscheduled hh
      have ho := owns_of_register hr
      rw [producer_of_not_isProj (isProj_eq_false_of_holdsValue hh)] at ho
      have hm : d ∈ s.members g b.block :=
        mem_members.2 ⟨hscheduled, isOrdinary_of_holdsValue hh hp, hb⟩
      refine absurd (hc'.held r d ho ⟨?_, fun _ => .inr ?_⟩ fun hv => ?_) ht.not_gives
      · rw [ht.blockOf_eq]
        exact .refl g.preds _
      · exact mem_append_left _ (mem_map_of_mem hm)
      · cases hp.symm.trans (isPhi_of_isValuePhi (hs.mem_valuePhis hv).2.1)
    · exact ⟨p, hruns.trans hruns', hstep⟩

end Runs

end Schedule

end SsaCompiler
