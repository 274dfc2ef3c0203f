import SsaCompiler.Proofs.Emission.Layout
import SsaCompiler.Proofs.Schedule.Placement

/-!
# Complete graphs become lines and code

The schedule of a complete graph holds all that its nodes depend on. A value that
is used is computed by a scheduled node with a register (`Schedule.Built.register`),
a merge has a source for every edge, and jumps go to laid-out blocks. So **every
item has its line** (`Schedule.Built.exists_lines`), and as the registers of lines
have places, **every item is emitted**, whatever the machine registers are
(`Placed.exists_function`).
-/

namespace SsaCompiler

open List Option SsaCompiler.Except Kind

open Liveness (lineAt)

variable {k : Kind} {item : Item}

theorem Kind.isProj_eq_false_of_holdsValue (h : k.holdsValue) : k.isProj = false := by
  cases k <;> first | rfl | cases h

theorem Kind.holdsValue_of_mayTrap (h : k.mayTrap) : k.holdsValue := by
  cases k <;> first | rfl | cases h

theorem Kind.holdsValue_of_isValue (h : k.isValue) (hc : k ≠ .condValue)
    (hp : k.isProj = false) : k.holdsValue := by
  cases k with
  | condValue => exact absurd rfl hc
  | proj => cases hp
  | phi channel =>
    cases channel with
    | value => rfl
    | effect => cases h
  | constInt | constBool | undefined | binary | compare => rfl
  | _ => cases h

theorem Kind.holdsValue_of_isValuePhi (h : k.isValuePhi) : k.holdsValue := by
  cases k with
  | phi channel =>
    cases channel with
    | value => rfl
    | effect => cases h
  | _ => cases h

theorem Kind.takes_of_isValuePhi (h : k.isValuePhi) {index : Nat} :
    k.takes index = some .value := by
  cases k with
  | phi channel =>
    cases channel with
    | value => rfl
    | effect => cases h
  | _ => cases h

namespace Graph

variable {g : Graph} {dead : NodeId → Prop} {n m : NodeId}

theorem producer_of_operands (hn : (g.kind n).isProj) (hlt : n < g.size)
    (hops : g.operands n = [m]) (hm : (g.kind m).isProj = false) : g.producer n = m := by
  unfold producer
  obtain ⟨size, hsize⟩ : ∃ size, g.size = size + 1 :=
    ⟨g.size - 1, (Nat.succ_pred_eq_of_pos ((Nat.zero_le n).trans_lt hlt)).symm⟩
  rw [hsize]
  unfold producerWithin
  rw [if_pos hn, hops]
  show g.producerWithin size m = m
  cases size with
  | zero => rfl
  | succ size => rw [producerWithin, if_neg (by rw [hm]; decide)]

/-- **What a node stands for is computed by the node itself**, or it is an output
of an operation next to it. -/
theorem Complete.producer_eq_or (h : g.Complete dead) (hn : g.Selected dead n) (hlt : n < g.size) :
    g.producer n = n ∨ g.operands n = [g.producer n] ∧ (g.kind n).isProj ∧
      g.blockOf (g.producer n) = g.blockOf n := by
  by_cases hp : (g.kind n).isProj = true
  · obtain ⟨channel, hk⟩ := exists_eq_proj hp
    obtain ⟨m, ho⟩ := length_eq_one_iff.1 (hn.whole 1 (by rw [hk]; rfl))
    obtain ⟨hb, hkinds⟩ :=
      (h.strict.formed n).output channel hk m (ho ▸ mem_singleton_self m)
    have hm : (g.kind m).isProj = false := by
      rcases hkinds with ht | ⟨-, hstart⟩
      · exact isProj_eq_false_of_holdsValue (holdsValue_of_mayTrap ht)
      · rw [hstart]
        rfl
    rw [producer_of_operands hp hlt ho hm]
    exact .inr ⟨ho, hp, hb⟩
  · exact .inl (producer_of_not_isProj (Bool.eq_false_iff.2 hp))

/-- **What computes a value**: the node itself, or the operation whose result it
is. -/
structure Computes (g : Graph) (n m : NodeId) : Prop where
  producer : g.producer n = m
  holdsValue : (g.kind m).holdsValue = true
  block : g.blockOf m = g.blockOf n
  eq_or : m = n ∨ g.kind n = .proj .value ∧ g.operands n = [m] ∧ (g.kind m).mayTrap = true

/-- **Every value in use is computed.** -/
theorem Complete.exists_computes (h : g.Complete dead) (hn : g.IsValue n) (hlt : n < g.size)
    (hlive : ¬ dead n) : ∃ m, g.Computes n m := by
  by_cases hp : (g.kind n).isProj = true
  · have hkind : g.kind n = .proj .value := by
      have hv := hn.isValue
      obtain ⟨channel, hk⟩ := exists_eq_proj hp
      rw [hk] at hv ⊢
      cases channel with
      | value => rfl
      | effect => cases hv
    have hl := hn.arity 1 (by rw [hkind]; rfl)
    obtain ⟨m, ho⟩ := length_eq_one_iff.1 hl
    obtain ⟨hb, hkinds⟩ :=
      (h.strict.formed n).output .value hkind m (ho ▸ mem_singleton_self m)
    have ht : (g.kind m).mayTrap = true := hkinds.resolve_right fun ⟨he, _⟩ => absurd he nofun
    have hh := holdsValue_of_mayTrap ht
    exact ⟨m, producer_of_operands hp hlt ho (isProj_eq_false_of_holdsValue hh),
      hh, hb, .inr ⟨hkind, ho, ht⟩⟩
  · have hp := Bool.eq_false_iff.2 hp
    exact ⟨n, producer_of_not_isProj hp, holdsValue_of_isValue hn.isValue
      (fun hk => hlive (h.lowered n hk)) hp, rfl, .inl rfl⟩

end Graph

theorem Line.map_fst_starts (first : Nat) (blocks : List ScheduledBlock) :
    (starts first blocks).map (·.1) = blocks.map (·.block) := by
  induction blocks generalizing first with
  | nil => rfl
  | cons b blocks ih => rw [starts, map_cons, ih, map_cons]

namespace Schedule

/-- **The numbering of a schedule.** -/
def numbering (g : Graph) (s : Schedule) : Numbering :=
  ⟨s.postorder.filter fun n => (g.kind n).holdsValue⟩

/-- What the lines of a schedule are made from. -/
def context (g : Graph) (s : Schedule) : Line.Context :=
  ⟨g, s, s.numbering g⟩

variable {g : Graph} {dead : NodeId → Prop} {s : Schedule} {ends : List NodeId}
  {n a t block : NodeId}

/-- **A scheduled node that holds a value has a register.** -/
theorem register_of_holdsValue (hn : n ∈ s.scheduled g) (hh : (g.kind n).holdsValue) :
    ∃ r, (s.context g).register n = .ok r := by
  have hmem : n ∈ (s.numbering g).owners :=
    mem_filter.2 ⟨(mem_scheduled_iff.1 hn).2, hh⟩
  obtain ⟨r, hr⟩ := isSome_iff_exists.1 (isSome_idxOf?.2 hmem)
  refine ⟨r, Line.Context.register_eq_ok.2 ?_⟩
  show (s.numbering g).owners.idxOf? (g.producer n) = some r
  rw [Graph.producer_of_not_isProj (isProj_eq_false_of_holdsValue hh)]
  exact hr

namespace Built

variable (hs : s.Built g ends) (h : g.Complete dead)

include hs h

theorem numbering_eq : Numbering.ofSchedule g s = .ok (s.numbering g) := by
  refine if_pos (all_eq_true.2 fun n hn => decide_eq_true ?_)
  rw [hs.postorder_eq_postorder h] at hn
  obtain ⟨t, ht, hr⟩ := Walk.reach_of_mem_postorder hn
  exact (mem_scheduled_iff.1 (hs.mem_scheduled_of_reach h ht hr)).1

theorem mem_scheduled_of_computes (hn : n ∈ s.scheduled g) (hc : g.Computes n a) :
    a ∈ s.scheduled g := by
  rcases hc.eq_or with rfl | ⟨-, hops, -⟩
  · exact hn
  · exact hs.mem_scheduled_of_mem_operands h hn (hops ▸ mem_singleton_self a)

/-- **A scheduled value has a register.** -/
theorem register (hn : n ∈ s.scheduled g) (hv : g.IsValue n) :
    ∃ r, (s.context g).register n = .ok r := by
  obtain ⟨m, hm⟩ := h.exists_computes hv (mem_scheduled_iff.1 hn).1 (hs.selected h hn).live
  obtain ⟨r, hr⟩ :=
    register_of_holdsValue (hs.mem_scheduled_of_computes h hn hm) hm.holdsValue
  refine ⟨r, Line.Context.register_eq_ok.2 ?_⟩
  have hr := Line.Context.register_eq_ok.1 hr
  have hself := Graph.producer_of_not_isProj (isProj_eq_false_of_holdsValue hm.holdsValue)
  rw [show (s.context g).graph.producer m = m from hself] at hr
  rw [show (s.context g).graph.producer n = m from hm.producer]
  exact hr

/-- **An operand that is asked for as a value has a register.** -/
theorem operand (index : Nat) (hn : n ∈ s.scheduled g) (hi : index < (g.operands n).length)
    (ht : (g.kind n).takes index = some .value) :
    ∃ r, (s.context g).operand n index = .ok r := by
  have hg : (g.operands n)[index]? = some (g.operands n)[index] := getElem?_eq_getElem hi
  obtain ⟨r, hr⟩ := hs.register h (hs.mem_scheduled_of_mem_operands h hn (getElem_mem hi))
    (h.strict.typed n index _ hg .value ht)
  exact ⟨r, Line.Context.operand_eq_ok.2 ⟨_, hg, hr⟩⟩

/-! ## Lines -/

theorem target (hn : (g.kind t).isTerminator) (hh : g.blockOf t ∈ g.layout)
    (hmem : block ∈ g.targets t) : ∃ line, (s.context g).target block = .ok line := by
  have hb : block ∈ (Line.starts 0 s.blocks).map (·.1) := by
    rw [Line.map_fst_starts, hs.map_block]
    exact h.mem_layout_of_target hn hh hmem
  obtain ⟨e, he, rfl⟩ := mem_map.1 hb
  obtain ⟨line, hl⟩ : ∃ line, (Line.starts 0 s.blocks).lookup e.1 = some line :=
    ne_none_iff_exists'.1 fun hnone =>
      absurd (lookup_eq_none_iff.1 hnone e he) (by simp)
  exact ⟨line, Line.Context.target_eq_ok.2 hl⟩

/-- **An ordinary node has its line.** -/
theorem exists_ordinaryLine (hn : n ∈ s.scheduled g) (hkind : (g.kind n).isOrdinary) (next : Nat) :
    ∃ l, (s.context g).nodeLine n next = .ok l := by
  have hselected := hs.selected h hn
  have hregister : (g.kind n).holdsValue = true → ∃ r, (s.context g).register n = .ok r :=
    register_of_holdsValue hn
  unfold Line.Context.nodeLine
  cases hk : g.kind n with
  | constInt | constBool | undefined =>
    obtain ⟨r, hr⟩ := hregister (by rw [hk]; rfl)
    rw [show (s.context g).graph.kind n = _ from hk]
    exact ⟨_, bind_eq_ok.2 ⟨r, hr, rfl⟩⟩
  | binary op | compare op =>
    obtain ⟨r, hr⟩ := hregister (by rw [hk]; rfl)
    have hlength : 2 ≤ (g.operands n).length := by
      rw [hselected.whole _ (by rw [hk]; rfl)]
      try split <;> omega
    obtain ⟨lhs, hlhs⟩ := hs.operand h 0 hn (by omega) (by rw [hk]; rfl)
    obtain ⟨rhs, hrhs⟩ := hs.operand h 1 hn (by omega) (by rw [hk]; rfl)
    rw [show (s.context g).graph.kind n = _ from hk]
    exact ⟨_, bind_eq_ok.2 ⟨r, hr, bind_eq_ok.2 ⟨lhs, hlhs, bind_eq_ok.2 ⟨rhs, hrhs, rfl⟩⟩⟩⟩
  | condValue => exact absurd (h.lowered n hk) hselected.live
  | _ => rw [hk] at hkind; cases hkind

/-- **The end of a block has its line.** -/
theorem exists_endLine (ht : t ∈ ends) (next : Nat) :
    ∃ l, (s.context g).nodeLine t next = .ok l := by
  have hn := hs.mem_scheduled_of_mem_ends h ht
  have hselected := hs.selected h hn
  obtain ⟨block, -, hend⟩ := (mem_ends hs.terminators).1 ht
  obtain ⟨hterm, rfl⟩ := Graph.terminator?_eq_some hend
  have htarget : ∀ {block}, block ∈ (g.kind t).targets →
      ∃ line, (s.context g).target block = .ok line := fun hmem =>
    hs.target h hterm hselected.home hmem
  unfold Line.Context.nodeLine
  cases hk : g.kind t with
  | jump block =>
    obtain ⟨line, hline⟩ := htarget (by rw [hk]; exact mem_singleton_self block)
    rw [show (s.context g).graph.kind t = _ from hk]
    exact ⟨_, bind_eq_ok.2 ⟨line, hline, rfl⟩⟩
  | condJump ifTrue ifFalse =>
    obtain ⟨yes, hyes⟩ := htarget (by rw [hk]; exact .head _)
    obtain ⟨no, hno⟩ := htarget (by rw [hk]; exact .tail _ (.head _))
    have hl : (g.operands t).length = 1 := hselected.whole 1 (by rw [hk]; rfl)
    obtain ⟨condition, hc⟩ := hs.operand h 0 hn (by omega) (by rw [hk]; rfl)
    rw [show (s.context g).graph.kind t = _ from hk]
    exact ⟨_, bind_eq_ok.2 ⟨condition, hc, bind_eq_ok.2 ⟨yes, hyes, bind_eq_ok.2 ⟨no, hno, rfl⟩⟩⟩⟩
  | ret =>
    have hl : (g.operands t).length = 2 := hselected.whole 2 (by rw [hk]; rfl)
    obtain ⟨result, hr⟩ := hs.operand h 1 hn (by omega) (by rw [hk]; rfl)
    rw [show (s.context g).graph.kind t = _ from hk]
    exact ⟨_, bind_eq_ok.2 ⟨result, hr, rfl⟩⟩
  | _ => rw [hk] at hterm; cases hterm

omit h in
/-- The merges of a laid-out block are those that were scheduled in it. -/
theorem valuePhis_eq (hblock : block ∈ g.layout) :
    s.valuePhis block = phisOf g (s.scheduled g) block := by
  rw [← hs.map_block] at hblock
  obtain ⟨b, hb, hbb⟩ := mem_map.1 hblock
  unfold valuePhis
  cases hf : s.blocks.find? (·.block == block) with
  | none => exact absurd hbb (by simpa using find?_eq_none.1 hf b hb)
  | some b =>
    rw [map_some, getD_some, (hs.of_mem_blocks (mem_of_find?_eq_some hf)).1,
      show b.block = block by simpa using find?_some hf]

/-- A merge that is laid out has as many operands as its block has
predecessors. -/
theorem length_operands (hn : n ∈ s.valuePhis block) :
    (g.operands n).length = (g.preds block).length := by
  obtain ⟨hmem, hk, rfl⟩ := hs.mem_valuePhis hn
  have hselected := hs.selected h hmem
  rw [h.arity n (isPhi_of_isValuePhi hk) hselected.live
    (h.reaches_of_mem_layout hselected.home).2.2]
  exact (length_map _).symm

omit h in
/-- **Copies are made along the edges into blocks with merges**, at the ends of
the blocks that the edges come from. -/
theorem mem_copiesIn : item ∈ s.copiesIn g a ↔
    ∃ block edge, item = .phiMoves block edge ∧ block ∈ g.layout ∧ s.valuePhis block ≠ [] ∧
      (g.preds block)[edge]? = some a := by
  rw [hs.mem_copiesIn_iff]
  refine exists_congr fun block => exists_congr fun edge => and_congr_right fun _ =>
    and_congr_right fun hb => ?_
  rw [hs.valuePhis_eq hb, Graph.preds, getElem?_map]
  refine and_congr ⟨?_, fun hne => ?_⟩ Iff.rfl
  · rintro ⟨phi, hp⟩
    exact ne_nil_of_mem (a := phi) (by simpa [phisOf] using hp)
  · obtain ⟨phi, hp⟩ := exists_mem_of_ne_nil _ hne
    exact ⟨phi, by simpa [phisOf] using hp⟩

/-- **The copies along an edge have their line.** -/
theorem exists_copiesLine (hmem : item ∈ s.copiesIn g a) (next : Nat) :
    ∃ l, (s.context g).line item next = .ok l := by
  obtain ⟨block, edge, rfl, hblock, -, he⟩ := hs.mem_copiesIn.1 hmem
  obtain ⟨copies, hc⟩ := exists_mapM_eq_ok (f := fun phi => do
    let d ← (s.context g).register phi
    let u ← (s.context g).operand phi edge
    pure (d, u)) (l := s.valuePhis block) fun phi hp => by
      obtain ⟨hn, hk, -⟩ := hs.mem_valuePhis hp
      obtain ⟨d, hd⟩ := register_of_holdsValue hn (holdsValue_of_isValuePhi hk)
      obtain ⟨u, hu⟩ := hs.operand h edge hn
        (hs.length_operands h hp ▸ (List.getElem?_eq_some_iff.1 he).1)
        (takes_of_isValuePhi hk)
      exact ⟨(d, u), bind_eq_ok.2 ⟨d, hd, bind_eq_ok.2 ⟨u, hu, rfl⟩⟩⟩
  exact ⟨_, bind_eq_ok.2 ⟨copies, hc, rfl⟩⟩

/-- **The lines of a schedule can be written.** -/
theorem exists_lines : ∃ lines, Line.ofSchedule g s (s.numbering g) = .ok lines := by
  have hi : ∀ item ∈ s.items, ∀ next, ∃ l, (s.context g).line item next = .ok l := by
    intro item hi next
    obtain ⟨b, hb, hi⟩ := mem_flatMap.1 hi
    obtain ⟨-, t, ht, hitems⟩ := hs.of_mem_blocks hb
    rw [hitems, mem_append, mem_singleton] at hi
    rcases hi with hi | rfl
    · rcases of_mem_body hi with ⟨n, rfl, hn, hk, -⟩ | hi
      · exact hs.exists_ordinaryLine h hn hk next
      · exact hs.exists_copiesLine h hi next
    · refine hs.exists_endLine h ((mem_ends hs.terminators).2 ⟨b.block, ?_, ht⟩) next
      exact hs.map_block ▸ mem_map_of_mem hb
  obtain ⟨lines, hl⟩ := exists_mapM_eq_ok (l := s.items.zipIdx)
    (f := fun x => (s.context g).line x.1 (x.2 + 1)) fun x hx =>
      hi x.1 (fst_mem_of_mem_zipIdx hx) _
  exact ⟨_, bind_eq_ok.2 ⟨lines, hl, rfl⟩⟩

end Built

end Schedule

/-! ## Code -/

namespace Placed

variable {p : Placed} {s : Schedule} {n : NodeId} {next : Nat} {l : Line}

/-- **A node whose line names registers with places is emitted.** -/
theorem exists_node (hl : (p.context s).NodeLine n next l)
    (hp : ∀ r, r ∈ l.defs ∨ r ∈ l.uses → ∃ place, p.allocation.location? r = some place) :
    ∃ code, p.node n = .ok code := by
  cases hl with
  | @load w d hk hd =>
    obtain ⟨place, hp⟩ := hp d (.inl (.head _))
    obtain ⟨v, -, hc⟩ := node_of_constant hk (location_of_register hd hp)
    exact ⟨_, hc⟩
  | @binary op d a b hk hd ha hb | @compare op d a b hk hd ha hb =>
    obtain ⟨target, ht⟩ := hp d (.inl (.head _))
    obtain ⟨lhs, hlhs⟩ := hp a (.inr (.head _))
    obtain ⟨rhs, hr⟩ := hp b (.inr (.tail _ (.head _)))
    first
    | exact ⟨_, node_of_binary hk (operandLocation_of_operand ha hlhs)
        (operandLocation_of_operand hb hr) (location_of_register hd ht)⟩
    | exact ⟨_, node_of_compare hk (operandLocation_of_operand ha hlhs)
        (operandLocation_of_operand hb hr) (location_of_register hd ht)⟩
  | jump hk => exact ⟨_, node_of_jump hk⟩
  | @condJump _ _ u _ _ hk hu =>
    obtain ⟨place, hp⟩ := hp u (.inr (.head _))
    exact ⟨_, node_of_condJump hk (operandLocation_of_operand hu hp)⟩
  | @ret u hk hu =>
    obtain ⟨place, hp⟩ := hp u (.inr (.head _))
    exact ⟨_, node_of_ret hk (operandLocation_of_operand hu hp)⟩

theorem item_eq_itemCode {code : List Asm} (h : p.item s item = .ok code) :
    p.item s item = .ok (p.itemCode s item) := by
  rw [itemCode, h]

/-- **An item whose line names registers with places is emitted**, unless its
copies have no end; and that takes a value in the scratch place of copies. -/
theorem item_cases (hl : (p.context s).line item next = .ok l)
    (hp : ∀ r, r ∈ l.defs ∨ r ∈ l.uses → ∃ place, p.allocation.location? r = some place) :
    (∃ code, p.item s item = .ok code) ∨ Register.destScratch ∈ p.allocation.registers ∧
      p.item s item = .error ⟨[], .fault .endlessMoves⟩ := by
  cases item with
  | node n => exact .inl (exists_node (Line.Context.nodeLine_eq_ok hl) hp)
  | phiMoves target edge =>
    obtain ⟨copies, all, rfl⟩ := Line.Context.phiMoves_eq_ok hl
    have : Nonempty Location := ⟨Instr.sourceScratch⟩
    choose! place hp using hp
    have moves : p.phiMoves (s.valuePhis target) edge = _ :=
      phiMoves_eq (copies.map fun c => (place c.2, place c.1)) <| by
        rw [List.forall₂_map_right_iff]
        refine List.forall₂_iff_zip.2 ⟨all.length_eq, fun {phi c} hz => ?_⟩
        have hc := (of_mem_zip hz).2
        obtain ⟨hd, hu⟩ := (List.forall₂_iff_zip.1 all).2 hz
        exact ⟨operandLocation_of_operand hu (hp _ (.inr (mem_map_of_mem hc))),
          location_of_register hd (hp _ (.inl (mem_map_of_mem hc)))⟩
    cases ho : ParallelMove.sequentialize Instr.destScratch
        (copies.map fun c => (place c.2, place c.1)) with
    | some ordered =>
      rw [ho] at moves
      exact .inl ⟨_, congrArg Piece.ofExcept moves⟩
    | none =>
      rw [ho] at moves
      refine .inr ⟨by_contra fun hf => ?_, congrArg Piece.ofExcept moves⟩
      have hdest : Instr.destScratch ∉ (copies.map fun c => (place c.2, place c.1)).map (·.2) := by
        intro hm
        rw [List.map_map] at hm
        obtain ⟨c, hc, e⟩ := mem_map.1 hm
        have hp := hp c.1 (.inl (mem_map_of_mem hc))
        rw [show place c.1 = _ from e] at hp
        rcases Allocation.cases_of_location? hp with hstack | ⟨r, hr, e⟩
        · cases hstack
        · cases e
          exact hf hr
      obtain ⟨ordered, h⟩ := ParallelMove.exists_sequentialize hdest
      cases ho.symm.trans h

end Placed

/-- **A piece of code that fails for one reason only.** -/
def Piece.FailsBy (cause : Failure) (piece : Piece) : Prop :=
  ∀ e, piece = .error e → e.cause = cause

theorem Piece.FailsBy.after {cause : Failure} {piece : Piece} (h : piece.FailsBy cause)
    (code : List Asm) : (Piece.after code piece).FailsBy cause := by
  cases piece with
  | ok more => exact nofun
  | error e =>
    rintro _ ⟨⟩
    exact h e rfl

theorem Piece.FailsBy.join {cause : Failure} {pieces : List Piece}
    (h : ∀ piece ∈ pieces, piece.FailsBy cause) : (Piece.join pieces).FailsBy cause := by
  induction pieces with
  | nil => exact nofun
  | cons piece rest ih =>
    obtain ⟨hp, hr⟩ := forall_mem_cons.1 h
    cases piece with
    | ok code => exact (ih hr).after code
    | error e => exact hp

namespace Placed

variable {g : Graph} {s : Schedule} {numbering : Numbering} {lines : Array Line}
  (h : Line.ofSchedule g s numbering = .ok lines) (registers : List Register)

include h

theorem item_cases_of_lines {item : Item} (hitem : item ∈ s.items) :
    (∃ code, Placed.item ⟨g, numbering, .ofInterference registers (.ofLiveness (.solve lines))⟩ s
        item = .ok code) ∨ Register.destScratch ∈ registers ∧
      Placed.item ⟨g, numbering, .ofInterference registers (.ofLiveness (.solve lines))⟩ s item
        = .error ⟨[], .fault .endlessMoves⟩ := by
  obtain ⟨hsize, hl⟩ := Line.ofSchedule_eq_ok h
  obtain ⟨i, hi, rfl⟩ := getElem_of_mem hitem
  exact item_cases (p := ⟨g, numbering, _⟩) (hl i hi) fun r hr =>
    Allocation.exists_location? (v := .solve lines) registers (hsize.symm ▸ hi) hr

/-- A function is emitted for any list of machine registers without the
scratch place of copies. -/
theorem exists_function (hf : Register.destScratch ∉ registers) :
    ∃ code, Placed.function ⟨g, numbering, .ofInterference registers
      (.ofLiveness (.solve lines))⟩ s = .ok code :=
  ⟨_, function_of_items _ fun _ hi =>
    (item_cases_of_lines h registers hi).elim (fun ⟨_, hc⟩ => item_eq_itemCode hc)
      fun hend => absurd hend.1 hf⟩

/-- **With any list, nothing but copies without an end** keeps a function from
being emitted. -/
theorem function_failsBy : (Placed.function ⟨g, numbering, .ofInterference registers
      (.ofLiveness (.solve lines))⟩ s).FailsBy (.fault .endlessMoves) := by
  refine .after (.join fun piece hp => ?_) _
  obtain ⟨b, hb, rfl⟩ := mem_map.1 hp
  refine .after (.join fun piece hp => ?_) _
  obtain ⟨item, hi, rfl⟩ := mem_map.1 hp
  intro e he
  rcases item_cases_of_lines h registers (mem_flatMap.2 ⟨b, hb, hi⟩) with ⟨code, hok⟩ | ⟨-, hend⟩
  · exact absurd (he.symm.trans hok) nofun
  · cases he.symm.trans hend
    rfl

end Placed

end SsaCompiler
