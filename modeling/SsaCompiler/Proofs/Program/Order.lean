import Mathlib.Data.List.Chain
import SsaCompiler.Proofs.Emission.Divisions
import SsaCompiler.Proofs.Graph.Available
import SsaCompiler.Proofs.Program.Effects
import SsaCompiler.Proofs.Program.Success
import SsaCompiler.Proofs.Program.Traces

/-!
# Divisions keep their order

In a block, a division takes the effect of the one made before it
(`Graph.Threads.isChain`). So the schedule, which lists what is depended on first,
lists the divisions of a block in the order they were made
(`Translated.inside_eq`). A path through the laid-out blocks therefore meets **what the
source performs along it**, and no division is dropped, moved or doubled on the way to
the code (`Function.divisions_kept`).
-/

namespace SsaCompiler

open List Option Builder Schedule Kind

open Stage

variable {g : Graph} {s : Schedule} {block n : NodeId} {path : Path}

/-! ## What a schedule does -/

/-- **The nodes among the items of a block**, in order. -/
def Schedule.nodesIn (s : Schedule) (block : NodeId) : List NodeId :=
  ((s.blocks.find? (·.block == block)).map (·.items.filterMap Item.node?)).getD []

/-- **What a schedule does in a block**, in order. -/
def Schedule.inside (g : Graph) (s : Schedule) (block : NodeId) : List Action :=
  (s.nodesIn block).filterMap g.action?

/-- **The decision of the end of a block**, when control goes to a target. -/
def Graph.turn (g : Graph) (block target : NodeId) : List Action :=
  (g.terminator? block).elim [] fun t => (g.kind t).turn target

/-- **The nodes of a block** are its members and its end. -/
theorem Schedule.Built.exists_nodesIn_eq {ends : List NodeId} (hs : s.Built g ends)
    (hblock : block ∈ g.layout) :
    ∃ t, g.terminator? block = some t ∧ s.nodesIn block = s.members g block ++ [t] := by
  rw [← hs.map_block] at hblock
  obtain ⟨b, hb, hbb⟩ := mem_map.1 hblock
  unfold nodesIn
  cases hf : s.blocks.find? (·.block == block) with
  | none => exact absurd hbb (by simpa using find?_eq_none.1 hf b hb)
  | some b =>
    obtain ⟨-, t, ht, hi⟩ := hs.of_mem_blocks (mem_of_find?_eq_some hf)
    obtain rfl : b.block = block := by simpa using find?_some hf
    refine ⟨t, ht, ?_⟩
    rw [map_some, hi, filterMap_append, filterMap_node?_body]
    rfl

theorem Schedule.mem_of_mem_nodesIn (h : n ∈ s.nodesIn block) :
    n ∈ s.items.filterMap Item.node? := by
  unfold nodesIn at h
  cases hf : s.blocks.find? (·.block == block) with
  | none => simp [hf] at h
  | some b =>
    rw [hf, map_some] at h
    obtain ⟨item, hi, hn⟩ := mem_filterMap.1 h
    exact mem_filterMap.2
      ⟨item, mem_flatMap.2 ⟨b, mem_of_find?_eq_some hf, hi⟩, hn⟩

/-! ## Threads inside a block -/

theorem Graph.eq_of_chase {m : NodeId} (h : g.chase path n = some (m, path.length)) : n = m := by
  cases path with
  | nil =>
    unfold Graph.chase at h
    split at h
    · cases h
    · exact (Prod.mk.inj (some.inj h)).1
  | cons edge path =>
    unfold Graph.chase at h
    split at h
    · exact absurd (Graph.le_length_of_chase h) (Nat.not_succ_le_self _)
    · split at h
      · obtain ⟨a, -, ha⟩ := bind_eq_some_iff.1 h
        exact absurd (Graph.le_length_of_chase ha) (Nat.not_succ_le_self _)
      · exact (Prod.mk.inj (some.inj h)).1

/-- **In a thread each division takes the effect of the one before.** -/
theorem Graph.Threads.isChain {start finish : Origin} {ds : List NodeId}
    (h : g.Threads path start ds finish) :
    ds.IsChain fun d d' => g.kind (d + 1) = .proj .effect ∧ g.operands (d + 1) = [d] ∧
      d + 1 ∈ g.operands d' := by
  induction h with
  | nil => exact .nil
  | cons _ _ hk hp hr ih =>
    cases hr with
    | nil => exact .singleton _
    | cons he hc _ _ _ =>
      exact .cons_cons ⟨hk, hp, eq_of_chase hc ▸ mem_of_getElem? he⟩ ih

namespace Translated

variable {f : Function} {s : Stage} {flow : Flow} {r : FunctionGraph} {path : Path} {n d d' : NodeId}
  {schedule : Schedule} {ends : List NodeId}

section

variable (h : Translated f s flow r)

include h

/-! ## Lowering makes no divisions -/

theorem division?_eq (n : NodeId) : (r.graph.kind n).division? = (s.graph.kind n).division? := by
  by_cases hn : n < s.graph.size
  · rw [h.kind_eq hn]
  · have hr : ¬ (r.graph.kind n).mayTrap = true := fun ht => hn (h.kind_eq_of_mayTrap ht).1
    rw [← isSome_division?, not_isSome_iff_eq_none] at hr
    rw [hr, kind_of_size_le _ (not_lt.1 hn)]
    rfl

theorem divisions_lowered (size : Nat) : r.graph.divisions size = s.graph.divisions size := by
  simp only [Graph.divisions, h.division?_eq]

theorem action?_eq : r.graph.action? = s.graph.action? := by
  funext n
  rw [Graph.action?, Graph.action?, h.division?_eq, h.divisions_lowered]

/-- **The divisions of the lowered graph are those of the text.** -/
theorem divisions_text : r.graph.divisions r.graph.size = f.body.divisions := by
  have hnone : ((List.range (r.graph.size - s.graph.size)).map (s.graph.size + ·)).filterMap
      (fun n => (s.graph.kind n).division?) = [] := by
    refine filterMap_eq_nil_iff.2 fun n hn => ?_
    obtain ⟨k, -, rfl⟩ := mem_map.1 hn
    rw [kind_of_size_le _ (Nat.le_add_right _ _)]
    rfl
  rw [← h.divisions_eq, h.divisions_lowered, divisions, Graph.divisions, Graph.divisions,
    ← Nat.add_sub_cancel' h.size_le, range_add, filterMap_append, hnone, append_nil]

/-! ## The order inside a block -/

theorem mem_layout (hp : s.Route path) : Path.last path ∈ r.graph.layout :=
  h.regular.mem_layout_of_reaches ((h.isBlock_eq _).trans hp.isBlock)
    ((h.reaches_iff hp.isBlock).2 ⟨path, hp.isPath, rfl⟩) hp.notFinal

theorem mem_divisions (hr : f.body.returns) (hs : schedule.Built r.graph ends)
    : d ∈ (s.made s).filter (fun d => s.graph.blockOf d = block) ↔
      d ∈ (schedule.members r.graph block).filter fun d => (r.graph.kind d).mayTrap := by
  rw [mem_filter, mem_filter, mem_made, mem_members, decide_eq_true_iff]
  constructor
  · rintro ⟨⟨hlt, ht⟩, hb⟩
    rw [← h.kind_eq hlt] at ht
    exact ⟨⟨h.mem_scheduled hr hs ht, isOrdinary_of_holdsValue
      (holdsValue_of_mayTrap ht) (isPhi_eq_false_of_mayTrap ht),
      (h.blockOf_eq hlt).trans hb⟩, ht⟩
  · rintro ⟨⟨-, -, hb⟩, ht⟩
    obtain ⟨hlt, hk⟩ := h.kind_eq_of_mayTrap ht
    exact ⟨⟨hlt, hk ▸ ht⟩, (h.blockOf_eq hlt).symm.trans hb⟩

/-- **A division comes after the one whose effect it takes.** -/
theorem idxOf_lt (hs : schedule.Built r.graph ends) (hblock : block ∈ r.graph.layout)
    (hd : d ∈ schedule.members r.graph block) (hd' : d' ∈ schedule.members r.graph block)
    (ht : (s.graph.kind d).mayTrap) (ht' : (s.graph.kind d').mayTrap)
    (hk : s.graph.kind (d + 1) = .proj .effect) (hp : s.graph.operands (d + 1) = [d])
    (hm : d + 1 ∈ s.graph.operands d') :
    (schedule.members r.graph block).idxOf d < (schedule.members r.graph block).idxOf d' := by
  obtain ⟨ρ, hf, ho, -, -⟩ := h.exists_lowering
  have hne : ∀ {n}, (s.graph.kind n).mayTrap = true → s.graph.kind n ≠ .condValue := fun hn he => by
    rw [he] at hn
    cases hn
  have hlt : d + 1 < s.graph.size :=
    Graph.lt_of_mem_operands (hp ▸ mem_singleton_self d)
  have hnot : s.graph.kind (d + 1) ≠ .condValue := by
    rw [hk]
    exact nofun
  have hproducer : r.graph.producer (d + 1) = d := by
    refine Graph.producer_of_operands (by rw [h.kind_eq hlt, hk]; rfl)
      (hlt.trans_le h.size_le) ?_ ?_
    · rw [ho _ hlt hnot, hp, map_singleton, hf d (hne ht)]
    · rw [h.kind_eq (Nat.lt_of_succ_lt hlt)]
      exact isProj_eq_false_of_holdsValue (holdsValue_of_mayTrap ht)
  have htakes : d + 1 ∈ r.graph.operands d' := by
    rw [ho d' (Graph.lt_of_mem_operands hm) (hne ht')]
    exact mem_map.2 ⟨_, hm, hf _ hnot⟩
  obtain ⟨before, after, hsplit⟩ := append_of_mem hd'
  have hb : d ∈ before := mem_before hs h.complete hblock hsplit
    (mem_filter.2 ⟨mem_map.2 ⟨_, htakes, hproducer⟩, contains_iff_mem.2
      (Graph.mem_of_mem_orderMembers hd)⟩)
  obtain ⟨first, rest, rfl⟩ := append_of_mem hb
  refine Graph.idxOf_lt_idxOf_of_mem (Walk.nodup_postorder _ _ _)
    (hsplit.trans (append_assoc _ _ _)) ?_
  exact mem_append_right _ (.head _)

/-- **The divisions of a block are scheduled in the order they were made.** -/
theorem filter_members (hr : f.body.returns) (hs : schedule.Built r.graph ends)
    (hp : s.Route path) :
    ((schedule.members r.graph (Path.last path)).filter fun d => (r.graph.kind d).mayTrap) =
      (s.made s).filter fun d => s.graph.blockOf d = Path.last path := by
  have hn : (schedule.members r.graph (Path.last path)).Nodup := Walk.nodup_postorder _ _ _
  let before (d d' : NodeId) : Prop := (schedule.members r.graph (Path.last path)).idxOf d <
    (schedule.members r.graph (Path.last path)).idxOf d'
  have hscheduled : ((schedule.members r.graph (Path.last path)).filter
      fun d => (r.graph.kind d).mayTrap).Pairwise before := by
    refine List.Pairwise.filter _ (pairwise_iff_getElem.2 fun i j hi hj hij => ?_)
    show List.idxOf _ _ < List.idxOf _ _
    rwa [hn.idxOf_getElem, hn.idxOf_getElem]
  have hm : ((s.made s).filter fun d => s.graph.blockOf d = Path.last path).Pairwise before := by
    refine List.IsChain.pairwise ((h.ledger.threads path hp).isChain.imp_of_mem_imp ?_)
    rintro d d' hd hd' ⟨hk, hproj, hmem⟩
    exact h.idxOf_lt hs (h.mem_layout hp)
      (mem_filter.1 ((h.mem_divisions hr hs).1 hd)).1
      (mem_filter.1 ((h.mem_divisions hr hs).1 hd')).1
      (mem_made.1 (mem_filter.1 hd).1).2 (mem_made.1 (mem_filter.1 hd').1).2 hk hproj hmem
  refine List.Perm.eq_of_pairwise (fun d d' _ _ hlt hgt => absurd hgt (Nat.lt_asymm hlt))
    hscheduled hm ?_
  exact (perm_ext_iff_of_nodup (hn.filter _) ((nodup_range.filter _).filter _)).2
    fun d => (h.mem_divisions hr hs).symm

/-- **What a schedule does in a block** is what was made there. -/
theorem inside_eq (hr : f.body.returns) (hs : schedule.Built r.graph ends)
    (hp : s.Route path) :
    schedule.inside r.graph (Path.last path) = s.inside s (Path.last path) := by
  have hnone : ∀ n, (r.graph.kind n).mayTrap = false → r.graph.action? n = none := fun n hn => by
    rw [← isSome_division?, isSome_eq_false_iff, isNone_iff_eq_none] at hn
    rw [Graph.action?, hn]
    rfl
  obtain ⟨t, ht, hnodes⟩ := hs.exists_nodesIn_eq (h.mem_layout hp)
  replace ht := hnone t (mayTrap_eq_false_of_isTerminator (Graph.terminator?_eq_some ht).1)
  rw [Schedule.inside, hnodes, filterMap_append, Stage.inside, ← h.filter_members hr hs hp,
    ← h.action?_eq, filterMap_filter]
  simp only [filterMap_cons, ht, filterMap_nil, append_nil]
  refine filterMap_congr fun n _ => ?_
  split
  · rfl
  · rename_i hn
    exact hnone n (Bool.eq_false_iff.2 hn)

/-! ## Paths through laid-out blocks -/

theorem turns : s.Turns r.graph.turn := fun jump ht => by
  have hlt := lt_of_isTerminator ht
  funext target
  rw [Graph.turn, ← h.blockOf_eq hlt, h.regular.terminator?_eq
    ((h.isTerminator_eq jump).trans ht), elim_some, h.kind_eq hlt]

/-- The trace of a path through the schedule is that of what was made. -/
theorem trace_eq (hr : f.body.returns) (hs : schedule.Built r.graph ends)
    (hp : s.Route path) :
    Path.trace (schedule.inside r.graph) r.graph.turn path =
      Path.trace (s.inside s) r.graph.turn path :=
  Path.trace_congr fun _ hsuffix => h.inside_eq hr hs (hp.of_suffix h.finished hsuffix)

end

end Translated

/-- **A path through the blocks of a schedule.** -/
structure Schedule.Through (g : Graph) (s : Schedule) (path : Path) : Prop where
  isPath : IsPath g.preds path
  laidOut : Path.last path ∈ s.blocks.map (·.block)

/-- **A path that comes to a return.** -/
def Graph.Returns (g : Graph) (path : Path) : Prop :=
  ∃ t, g.terminator? (Path.last path) = some t ∧ g.kind t = .ret

/-- **What a path through a schedule meets**: the divisions of its blocks, in the order of
the schedule, and the decisions between them. -/
def Schedule.trace (g : Graph) (s : Schedule) (path : Path) : List Action :=
  Path.trace (s.inside g) g.turn path

namespace Translated

variable {f : Function} {s : Stage} {flow : Flow} {r : FunctionGraph} {path : Path} {n d d' : NodeId}
  {schedule : Schedule} {ends : List NodeId} (h : Translated f s flow r)

include h

theorem route_iff (hs : schedule.Built r.graph ends) :
    schedule.Through r.graph path ↔ s.Route path := by
  constructor
  · rintro ⟨hp, hl⟩
    rw [hs.map_block] at hl
    obtain ⟨hb, -, hne⟩ := h.regular.reaches_of_mem_layout hl
    rw [h.isBlock_eq] at hb
    exact ⟨(h.isPath_iff hb).1 hp, hb, hne⟩
  · intro hp
    refine ⟨(h.isPath_iff hp.isBlock).2 hp.isPath, ?_⟩
    rw [hs.map_block]
    exact h.mem_layout hp

theorem returns_iff : r.graph.Returns path ↔
    ∃ jump, s.graph.kind jump = .ret ∧ s.graph.blockOf jump = Path.last path := by
  constructor
  · rintro ⟨t, ht, hr⟩
    obtain ⟨hterm, hb⟩ := Graph.terminator?_eq_some ht
    have hlt := lt_of_isTerminator ((h.isTerminator_eq t).symm.trans hterm)
    exact ⟨t, (h.kind_eq hlt).symm.trans hr, (h.blockOf_eq hlt).symm.trans hb⟩
  · rintro ⟨t, hr, hb⟩
    have hterm : (s.graph.kind t).isTerminator = true := by
      rw [hr]
      rfl
    have hlt := lt_of_isTerminator hterm
    refine ⟨t, ?_, (h.kind_eq hlt).trans hr⟩
    rw [← hb, ← h.blockOf_eq hlt]
    exact h.regular.terminator?_eq ((h.isTerminator_eq t).trans hterm)

/-- **Every division is scheduled in the block it was made in.** -/
theorem mem_nodesIn (hr : f.body.returns) (hs : schedule.Built r.graph ends)
    (ht : (r.graph.kind d).mayTrap) : d ∈ schedule.nodesIn (r.graph.blockOf d) := by
  have hd := h.mem_scheduled hr hs ht
  obtain ⟨t, -, hn⟩ := hs.exists_nodesIn_eq (hs.selected h.complete hd).home
  rw [hn]
  exact mem_append_left _ (mem_members.2 ⟨hd, isOrdinary_of_holdsValue
    (holdsValue_of_mayTrap ht) (isPhi_eq_false_of_mayTrap ht), rfl⟩)

/-- **As many divisions are scheduled as there are in the text.** -/
theorem countP_nodes (hr : f.body.returns) (hs : schedule.Built r.graph ends) :
    ((schedule.items.filterMap Item.node?).countP fun n => (r.graph.kind n).mayTrap) =
      f.body.divisions.length := by
  rw [← h.divisions_text, Graph.length_divisions, countP_eq_length_filter]
  refine ((perm_ext_iff_of_nodup (hs.nodup_nodes.filter _)
    (nodup_range.filter _)).2 fun d => ?_).length_eq
  rw [mem_filter, mem_filter, mem_range]
  refine and_congr_left fun ht => ⟨fun _ => ?_, fun _ => ?_⟩
  · exact (h.kind_eq_of_mayTrap ht).1.trans_le h.size_le
  · exact mem_of_mem_nodesIn (h.mem_nodesIn hr hs ht)

end Translated

/-! ## Functions -/

/-- **What becomes of the divisions of a function** in its graph, its schedule and its
code. -/
structure Function.KeepsDivisions (f : Function) (g : Graph) (s : Schedule) : Prop where
  /-- The divisions that were made are those of the text, in its order. -/
  made : g.divisions g.size = f.body.divisions
  /-- Each is scheduled once, in the block it was made in. -/
  scheduled : ∀ d, (g.kind d).mayTrap = true →
    (s.items.filterMap Item.node?).count d = 1 ∧ d ∈ s.nodesIn (g.blockOf d)
  /-- Whatever the machine registers are, if there is code, it divides once for each of
  them, where it is scheduled, and nowhere else; and there is code if the scratch place of
  copies is not among the registers. -/
  emitted : ∀ registers, (Register.destScratch ∉ registers → ∃ code, f.code registers = .ok code) ∧
    ∀ code, f.code registers = .ok code → ∃ p : Placed, p.graph = g ∧
      code = Placed.header f.name ++ p.prologue ++ s.blocks.flatMap (p.blockCode s) ∧
      (∀ item ∈ s.items, Asm.divisions (p.itemCode s item) =
        item.node?.toList.countP fun n => (g.kind n).mayTrap) ∧
      Asm.divisions code = f.body.divisions.length
  /-- Along a path to a return, the schedule performs what the source does when it makes
  the decisions of the path. -/
  performed : ∀ path, s.Through g path → g.Returns path →
    f.body.Performs 0 (s.trace g path) .returns ∧ ∀ actions flow,
      f.body.Performs 0 actions flow → Action.decisions actions = Action.decisions (s.trace g path) →
      actions = s.trace g path
  /-- Every path leads on to such a path. -/
  continued : ∀ path, s.Through g path → ∃ path', path <:+ path' ∧ s.Through g path' ∧
    g.Returns path' ∧ s.trace g path <+: s.trace g path'

/-- **Divisions are neither dropped, doubled nor put into another order.** A function
that returns on all paths has a graph and a schedule. The divisions made are those of
the text. Each of them is scheduled and emitted once, in its own block, whether its
result is used or not. And along every path of control through the blocks, the
divisions in the order of the schedule are those that the source performs along this
path, in the order of evaluation. -/
theorem Function.divisions_kept (f : Function) (hreturns : f.body.returns = true) :
    ∃ r s, f.toGraph = .ok r ∧ Schedule.build r.graph = .ok s ∧ f.KeepsDivisions r.graph s := by
  obtain ⟨last, flow, r, h⟩ := f.exists_translated
  obtain ⟨s, ends, lines, hbuild, hs, hnumbering, hlines⟩ := h.exists_lines hreturns
  refine ⟨r, s, h.toGraph, hbuild, h.divisions_text, fun d htrap => ?_, fun registers => ?_,
    fun path hpath hret => ?_, fun path hpath => ?_⟩
  · have hmem := h.mem_nodesIn hreturns hs htrap
    exact ⟨List.count_eq_one_of_mem hs.nodup_nodes (Schedule.mem_of_mem_nodesIn hmem), hmem⟩
  · refine ⟨(h.code_eq registers).1 hreturns, fun code hcode => ?_⟩
    rw [Function.code_eq h.toGraph hbuild hnumbering hlines, Except.mapError_eq_ok] at hcode
    have hcount := (Placed.divisions_function hcode).trans (h.countP_nodes hreturns hs)
    obtain ⟨hitems, rfl⟩ := Placed.function_eq_ok hcode
    rw [show Graph.name _ = f.name from h.name_eq] at hcount ⊢
    exact ⟨_, rfl, rfl, fun item hitem => Placed.divisions_item (hitems item hitem), hcount⟩
  · have hroute := (h.route_iff hs).1 hpath
    have hperforms := h.performs_trace hreturns h.turns ⟨hroute, h.returns_iff.1 hret⟩
    rw [← h.trace_eq hreturns hs hroute] at hperforms
    exact ⟨hperforms, fun actions flow hactions => hactions.eq_of_decisions_eq hperforms⟩
  · obtain ⟨path', jump, hsuffix, hroute, hret, hhome⟩ :=
      h.exists_return hreturns ((h.route_iff hs).1 hpath)
    exact ⟨path', hsuffix, (h.route_iff hs).2 hroute, h.returns_iff.2 ⟨jump, hret, hhome⟩,
      Path.trace_prefix hsuffix⟩

/-- A function that divides in the condition of a loop and twice in its body, and does
not use one of the results. -/
def Function.quotients : Function :=
  ⟨"f", .seq (.declare "x" .int (some (.int 100)))
    (.seq (.loop (.binary (.compare .less) (.int 0) (.binary (.arith .mod) (.var "x") (.int 7)))
      (.seq (.declare "y" .int (some (.binary (.arith .div) (.int 1) (.var "x"))))
        (.assign "x" (some (.arith .div)) (.int 2))))
    (.ret (.var "x")))⟩

/-- With one round of the loop, the remainder is computed twice and each quotient
once. -/
theorem Function.quotients_kept : quotients.body.divisions = [.mod, .div, .div] ∧
      quotients.body.Performs 0 [.divides 0 .mod, .decides true, .divides 1 .div, .divides 2 .div,
        .divides 0 .mod, .decides false] .returns ∧
      ∃ r s, quotients.toGraph = .ok r ∧ Schedule.build r.graph = .ok s ∧
        quotients.KeepsDivisions r.graph s :=
  ⟨rfl, .next .define (.next (.round (.next .define .update) .exit) .ret),
    divisions_kept quotients rfl⟩

end SsaCompiler
