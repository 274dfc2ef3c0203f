import SsaCompiler.Proofs.Graph.Lines

/-!
# Values are computed before they are read

Where a line stands is told by its block and by the items of the block before it
(`Schedule.At`). A node **is available** there if its block strictly dominates the
block of the line, if it is merged in this block, or if one of the items before
the line computes it or copies to it (`Schedule.Available`). What a line reads is
available (`Schedule.Built.exists_ready`), and what is available after a line is
available before it unless the line sets it. So **whatever is live into a line is
available there** (`Schedule.Built.available_of_liveInto`), and nothing is live into
the first line.
-/

namespace SsaCompiler

open List Graph Kind

open Liveness (lineAt)

variable {k : Kind} {r : VReg} {j index : Nat} {m : NodeId}

theorem Kind.of_isOrdinary (h : k.isOrdinary) : k.isPhi = false ∧ k.isBlock = false := by
  cases k <;> first | exact ⟨rfl, rfl⟩ | cases h

theorem Kind.targets_eq_nil_of_isOrdinary (h : k.isOrdinary) : k.targets = [] := by
  cases k <;> first | rfl | cases h

theorem Kind.isOrdinary_of_holdsValue (h : k.holdsValue) (hphi : k.isPhi = false) :
    k.isOrdinary := by
  cases k with
  | phi => cases hphi
  | constInt | constBool | undefined | binary | compare => rfl
  | _ => cases h

theorem Kind.isValuePhi_of_holdsValue (h : k.holdsValue) (hphi : k.isPhi) : k.isValuePhi := by
  cases k with
  | phi channel =>
    cases channel with
    | value => rfl
    | effect => cases h
  | _ => cases hphi

theorem Kind.of_isProj (h : k.isProj) : k.isPhi = false ∧ k.isBlock = false := by
  cases k <;> first | exact ⟨rfl, rfl⟩ | cases h

namespace Line.Context.NodeLine

variable {c : Line.Context} {n : NodeId} {next : Nat} {l : Line} (h : c.NodeLine n next l)

include h

/-- **A line reads the operands that its node asks for as values.** -/
theorem exists_operand (hr : r ∈ l.uses) :
    ∃ index, c.operand n index = .ok r ∧ (c.graph.kind n).takes index = some .value := by
  cases h with
  | load | jump => cases hr
  | binary hk _ ha hb | compare hk _ ha hb =>
    simp only [mem_cons, not_mem_nil, or_false] at hr
    rcases hr with rfl | rfl
    · exact ⟨0, ha, by rw [hk]; rfl⟩
    · exact ⟨1, hb, by rw [hk]; rfl⟩
  | condJump hk hu => exact ⟨0, mem_singleton.1 hr ▸ hu, by rw [hk]; rfl⟩
  | ret hk hu => exact ⟨1, mem_singleton.1 hr ▸ hu, by rw [hk]; rfl⟩

/-- A node that holds a value sets its register. -/
theorem mem_defs (hh : (c.graph.kind n).holdsValue) (hr : c.register n = .ok r) :
    r ∈ l.defs := by
  cases h with
  | load _ hd | binary _ hd | compare _ hd =>
    exact mem_singleton.2 (Except.ok.inj (hr.symm.trans hd))
  | jump hk | condJump hk | ret hk =>
    rw [hk] at hh
    cases hh

/-- **Control goes on to the line below, or to where the node jumps.** -/
theorem mem_succs (hj : j ∈ l.succs) : (c.graph.kind n).isTerminator = false ∧ j = next ∨
      ∃ block ∈ c.graph.targets n, c.target block = .ok j := by
  cases h with
  | @load w _ hk =>
    refine .inl ⟨?_, mem_singleton.1 hj⟩
    by_contra hterm
    rw [constant?_of_isTerminator (Bool.not_eq_false _ ▸ hterm)] at hk
    cases hk
  | binary hk | compare hk => exact .inl ⟨by rw [hk]; rfl, mem_singleton.1 hj⟩
  | @jump block line hk ht =>
    refine .inr ⟨block, ?_, mem_singleton.1 hj ▸ ht⟩
    rw [Graph.targets, hk]
    exact .head _
  | @condJump ifTrue ifFalse _ yes no hk _ hyes hno =>
    rw [Graph.targets, hk]
    simp only [mem_cons, not_mem_nil, or_false] at hj
    rcases hj with rfl | rfl
    · exact .inr ⟨ifTrue, .head _, hyes⟩
    · exact .inr ⟨ifFalse, .tail _ (.head _), hno⟩
  | ret => cases hj

end Line.Context.NodeLine

namespace Schedule

/-! ## Where lines stand -/

/-- **A line and its item**, with the items of its block before and after it. -/
structure At (s : Schedule) (i : Nat) (b : ScheduledBlock) (past : List Item) (item : Item)
    (rest : List Item) : Prop where
  split : b.items = past ++ item :: rest
  place : ∃ before after, s.blocks = before ++ b :: after ∧
    i = (before.flatMap (·.items)).length + past.length

variable {g : Graph} {dead : NodeId → Prop} {s : Schedule} {ends : List NodeId}
  {n a t block : NodeId} {i : Nat} {b : ScheduledBlock} {past rest : List Item} {item item' : Item}
  {lines : Array Line} {r : VReg}

theorem exists_at (hi : i < s.items.length) : ∃ b past item rest, s.At i b past item rest := by
  obtain ⟨before, b, after, k, hk, hb, rfl, -⟩ := Allocated.exists_position hi
  refine ⟨b, b.items.take k, b.items[k], b.items.drop (k + 1), ?_, before, after, hb, ?_⟩
  · rw [← drop_eq_getElem_cons hk, take_append_drop]
  · rw [length_take, Nat.min_eq_left hk.le]

namespace At

variable (h : s.At i b past item rest)

include h

theorem mem_blocks : b ∈ s.blocks := by
  obtain ⟨before, after, hb, -⟩ := h.place
  exact hb ▸ mem_append_right _ mem_cons_self

theorem getElem? : s.items[i]? = some item := by
  obtain ⟨before, after, hb, rfl⟩ := h.place
  unfold items
  rw [hb, flatMap_append, flatMap_cons, h.split,
    getElem?_append_right (Nat.le_add_right _ _), Nat.add_sub_cancel_left, append_assoc,
    getElem?_append_right le_rfl, Nat.sub_self]
  rfl

theorem lt : i < s.items.length := (List.getElem?_eq_some_iff.1 h.getElem?).1

theorem line_eq (hlines : Line.ofSchedule g s (s.numbering g) = .ok lines) :
    (s.context g).line item (i + 1) = .ok (lineAt lines i) := by
  obtain ⟨hi, he⟩ := List.getElem?_eq_some_iff.1 h.getElem?
  exact he ▸ (Line.ofSchedule_eq_ok hlines).2 i hi

end At

theorem At.next (h : s.At i b past item (item' :: rest)) :
    s.At (i + 1) b (past ++ [item]) item' rest := by
  obtain ⟨before, after, hb, rfl⟩ := h.place
  refine ⟨by rw [h.split, append_assoc]; rfl, before, after, hb, ?_⟩
  rw [length_append]
  rfl

/-- **The members of a block**, in the order in which they are computed. -/
def members (g : Graph) (s : Schedule) (block : NodeId) : List NodeId :=
  g.orderMembers (membersOf g (s.scheduled g) block)

theorem mem_members : n ∈ s.members g block ↔
    n ∈ s.scheduled g ∧ (g.kind n).isOrdinary ∧ g.blockOf n = block := by
  have hmem : n ∈ membersOf g (s.scheduled g) block ↔
      n ∈ s.scheduled g ∧ (g.kind n).isOrdinary = true ∧ g.blockOf n = block := by
    simp [membersOf]
  rw [← hmem]
  refine ⟨mem_of_mem_orderMembers, fun hn => ?_⟩
  exact Walk.mem_postorder_of_reach _ (fun x _ a ha => contains_iff_mem.1 (mem_filter.1 ha).2)
    (fun _ => id) le_rfl hn .refl

/-- **What an item of a block is**: one of its members, a copy, or its end. -/
inductive Shape (g : Graph) (s : Schedule) (block : NodeId) : List Item → Item → List Item → Prop
  | member {n : NodeId} {before after : List NodeId} {rest : List Item} {item : Item}
      (hmembers : s.members g block = before ++ n :: after) :
      Shape g s block (before.map .node) (.node n) (item :: rest)
  | copy {past rest : List Item} {copy item : Item}
      (hpast : ∀ n ∈ s.members g block, .node n ∈ past) (hcopy : copy ∈ s.copiesIn g block) :
      Shape g s block past copy (item :: rest)
  | final {t : NodeId} (hend : g.terminator? block = some t) :
      Shape g s block (s.body g block) (.node t) []

namespace Built

variable (hs : s.Built g ends)

include hs

theorem shape (h : s.At i b past item rest) : s.Shape g b.block past item rest := by
  obtain ⟨-, t, ht, hi⟩ := hs.of_mem_blocks h.mem_blocks
  have hsplit := hi.symm.trans h.split
  rcases eq_nil_or_concat rest with rfl | ⟨rest, last, rfl⟩
  · obtain ⟨hb, hl⟩ := append_inj' hsplit rfl
    obtain rfl : item = .node t := (List.cons.inj hl).1.symm
    exact hb ▸ .final ht
  · rw [concat_eq_append, ← cons_append, ← append_assoc] at hsplit
    have hb := (append_inj' hsplit rfl).1
    obtain ⟨next, later, hr⟩ := exists_cons_of_ne_nil
      (concat_ne_nil last rest)
    rw [concat_eq_append, hr]
    have hmap : ∀ n ∈ s.members g b.block, Item.node n ∈ (s.members g b.block).map Item.node :=
      fun n hn => mem_map_of_mem hn
    rcases append_eq_append_iff.1 hb with ⟨front, rfl, hc⟩ | ⟨front, hnodes, hc⟩
    · exact .copy (fun n hn => mem_append_left _ (hmap n hn))
        (hc ▸ mem_append_right _ mem_cons_self)
    · cases front with
      | nil =>
        rw [append_nil] at hnodes
        rw [nil_append] at hc
        exact .copy (fun n hn => hnodes ▸ hmap n hn) (hc ▸ mem_cons_self)
      | cons first front =>
        obtain rfl : item = first := (List.cons.inj hc).1
        obtain ⟨before, nodes, hm, rfl, hf⟩ := map_eq_append_iff.1 hnodes
        obtain ⟨n, after, rfl, rfl, -⟩ := map_eq_cons_iff.1 hf
        exact .member hm

theorem exists_items (hb : b ∈ s.blocks) : ∃ item rest, b.items = item :: rest := by
  obtain ⟨-, t, -, hi⟩ := hs.of_mem_blocks hb
  exact exists_cons_of_ne_nil
    (hi ▸ append_ne_nil_of_right_ne_nil _ (cons_ne_nil _ _))

theorem at_target {line : Nat} (h : (s.context g).target block = .ok line) :
    ∃ b item rest, s.At line b [] item rest ∧ b.block = block := by
  obtain ⟨before, b, after, hb, rfl, rfl⟩ :=
    Line.lookup_starts (Line.Context.target_eq_ok.1 h)
  obtain ⟨item, rest, hne⟩ :=
    hs.exists_items (hb ▸ mem_append_right before mem_cons_self : b ∈ s.blocks)
  exact ⟨b, item, rest, ⟨hne, before, after, hb, (Nat.zero_add _).trans rfl⟩, rfl⟩

/-- **The first line is that of the start block.** -/
theorem at_zero (h : g.Regular) :
    ∃ b item rest, s.At 0 b [] item rest ∧ b.block = Graph.startBlock := by
  obtain ⟨later, hl⟩ := h.layout_eq_cons
  have hm := hs.map_block
  rw [hl] at hm
  obtain ⟨b, after, hblocks, hb, -⟩ := map_eq_cons_iff.1 hm
  obtain ⟨item, rest, hne⟩ := hs.exists_items (hblocks ▸ mem_cons_self : b ∈ s.blocks)
  exact ⟨b, item, rest, ⟨hne, [], after, hblocks, rfl⟩, hb⟩

end Built

/-! ## The order of members -/

section Order

variable (hs : s.Built g ends) (h : g.Complete dead)

include hs h

theorem transGen_precedes (hn : n ∈ s.members g block)
    (hm : m ∈ g.dependencies (membersOf g (s.scheduled g) block) n) :
    m ∈ s.members g block ∧ Relation.TransGen g.Precedes m n := by
  obtain ⟨hmap, hmem⟩ := mem_filter.1 hm
  obtain ⟨a, ha, rfl⟩ := mem_map.1 hmap
  obtain ⟨hscheduled, hk, hb⟩ := mem_members.1 hn
  have hmember : g.producer a ∈ s.members g block := by
    refine mem_members.2 ?_
    simpa [membersOf] using hmem
  have hh := (mem_members.1 hmember).2.2.trans hb.symm
  obtain ⟨hphi, hnot⟩ := of_isOrdinary hk
  have hascheduled := hs.mem_scheduled_of_mem_operands h hscheduled ha
  refine ⟨hmember, ?_⟩
  rcases h.producer_eq_or (hs.selected h hascheduled) (mem_scheduled_iff.1 hascheduled).1 with
    he | ⟨hops, hp, hsame⟩
  · rw [he] at hh ⊢
    exact .single ⟨ha, hh, hphi, hnot⟩
  · obtain ⟨hphi', hnot'⟩ := of_isProj hp
    have hf : g.Precedes (g.producer a) a :=
      ⟨hops ▸ mem_singleton_self _, hsame, hphi', hnot'⟩
    exact .tail (.single hf) ⟨ha, hsame.symm.trans hh, hphi, hnot⟩

/-- **A member comes after the members it depends on.** -/
theorem mem_before {before after : List NodeId} (hb : block ∈ g.layout)
    (hmembers : s.members g block = before ++ n :: after)
    (hm : m ∈ g.dependencies (membersOf g (s.scheduled g) block) n) : m ∈ before := by
  have hn : n ∈ s.members g block := hmembers ▸ mem_append_right _ mem_cons_self
  obtain ⟨hmember, hlt⟩ := transGen_precedes hs h hn hm
  refine (Walk.mem_before_of_mem_next _ (fun x _ a ha =>
    contains_iff_mem.1 (mem_filter.1 ha).2) (fun _ => id) le_rfl hmembers
      hm).resolve_right fun hr => ?_
  -- A dependency that leads back would be a circle of uses.
  have hback : ∀ {x}, Walk.Reach (g.dependencies (membersOf g (s.scheduled g) block)) m x →
      x ∈ s.members g block ∧ Relation.ReflTransGen g.Precedes x m := fun hr => by
    induction hr with
    | refl => exact ⟨hmember, .refl⟩
    | tail _ hnext ih =>
      obtain ⟨hmem, hstep⟩ := transGen_precedes hs h ih.1 hnext
      exact ⟨hmem, hstep.to_reflTransGen.trans ih.2⟩
  have hreaches : g.Reaches (g.blockOf n) :=
    (mem_members.1 hn).2.2.symm ▸ (h.reaches_of_mem_layout hb).2.1
  exact not_transGen_self (h.strict.order n hreaches)
    (Relation.TransGen.trans_right (hback hr).2 hlt)

end Order

/-! ## Available nodes -/

/-- **A node is available** in a block after some of its items. -/
inductive Available (g : Graph) (s : Schedule) (block : NodeId) (past : List Item) (n : NodeId) :
    Prop
  | earlier (hne : g.blockOf n ≠ block) (hdom : Dominates g.preds (g.blockOf n) block)
  | merged (hphi : (g.kind n).isPhi = true) (hblock : g.blockOf n = block)
  | computed (hmem : .node n ∈ past)
  | copied {edge : Nat} (hmem : .phiMoves (g.blockOf n) edge ∈ past)
      (hphi : n ∈ s.valuePhis (g.blockOf n))

/-- **A register belongs to a node** of the schedule. -/
def Owns (g : Graph) (s : Schedule) (r : VReg) (n : NodeId) : Prop :=
  (s.numbering g).owners.idxOf? n = some r

theorem owns_of_register (h : (s.context g).register n = .ok r) : s.Owns g r (g.producer n) :=
  Line.Context.register_eq_ok.1 h

/-- A register belongs to one node. -/
theorem Owns.unique (h : s.Owns g r n) (h' : s.Owns g r m) : m = n := by
  obtain ⟨hlt, he, -⟩ := idxOf?_eq_some_iff.1 h
  obtain ⟨hlt', he', -⟩ := idxOf?_eq_some_iff.1 h'
  exact he'.symm.trans he

theorem Owns.register (h : s.Owns g r n) (hh : (g.kind n).holdsValue) :
    (s.context g).register n = .ok r := by
  refine Line.Context.register_eq_ok.2 ?_
  show (s.numbering g).owners.idxOf? (g.producer n) = some r
  rw [producer_of_not_isProj (isProj_eq_false_of_holdsValue hh)]
  exact h

/-- **A node is ready** in a block after some of its items: its block dominates this
one, and if they are the same it is merged there, or one of the items computes it. -/
structure Ready (g : Graph) (block : NodeId) (past : List Item) (n : NodeId) : Prop where
  dominates : Dominates g.preds (g.blockOf n) block
  computed : g.blockOf n = block → (g.kind n).isPhi = true ∨ .node n ∈ past

theorem Ready.available (h : Ready g block past n) : s.Available g block past n := by
  by_cases hb : g.blockOf n = block
  · rcases h.computed hb with hphi | hmem
    · exact .merged hphi hb
    · exact .computed hmem
  · exact .earlier hb h.dominates

/-- **After the members of a block, whatever dominates the block is ready.** -/
theorem ready_of_dominates (hn : n ∈ s.scheduled g) (hh : (g.kind n).holdsValue)
    (hdom : Dominates g.preds (g.blockOf n) block) (hp : ∀ m ∈ s.members g block, .node m ∈ past) :
    Ready g block past n := by
  refine ⟨hdom, fun hb => ?_⟩
  by_cases hphi : (g.kind n).isPhi = true
  · exact .inl hphi
  · exact .inr (hp n (mem_members.2 ⟨hn,
      isOrdinary_of_holdsValue hh (Bool.eq_false_iff.2 hphi), hb⟩))

namespace Built

variable (hs : s.Built g ends) (h : g.Complete dead)

include hs h

theorem mem_scheduled_of_owns (hn : s.Owns g r n) : n ∈ s.scheduled g ∧ (g.kind n).holdsValue := by
  have hmem : n ∈ (s.numbering g).owners :=
    isSome_idxOf?.1 (by rw [hn]; rfl)
  obtain ⟨hp, hh⟩ := mem_filter.1 hmem
  refine ⟨mem_scheduled_iff.2 ⟨?_, hp⟩, hh⟩
  rw [hs.postorder_eq_postorder h] at hp
  obtain ⟨t, ht, hr⟩ := Walk.reach_of_mem_postorder hp
  exact (mem_scheduled_iff.1 (hs.mem_scheduled_of_reach h ht hr)).1

theorem mem_valuePhis_of_owns (hn : s.Owns g r n) (hphi : (g.kind n).isPhi)
    (hl : g.blockOf n ∈ g.layout) : n ∈ s.valuePhis (g.blockOf n) := by
  obtain ⟨hscheduled, hh⟩ := hs.mem_scheduled_of_owns h hn
  rw [hs.valuePhis_eq hl, phisOf]
  simp [hscheduled, isValuePhi_of_holdsValue hh hphi]

theorem exists_owner (hn : n ∈ s.scheduled g) (hop : (s.context g).operand n index = .ok r)
    (ht : (g.kind n).takes index = some .value) :
    ∃ a m, (g.operands n)[index]? = some a ∧ g.Computes a m ∧ s.Owns g r m ∧ m ∈ s.scheduled g := by
  obtain ⟨a, ha, hr⟩ := Line.Context.operand_eq_ok.1 hop
  have hmem := hs.mem_scheduled_of_mem_operands h hn (mem_of_getElem? ha)
  obtain ⟨m, hm⟩ := h.exists_computes (h.strict.typed n index a ha .value ht)
    (mem_scheduled_iff.1 hmem).1 (hs.selected h hmem).live
  exact ⟨a, m, ha, hm, hm.producer ▸ owns_of_register hr, hs.mem_scheduled_of_computes h hmem hm⟩

/-- **What a node reads is ready.** -/
theorem exists_ready (hat : s.At i b past (.node n) rest)
    (hop : (s.context g).operand n index = .ok r) (ht : (g.kind n).takes index = some .value) :
    ∃ a m, (g.operands n)[index]? = some a ∧ g.Computes a m ∧ s.Owns g r m ∧
      Ready g b.block past m := by
  have hl : b.block ∈ g.layout := hs.map_block ▸ mem_map_of_mem hat.mem_blocks
  generalize hb : b.block = block at hl ⊢
  have hshape : s.Shape g block past (.node n) rest := hb ▸ hs.shape hat
  cases hshape with
  | @member _ before after _ _ hmembers =>
    have hmem : n ∈ s.members g block := hmembers ▸ mem_append_right _ mem_cons_self
    obtain ⟨hn, hk, hh⟩ := mem_members.1 hmem
    obtain ⟨a, m, ha, hm, ho, hscheduled⟩ := hs.exists_owner h hn hop ht
    obtain ⟨hphi, hnot⟩ := of_isOrdinary hk
    have hd := h.strict.uses n hphi hnot a (mem_of_getElem? ha)
    rw [hh, ← hm.block] at hd
    refine ⟨a, m, ha, hm, ho, hd, fun hsame => ?_⟩
    by_cases hmphi : (g.kind m).isPhi = true
    · exact .inl hmphi
    · have hordinary := isOrdinary_of_holdsValue hm.holdsValue (Bool.eq_false_iff.2 hmphi)
      refine .inr (mem_map_of_mem (mem_before hs h hl hmembers ?_))
      refine mem_filter.2 ⟨hm.producer ▸ mem_map_of_mem (mem_of_getElem? ha), ?_⟩
      simp [membersOf, hscheduled, hordinary, hsame]
  | copy _ hc => cases node?_copiesIn hc
  | final he =>
    obtain ⟨hterm, rfl⟩ := terminator?_eq_some he
    have hn := hs.mem_scheduled_of_mem_ends h ((mem_ends hs.terminators).2 ⟨_, hl, he⟩)
    obtain ⟨a, m, ha, hm, ho, hscheduled⟩ := hs.exists_owner h hn hop ht
    have hd := h.strict.uses n (isPhi_eq_false_of_isTerminator hterm)
      (isBlock_eq_false_of_isTerminator hterm) a (mem_of_getElem? ha)
    refine ⟨a, m, ha, hm, ho, ready_of_dominates hscheduled hm.holdsValue (hm.block ▸ hd) ?_⟩
    exact fun m hm => mem_append_left _ (mem_map_of_mem hm)

/-- **What is copied is ready.** -/
theorem exists_ready_copy {target edge : Nat} {phi : NodeId}
    (hat : s.At i b past (.phiMoves target edge) rest) (hphi : phi ∈ s.valuePhis target)
    (hop : (s.context g).operand phi edge = .ok r) :
    ∃ a m, (g.operands phi)[edge]? = some a ∧ g.Computes a m ∧ s.Owns g r m ∧
      Ready g b.block past m := by
  have hshape := hs.shape hat
  generalize b.block = block at hshape ⊢
  cases hshape with
  | copy hp hc =>
    obtain ⟨_, _, he, -, -, hedge⟩ := hs.mem_copiesIn.1 hc
    cases he
    obtain ⟨hn, hk, rfl⟩ := hs.mem_valuePhis hphi
    obtain ⟨a, m, ha, hm, ho, hscheduled⟩ :=
      hs.exists_owner h hn hop (takes_of_isValuePhi hk)
    have hdom := h.strict.merges phi (isPhi_of_isValuePhi hk) edge a ha _ hedge
    exact ⟨a, m, ha, hm, ho, ready_of_dominates hscheduled hm.holdsValue (hm.block ▸ hdom) hp⟩

variable (hlines : Line.ofSchedule g s (s.numbering g) = .ok lines)

include hlines

/-- **What a line reads is available.** -/
theorem exists_available (hat : s.At i b past item rest) (hr : r ∈ (lineAt lines i).uses) :
    ∃ n, s.Owns g r n ∧ s.Available g b.block past n := by
  have hl := hat.line_eq hlines
  cases item with
  | node n =>
    obtain ⟨index, hop, ht⟩ := (Line.Context.nodeLine_eq_ok hl).exists_operand hr
    obtain ⟨a, m, -, -, ho, hready⟩ := hs.exists_ready h hat hop ht
    exact ⟨m, ho, hready.available⟩
  | phiMoves target edge =>
    obtain ⟨copies, hall, heq⟩ := Line.Context.phiMoves_eq_ok hl
    rw [heq] at hr
    obtain ⟨copy, hmem, rfl⟩ := mem_map.1 hr
    obtain ⟨phi, hphi, -, hop⟩ := exists_mem_of_mem_right hall hmem
    obtain ⟨a, m, -, -, ho, hready⟩ := hs.exists_ready_copy h hat hphi hop
    exact ⟨m, ho, hready.available⟩

omit h in
/-- **Where control goes from a line**: to the line below, or to the first line of
a block that the end of the block leads to. -/
theorem succ_cases (hat : s.At i b past item rest) (hj : j ∈ (lineAt lines i).succs) :
    (∃ item' rest', rest = item' :: rest' ∧ j = i + 1) ∨
      ∃ t b' item' rest', g.terminator? b.block = some t ∧ past = s.body g b.block ∧
        s.At j b' [] item' rest' ∧ b'.block ∈ g.targets t := by
  have hl := hat.line_eq hlines
  have hshape := hs.shape hat
  generalize b.block = block at hshape ⊢
  cases hshape with
  | @member n before after rest' item' hm =>
    obtain ⟨-, hk, -⟩ := mem_members.1
      (hm ▸ mem_append_right _ mem_cons_self : n ∈ s.members g block)
    rcases (Line.Context.nodeLine_eq_ok hl).mem_succs hj with ⟨-, he⟩ | ⟨target, ht, -⟩
    · exact .inl ⟨item', rest', rfl, he⟩
    · have ht : target ∈ (g.kind n).targets := ht
      rw [targets_eq_nil_of_isOrdinary hk] at ht
      cases ht
  | @copy _ rest' copy item' _ hc =>
    obtain ⟨target, edge, rfl, -⟩ := hs.mem_copiesIn.1 hc
    obtain ⟨copies, -, heq⟩ := Line.Context.phiMoves_eq_ok hl
    rw [heq] at hj
    exact .inl ⟨item', rest', rfl, mem_singleton.1 hj⟩
  | @final t hend =>
    rcases (Line.Context.nodeLine_eq_ok hl).mem_succs hj with ⟨hnot, -⟩ | ⟨target, hmem, ht⟩
    · cases hnot.symm.trans (terminator?_eq_some hend).1
    · obtain ⟨b', item', rest', hat', rfl⟩ := hs.at_target ht
      exact .inr ⟨t, b', item', rest', hend, rfl, hat', hmem⟩

/-- **A node that a line makes available is set by the line.** -/
theorem available_of_append (hat : s.At i b past item rest) (hn : s.Owns g r n)
    (hr : r ∉ (lineAt lines i).defs) (hnext : s.Available g b.block (past ++ [item]) n) :
    s.Available g b.block past n := by
  have hl := hat.line_eq hlines
  have hh := (hs.mem_scheduled_of_owns h hn).2
  have hregister := hn.register hh
  cases hnext with
  | earlier hne hdom => exact .earlier hne hdom
  | merged hp hb => exact .merged hp hb
  | computed hm =>
    rcases mem_append.1 hm with hm | hm
    · exact .computed hm
    · obtain rfl := mem_singleton.1 hm
      exact absurd ((Line.Context.nodeLine_eq_ok hl).mem_defs hh hregister) hr
  | @copied edge hm hp =>
    rcases mem_append.1 hm with hm | hm
    · exact .copied hm hp
    · obtain rfl := mem_singleton.1 hm
      obtain ⟨copies, hall, heq⟩ := Line.Context.phiMoves_eq_ok hl
      obtain ⟨copy, hc, hd, -⟩ := exists_mem_of_mem_left hall hp
      rw [heq] at hr
      refine absurd ?_ hr
      rw [Except.ok.inj (hregister.symm.trans hd)]
      exact mem_map_of_mem hc

omit hlines in
/-- **What is available where a block begins is available at the end of every block
that leads there.** -/
theorem available_of_edge {b' : ScheduledBlock} (hn : s.Owns g r n) (hb : b' ∈ s.blocks)
    (hend : g.terminator? block = some t) (hmem : b'.block ∈ g.targets t)
    (hnext : s.Available g b'.block [] n) : s.Available g block (s.body g block) n := by
  obtain ⟨hscheduled, hh⟩ := hs.mem_scheduled_of_owns h hn
  obtain ⟨ht, rfl⟩ := terminator?_eq_some hend
  have hp := h.mem_preds ht (mem_exits_of_mem_targets hmem)
  obtain ⟨edge, he⟩ := mem_iff_getElem?.1 hp
  cases hnext with
  | earlier hne hdom =>
    exact (ready_of_dominates hscheduled hh (hdom.of_edge hne he)
      fun m hm => mem_append_left _ (mem_map_of_mem hm)).available
  | merged hphi hblock =>
    have hl : b'.block ∈ g.layout := hs.map_block ▸ mem_map_of_mem hb
    have hv := hs.mem_valuePhis_of_owns h hn hphi (hblock.symm ▸ hl)
    refine .copied (mem_append_right _ (hs.mem_copiesIn.2 ⟨g.blockOf n, edge, rfl, ?_, ?_, ?_⟩))
      hv
    · exact hblock.symm ▸ hl
    · exact ne_nil_of_mem hv
    · exact hblock.symm ▸ he
  | computed hmem | copied hmem => cases hmem

/-- **Whatever is live into a line is available there.** -/
theorem available_of_liveInto (hl : Line.LiveInto lines r i) :
    ∃ n, s.Owns g r n ∧ ∀ b past item rest, s.At i b past item rest →
      s.Available g b.block past n := by
  have hsize := (Line.ofSchedule_eq_ok hlines).1
  induction hl with
  | @use i hi hr =>
    obtain ⟨b, past, item, rest, hat⟩ := exists_at (hsize ▸ hi)
    obtain ⟨n, hn, -⟩ := hs.exists_available h hlines hat hr
    refine ⟨n, hn, fun b past item rest hat => ?_⟩
    obtain ⟨m, hm, ha⟩ := hs.exists_available h hlines hat hr
    exact hn.unique hm ▸ ha
  | @pass i j hi hj hr _ ih =>
    obtain ⟨n, hn, hnext⟩ := ih
    refine ⟨n, hn, fun b past item rest hat => ?_⟩
    rcases hs.succ_cases hlines hat hj with ⟨item', rest', rfl, rfl⟩ |
      ⟨t, b', item', rest', hend, rfl, hat', hmem⟩
    · exact hs.available_of_append h hlines hat hn hr (hnext _ _ _ _ hat.next)
    · exact hs.available_of_edge h hn hat'.mem_blocks hend hmem (hnext _ _ _ _ hat')

omit h in
/-- Control never runs off the lines. -/
theorem lt_of_mem_succs (hi : i < lines.size) (hj : j ∈ (lineAt lines i).succs) :
    j < lines.size := by
  have hsize := (Line.ofSchedule_eq_ok hlines).1
  obtain ⟨b, past, item, rest, hat⟩ := exists_at (hsize ▸ hi)
  rw [hsize]
  rcases hs.succ_cases hlines hat hj with ⟨item', rest', rfl, rfl⟩ |
    ⟨t, b', item', rest', -, -, hat', -⟩
  · exact hat.next.lt
  · exact hat'.lt

/-- **Nothing is live into the first line.** -/
theorem not_liveInto_zero : ¬ Line.LiveInto lines r 0 := fun hl => by
  obtain ⟨n, hn, ha⟩ := hs.available_of_liveInto h hlines hl
  obtain ⟨hscheduled, -⟩ := hs.mem_scheduled_of_owns h hn
  obtain ⟨b, item, rest, hat, hb⟩ := hs.at_zero h.toRegular
  have hf := ha b [] item rest hat
  rw [hb] at hf
  cases hf with
  | earlier hne hdom => exact hne (hdom [] .nil rfl)
  | merged hphi hb => exact h.unmerged n hphi (hs.selected h hscheduled).live hb
  | computed hm | copied hm => cases hm

end Built

end Schedule

end SsaCompiler
