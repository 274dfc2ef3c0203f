import SsaCompiler.Proofs.Program.Frame

/-!
# The walk is sound

The last stage of a walk gives a blueprint, and a stage of the walk is **on its
way** to it (`Stage.Toward`). A part of the walk *keeps* soundness if it does so
on the way to any blueprint (`Stage.Keeps`). What a part has to know of the nodes
it uses is that they **fit**: they are there on every path to the current block,
and they are values (`Stage.Fits`). Reads answer nodes that fit, and so do
computations from nodes that fit. So the walk over an expression answers a node
that fits, and **the walk over a statement keeps soundness**
(`Stmt.Walks.keeps`). It also keeps the form of the nodes: each has as many
operands as its kind asks for, unless it was made in vain (`Graph.Formed`).
-/

namespace SsaCompiler

open List Option Graph Builder Stage Kind

variable {c : Builder} {op : BinOp} {lhs rhs effect a b cond target block : NodeId}
  {P : NodeId → Prop} {v s : Stage} {condition : Expr} {name : String} {sharing : Bool}

namespace Stage

variable {last s t u : Stage} {F : Blueprint} {kind : Kind} {block n a b : NodeId}
  {operands : List NodeId} {P Q : Prop}

/-! ## On the way to a blueprint -/

/-- **A stage is on its way to a blueprint** of the last stage. -/
structure Toward (last : Stage) (F : Blueprint) (s : Stage) : Prop where
  agreesLast : last.Agrees F
  value : ∀ n, last.graph.IsValue n → F.value n
  grows : Grows s last

namespace Toward

theorem back (h : Toward last F t) (hg : Grows s t) (hwf : s.WellFormed) : Toward last F s :=
  ⟨h.agreesLast, h.value, hg.trans h.grows hwf⟩

theorem agrees (h : Toward last F s) (hwf : s.WellFormed) : s.Agrees F :=
  agrees_of_grows h.agreesLast h.grows hwf

/-- A value stays a value. -/
theorem value_of_isValue (h : Toward last F s) (hn : n < s.graph.size) (hv : s.graph.IsValue n) :
    F.value n := by
  have hkind := h.grows.kind n hn
  refine h.value n ⟨hkind ▸ hv.isValue, fun k hk => ?_⟩
  rw [hkind] at hk
  obtain ⟨new, -, hops⟩ := h.grows.resolved
  rw [hops n hn (isPhi_eq_false_of_arity? hk) (isBlock_eq_false_of_arity? hk), length_map]
  exact hv.arity k hk

end Toward

/-- **A node fits a stage**: it is there on every path to the current block, and
it is a value. -/
structure Fits (F : Blueprint) (s : Stage) (n : NodeId) : Prop where
  dom : F.Dom (F.block n) s.current
  value : F.value n

theorem Fits.of_current (h : Fits F s n) (hc : t.current = s.current) : Fits F t n :=
  ⟨hc ▸ h.dom, h.value⟩

/-- **A stage is right**: what it has recorded is, its nodes are well formed, and
computations are made only where a path leads. -/
structure Right (F : Blueprint) (s : Stage) : Prop where
  sound : s.Sound F
  formed : ∀ n, s.graph.Formed n
  reached : ∀ n, (s.graph.kind n).isComputation = true → s.graph.Reaches (s.graph.blockOf n)

/-- **What a new node has to satisfy.** -/
structure Fresh (s t : Stage) (n : NodeId) : Prop where
  formed : t.graph.Formed n
  reached : (t.graph.kind n).isComputation = true →
    (s.graph.kind (t.graph.blockOf n)).isBlock = true ∧ s.graph.Reaches (t.graph.blockOf n)

theorem formed_of_size_le {g : Graph} (hn : g.size ≤ n) : g.Formed n := by
  refine formed_of_operands_eq_nil ?_ (g.operands_of_size_le hn)
  rw [kind_of_size_le g hn]
  rfl

/-- **Nodes keep their form.** -/
theorem Grows.formed (hg : Grows s t) (hwf : s.WellFormed) (hwf' : t.WellFormed)
    (h : s.graph.Formed n) (hn : n < s.graph.size) : t.graph.Formed n := by
  have hkind := hg.kind n hn
  by_cases hp : (s.graph.kind n).isPhi = true
  · exact formed_of_isPhi (hkind ▸ hp)
  by_cases hb : (s.graph.kind n).isBlock = true
  · exact formed_of_isBlock (hkind ▸ hb)
  obtain ⟨new, hf, ho⟩ := hg.resolved
  have ho := ho n hn (Bool.not_eq_true _ ▸ hp) (Bool.not_eq_true _ ▸ hb)
  refine ⟨fun k hk => ?_, fun hk => ?_, fun channel hk m hm => ?_⟩
  · rw [hkind] at hk ⊢
    rw [ho, length_map, map_eq_nil_iff]
    exact h.arity k hk
  · rw [ho, h.bare (hkind ▸ hk)]
    rfl
  · rw [hkind] at hk
    obtain ⟨m', hm', rfl⟩ := mem_map.1 (ho ▸ hm)
    obtain ⟨hb, hnode⟩ := h.output channel hk m' hm'
    have hlt := hwf.coherent.closed n m' hm'
    -- An operation and the origin of effects are no merges, so nothing takes their place.
    have hp : (t.graph.kind m').isPhi = false := by
      rw [hg.kind m' hlt]
      rcases hnode with ht | ⟨-, hstart⟩
      · exact isPhi_eq_false_of_mayTrap ht
      · rw [hstart]
        rfl
    have hr : Builder.root new m' = m' := by
      have hs : t.toBuilder.Stands m' := hwf'.stands_of_isPhi_eq_false hp
      unfold Builder.Stands at hs
      rw [hf, lookup_append, or_eq_none_iff] at hs
      exact (root_of_lookup hs.1).1
    rw [hr, hg.blockOf m' hlt, hg.kind m' hlt, hg.blockOf n hn]
    exact ⟨hb, hnode⟩

theorem Right.grow (h : s.Right F) (hs : Steps s t) (hwf : s.WellFormed)
    (hsound : t.Sound F) (hnew : ∀ n, s.graph.size ≤ n → Fresh s t n) : t.Right F := by
  have hg := hs.grows hwf
  refine ⟨hsound, fun n => ?_, fun n hc => ?_⟩
  · by_cases hn : n < s.graph.size
    · exact hg.formed hwf (hs.wf hwf) (h.formed n) hn
    · exact (hnew n (not_lt.1 hn)).formed
  · by_cases hn : n < s.graph.size
    · rw [hg.kind n hn] at hc
      rw [hg.blockOf n hn]
      exact hg.reaches hwf (hwf.home n hn) (h.reached n hc)
    · obtain ⟨hb, hr⟩ := (hnew n (not_lt.1 hn)).reached hc
      exact hg.reaches hwf hb hr

theorem fresh_of_formed (h : t.graph.Formed n) (hk : (t.graph.kind n).isComputation = false) :
    Fresh s t n :=
  ⟨h, fun hc => absurd (hk.symm.trans hc) nofun⟩

theorem fresh_of_size_le (hn : t.graph.size ≤ n) : Fresh s t n :=
  fresh_of_formed (formed_of_size_le hn) (by rw [kind_of_size_le _ hn]; rfl)

/-- **A part of the walk keeps a stage right**, and something holds after it. -/
structure Keeps (last : Stage) (F : Blueprint) (s : Stage) (P : Prop) (t : Stage) : Prop where
  steps : Steps s t
  right : s.toBuilder.WellFormed → Toward last F t → s.Right F → t.Right F ∧ P

namespace Keeps

theorem refl (hP : P) : Keeps last F s P s := ⟨.refl, fun _ _ h => ⟨h, hP⟩⟩

/-- One part after another; the second may rely on what holds after the
first. -/
theorem bind (h : Keeps last F s P t) (hs : Steps t u) (h' : P → Keeps last F t Q u) :
    Keeps last F s Q u := by
  refine ⟨h.steps.trans hs, fun hwf hu hr => ?_⟩
  have ht := h.steps.wf hwf
  obtain ⟨hr, hP⟩ := h.right hwf (hu.back (hs.grows ht) ht) hr
  exact (h' hP).right ht hu hr

theorem trans (h : Keeps last F s P t) (h' : Keeps last F t Q u) : Keeps last F s Q u :=
  h.bind h'.steps fun _ => h'

end Keeps

/-! ## Steps -/

theorem keeps_newBlock (s : Stage) (role : String) :
    Keeps last F s True (s.newBlock role) := by
  have hs : Steps s (s.newBlock role) := .single (.newBlock role)
  refine ⟨hs, fun hwf _ h => ⟨h.grow hs hwf (h.sound.newBlock role) fun n hn => ?_, trivial⟩⟩
  by_cases he : n = s.graph.size
  · have hb := (s.isBlock_newBlock role n).2 (.inl he)
    exact fresh_of_formed (formed_of_isBlock hb)
      (isComputation_eq_false_of_isBlock hb)
  · refine fresh_of_size_le ?_
    rw [size_newBlock]
    exact Nat.lt_of_le_of_ne hn (Ne.symm he)

theorem keeps_enter (hb : (s.graph.kind block).isBlock) : Keeps last F s True (s.enter block) :=
  ⟨.single (.enter hb), fun _ _ h => ⟨⟨⟨h.sound.entry, h.sound.pending_lt, h.sound.feeds,
    h.sound.complete, h.sound.start, h.sound.holds, h.sound.defined, h.sound.same, h.sound.waiting,
    h.sound.uses, h.sound.typed⟩, h.formed, h.reached⟩, trivial⟩⟩

theorem fresh_of_evolves {old : Nat} (h : Builder.Evolves old s.toBuilder c)
    (hg : t.graph = c.graph) (hn : s.graph.size ≤ n) : Fresh s t n := by
  have hb := h.bare n hn
  have hf := h.fresh n hn
  rw [← hg] at hb hf
  rcases hf with hp | hu
  · exact fresh_of_formed (formed_of_isPhi hp) (isComputation_eq_false_of_isPhi hp)
  · exact fresh_of_formed (formed_of_operands_eq_nil (by rw [hu]; rfl)
      (hb hu)) (by rw [hu]; rfl)

theorem keeps_seals (hs : s.Wired) (hb : (s.graph.kind block).isBlock)
    (h : s.sealBlock block = .ok c) : Keeps last F s True (s.on c) := by
  have hstep : Step s (s.on c) := .seals hb h
  obtain ⟨d, hev, -, hg, -⟩ := (sealStep hs.wf hb h).evolves
  have hsteps : Steps s (s.on c) := .single hstep
  refine ⟨hsteps, fun hwf ht hr => ⟨hr.grow hsteps hwf ?_ fun n hn => ?_, trivial⟩⟩
  · exact sealBlock_sound hwf h hb hr.sound (ht.agrees (hstep.wf hwf))
  · exact fresh_of_evolves hev hg hn

theorem keeps_read {slot : Slot} (hs : s.Wired) (h : s.read slot s.current = .ok (n, c)) :
    Keeps last F s (F.Dom (F.block n) s.current ∧ F.Fits slot.channel n) (s.on c) := by
  have hstep : Step s (s.on c) := .read hs.current h
  have hsteps : Steps s (s.on c) := .single hstep
  have hev := (tidy_read hs.wf hs.current h).evolves
  refine ⟨hsteps, fun hwf ht hr => ?_⟩
  obtain ⟨hsound, hh⟩ := rightRead_read hwf hs.current h hr.sound
    (ht.agrees (hstep.wf hwf))
  exact ⟨hr.grow hsteps hwf hsound fun n hn => fresh_of_evolves hev rfl hn, hh.dom, hh.fits⟩

/-- **A node that is made from values is a value**, in the block where it is
made. -/
theorem keeps_make (hs : s.Wired) (hkind : kind.isShareable)
    (harity : kind.arity? = some operands.length) (hb : (s.graph.kind block).isBlock)
    (hreach : kind.isComputation → s.graph.Reaches block) (ho : ∀ a ∈ operands, s.Usable a)
    (hf : ∀ a ∈ operands, F.Dom (F.block a) block ∧ F.value a) :
    Keeps last F s (F.block (s.make kind block operands).1 = block ∧
      F.value (s.make kind block operands).1) (s.make kind block operands).2 := by
  have hp := isPlain_of_isShareable hkind
  have hm := answered_make hs hp hb ho
  have hwf := hs.wf
  have hshape := hwf.answer kind block operands
  have hkey := hwf.operands_answer kind block fun a ha => (ho a ha).stands
  refine ⟨hm.steps, fun _ ht hr => ?_⟩
  have hagrees := ht.agrees (hm.steps.wf hwf)
  refine ⟨hr.grow hm.steps hwf ?_ fun n hn => ?_, ?_, ?_⟩
  · refine hr.sound.compute ⟨fun a ha => (hf a ha).1, fun index a ha channel hc => ?_⟩
      (fun a ha => (ho a ha).lt) (isPlain_iff.1 hp).2.1 hagrees
    rw [eq_value_of_takes hkind harity (List.getElem?_eq_some_iff.1 ha).1 hc]
    exact (hf a (mem_of_getElem? ha)).2
  · obtain ⟨hadds, hanswer⟩ := s.add_spec kind block operands
    by_cases he : n = s.graph.size
    · have hkindNew : (s.make kind block operands).2.graph.kind n = kind :=
        (hadds.kind n).trans (if_pos he)
      have hh : (s.make kind block operands).2.graph.blockOf n = block :=
        (hadds.blockOf n).trans (if_pos he)
      refine ⟨⟨fun k hk => ?_, fun hk => ?_, fun channel hk => ?_⟩, fun hc => ?_⟩
      · rw [hkindNew] at hk ⊢
        rw [he]
        rcases hanswer.operands_new with hnew | hnew
        · exact .inl ((congrArg List.length hnew).trans (some.inj (harity.symm.trans hk)))
        · exact .inr ⟨hkind, hnew⟩
      · rw [← hkindNew, hk] at harity
        cases harity
      · have hproj := isProj_eq_false_of_isShareable hkind
        rw [← hkindNew, hk] at hproj
        cases hproj
      · rw [hkindNew] at hc
        rw [hh]
        exact ⟨hb, hreach hc⟩
    · refine fresh_of_size_le (hadds.size.le.trans ?_)
      exact Nat.lt_of_le_of_ne hn (Ne.symm he)
  · exact (hagrees.block _ hshape.1).trans hshape.2.2
  · refine ht.value_of_isValue hshape.1 ⟨?_, fun k hk => ?_⟩
    · exact (congrArg Kind.isValue hshape.2.1).trans (isValue_of_isShareable hkind)
    · have hk : kind.arity? = some k := hshape.2.1 ▸ hk
      exact (ValueKey.perm_of_of_eq hkey).length_eq.trans (some.inj (harity.symm.trans hk))

theorem keeps_constant (kind : Kind) (hs : s.Wired) (hk : kind.isShareable)
    (harity : kind.arity? = some 0) (hconst : kind.isComputation = false) :
    Keeps last F s (Fits F (s.constant kind).2 (s.constant kind).1) (s.constant kind).2 := by
  have hm : Keeps last F s _ (s.make kind Graph.startBlock []).2 :=
    keeps_make hs hk harity hs.wf.entry
      (fun hc => absurd (hconst.symm.trans hc) nofun) (fun _ ha => absurd ha not_mem_nil)
      fun _ ha => absurd ha not_mem_nil
  refine hm.bind .refl fun h => .refl ⟨?_, h.2⟩
  rw [h.1]
  exact startBlock_dominates _ _

theorem keeps_compute (hs : s.Site) (hk : kind.isShareable)
    (harity : kind.arity? = some operands.length) (ho : ∀ a ∈ operands, s.Usable a)
    (hf : ∀ a ∈ operands, Fits F s a) :
    Keeps last F s (Fits F (s.compute kind operands).2 (s.compute kind operands).1)
      (s.compute kind operands).2 := by
  have hmade := answered_compute hs.toWired (isPlain_of_isShareable hk) ho
  refine (keeps_make hs.toWired hk harity hs.current (fun _ => hs.reached) ho fun a ha =>
    ⟨(hf a ha).dom, (hf a ha).value⟩).bind .refl fun h => .refl ⟨?_, h.2⟩
  rw [h.1]
  exact .refl _ _

/-! ## Operations that may trap -/

theorem Trapped.fits (h : Trapped op lhs rhs effect s t) (ht : Toward last F t)
    (hwf : t.WellFormed) (hc : t.current = s.current) :
    Fits F t (s.graph.size + 2) := by
  have hn : s.graph.size + 2 < t.graph.size := by
    rw [h.size]
    exact Nat.lt_succ_self _
  refine ⟨?_, ht.value_of_isValue hn ⟨?_, fun k hk => ?_⟩⟩
  · rw [(ht.agrees hwf).block _ hn, h.blockOf _ (Nat.le_add_right _ _) hn, hc]
    exact .refl _ _
  · rw [h.kindValue]
    rfl
  · rw [h.kindValue] at hk
    rw [h.operandsValue]
    exact some.inj hk

theorem Trapped.fresh (h : Trapped op lhs rhs effect s t) (hop : op.hasEffect) (hs : s.Site)
    (hn : s.graph.size ≤ n) : Fresh s t n := by
  have hb : ∀ m, s.graph.size ≤ m → m ≤ s.graph.size + 2 → t.graph.blockOf m = s.current :=
    fun m hm hle => h.blockOf m hm (h.size ▸ Nat.lt_succ_of_le hle)
  have hf : t.graph.blockOf s.graph.size = s.current :=
    hb _ le_rfl (Nat.le_add_right _ _)
  have ht : (t.graph.kind s.graph.size).mayTrap = true := by rw [h.kind]; exact hop
  rcases Nat.lt_or_ge n t.graph.size with hlt | hle
  · rw [h.size] at hlt
    obtain rfl | rfl | rfl : n = s.graph.size ∨ n = s.graph.size + 1 ∨ n = s.graph.size + 2 := by
      unfold NodeId at *
      omega
    · refine ⟨@formed_of_arity 3 _ _ ?_ (by rw [h.operands]; rfl) (by rw [h.kind]; rfl),
        fun _ => hf ▸ ⟨hs.current, hs.reached⟩⟩
      rw [h.kind]
      show some (if op.hasEffect then 3 else 2) = some 3
      rw [hop]
      rfl
    · refine fresh_of_formed ⟨fun k hk => .inl ?_, fun hk => ?_, fun channel hk m hm => ?_⟩
        (by rw [h.kindEffect]; rfl)
      · rw [h.kindEffect] at hk
        rw [h.operandsEffect]
        exact some.inj hk
      · rw [h.kindEffect] at hk
        cases hk
      · obtain rfl := mem_singleton.1 (h.operandsEffect ▸ hm)
        exact ⟨hf.trans (hb _ (Nat.le_add_right _ _) (Nat.le_succ _)).symm, .inl ht⟩
    · refine fresh_of_formed ⟨fun k hk => .inl ?_, fun hk => ?_, fun channel hk m hm => ?_⟩
        (by rw [h.kindValue]; rfl)
      · rw [h.kindValue] at hk
        rw [h.operandsValue]
        exact some.inj hk
      · rw [h.kindValue] at hk
        cases hk
      · obtain rfl := mem_singleton.1 (h.operandsValue ▸ hm)
        exact ⟨hf.trans (hb _ (Nat.le_add_right _ _) le_rfl).symm, .inl ht⟩
  · exact fresh_of_size_le hle

theorem keeps_trapping (hs : s.Site) (hop : op.hasEffect)
    (ho : ∀ m ∈ [a, b, effect], s.Usable m) (ha : Fits F s a) (hb : Fits F s b)
    (he : F.Dom (F.block effect) s.current ∧ F.effect effect) :
    Keeps last F s (Fits F (s.trapping op a b effect) (s.graph.size + 2))
      (s.trapping op a b effect) := by
  have hlt : ∀ m ∈ [a, b, effect], m < s.graph.size := fun m hm => (ho m hm).lt
  have hsteps : Steps s (s.trapping op a b effect) :=
    steps_trapping hs.current hs.isOpen hlt
  have hwf := hs.wf
  have hwf' := hsteps.wf hwf
  have hmay : MayMake F (.binary op) s.current [a, b, effect] := by
    refine ⟨fun m hm => ?_, fun index m hm channel hc => ?_⟩
    · simp only [mem_cons, not_mem_nil, or_false] at hm
      rcases hm with rfl | rfl | rfl
      · exact ha.dom
      · exact hb.dom
      · exact he.1
    · rcases index with _ | _ | _ | index
      · exact some.inj hc ▸ some.inj hm ▸ ha.value
      · exact some.inj hc ▸ some.inj hm ▸ hb.value
      · exact some.inj hc ▸ some.inj hm ▸ he.2
      · cases hm
  have htrapped := trapped_trapping op a b effect s
  exact ⟨hsteps, fun _ ht hr => ⟨hr.grow hsteps hwf
    (hr.sound.trapping hwf hs.current hs.isOpen hlt hmay (ht.agrees hwf'))
    fun n hn => htrapped.fresh hop hs hn, htrapped.fits ht hwf'
      (answered_trapping hs (ho a (.head _)) (ho b (.tail _ (.head _)))
        (ho effect (.tail _ (.tail _ (.head _))))).current⟩⟩

end Stage

open Stage

/-! ## Expressions -/

section

variable {last s t u : Stage} {F : Blueprint} {lhs rhs n : NodeId} {op : Operator} {e : Expr}
  {flow : Flow} {body : Stmt}

theorem forall_mem_pair (ha : P a) (hb : P b) : ∀ m ∈ [a, b], P m := by
  simpa using ⟨ha, hb⟩

theorem forall_mem_triple {c : NodeId} (ha : P a) (hb : P b) (hc : P c) : ∀ m ∈ [a, b, c], P m := by
  simpa using ⟨ha, hb, hc⟩

theorem Stage.Does.keeps {he : List NodeId} (h : s.Does he n t) (hs : s.Site)
    (hh : ∀ a ∈ he, s.Usable a) (hf : ∀ a ∈ he, Fits F s a) :
    Keeps last F s (Fits F t n) t := by
  cases h with
  | constant h hk harity hconst =>
    have hkeeps : Keeps last F s _ _ := keeps_constant _ hs.toWired hk harity hconst
    rwa [h] at hkeeps
  | read hread =>
    have hstay := answered_read hs.toWired hread
    exact (keeps_read hs.toWired hread).bind .refl fun h =>
      .refl ⟨(congrArg (F.Dom (F.block _)) hstay.current).mpr h.1, h.2⟩
  | compute hk harity ho =>
    exact keeps_compute hs hk harity (fun a ha => hh a (ho ha)) fun a ha => hf a (ho ha)
  | @traps _ _ _ effect _ hop hl hr hread =>
    have hstay := answered_read hs.toWired hread
    have hc := hstay.site hs
    have ho := usable_triple (hstay.usable _ (hh _ hl)) (hstay.usable _ (hh _ hr))
      hstay.answer
    refine (keeps_read hs.toWired hread).bind
      (steps_trapping hc.current hc.isOpen fun a ha => (ho a ha).lt) fun hd => ?_
    exact keeps_trapping hc hop ho ((hf _ hl).of_current hstay.current)
      ((hf _ hr).of_current hstay.current)
      ⟨(congrArg (F.Dom (F.block effect)) hstay.current).mpr hd.1, hd.2⟩

theorem Stage.Works.keeps {he more : List NodeId} (h : s.Works he more t) (hs : s.Site)
    (hh : ∀ a ∈ he, s.Usable a) (hf : ∀ a ∈ he, Fits F s a) :
    Keeps last F s (∀ a ∈ more, Fits F t a) t := by
  induction h with
  | refl => exact .refl hf
  | step hw hd ih =>
    obtain ⟨hstays, hu⟩ := hw.stays hs hh
    have ht := hstays.site hs
    have hanswered := hd.answered ht hu
    exact ih.bind hanswered.steps fun hm => (hd.keeps ht hu hm).bind .refl fun hn =>
      .refl (forall_mem_cons.2 ⟨hn, fun a ha => (hm a ha).of_current hanswered.current⟩)

/-- The walk over an expression answers a value. -/
theorem Expr.Builds.keeps (h : e.Builds s n t) (hs : s.Site) : Keeps last F s (Fits F t n) t :=
  have ⟨_, hw⟩ := h.works []
  (hw.keeps hs (forall_mem_nil _)
    fun _ ha => absurd ha not_mem_nil).bind .refl fun hf => .refl (hf n (.head _))

/-! ## Statements -/

theorem Stage.keeps_put (name : String) (ht : t.Site) (hn : t.Usable n) (hf : Fits F t n) :
    Keeps last F t True (t.put (.var name) t.current n) :=
  ⟨.single (.write ht.current ht.isOpen hn.lt), fun _ _ h =>
    ⟨⟨h.sound.put hf.dom hf.value, h.formed, h.reached⟩, trivial⟩⟩

/-- **A block is ended** by a jump that uses nodes which fit. -/
theorem Stage.keeps_leave {kind : Kind} {operands : List NodeId} (hkind : kind.isTerminator)
    (ha : kind.arity? = some operands.length) (hs : Steps s (s.leave kind operands))
    (hlt : ∀ a ∈ operands, a < s.graph.size) (hmay : MayMake F kind s.current operands)
    (htargets : ∀ target ∈ kind.exits, (s.graph.kind target).isBlock) :
    Keeps last F s True (s.leave kind operands) := by
  refine ⟨hs, fun hwf ht h => ⟨h.grow hs hwf (h.sound.leave hmay hlt
    (isPhi_eq_false_of_isTerminator hkind) htargets (ht.agrees (hs.wf hwf)))
    fun n hn => ?_, trivial⟩⟩
  by_cases he : n = s.graph.size
  · have hk : (s.leave kind operands).graph.kind n = kind :=
      (s.kind_leave kind s.current operands n).trans (if_pos he)
    have hops : (s.leave kind operands).graph.operands n = operands :=
      (s.operands_leave s.current operands (fun target hm =>
        lt_of_isBlock (htargets target hm)) n).trans (if_pos he)
    refine fresh_of_formed (formed_of_arity (by rw [hk]; exact ha) (by rw [hops])
      ?_) ?_ <;> rw [hk]
    · exact isProj_eq_false_of_isTerminator hkind
    · exact isComputation_eq_false_of_isTerminator hkind
  · refine fresh_of_size_le ?_
    rw [show (s.leave kind operands).graph.size = s.graph.size + 1 from
      s.size_leave kind s.current operands]
    exact Nat.lt_of_le_of_ne hn (Ne.symm he)

theorem Stage.isBlock_of_leave {kind : Kind} {operands : List NodeId} (hk : kind.isTerminator)
    (h : ((s.leave kind operands).graph.kind n).isBlock) : (s.graph.kind n).isBlock := by
  have h : ((s.toBuilder.leave kind s.current operands).graph.kind n).isBlock = true := h
  rw [kind_leave] at h
  split at h
  · cases (isBlock_eq_false_of_isTerminator hk).symm.trans h
  · exact h

theorem Stage.keeps_fork (hcond : s.Usable cond) (hfits : Fits F s cond) (hf : Forks a b s t)
    (hfork : t = s.leave (.condJump a b) [cond]) : Keeps last F s True t := by
  subst hfork
  have hmay : MayMake F (.condJump a b) s.current [cond] := by
    refine ⟨fun m hm => mem_singleton.1 hm ▸ hfits.dom, fun index m hm channel hc => ?_⟩
    exact some.inj hc ▸ mem_singleton.1 (mem_of_getElem? hm) ▸ hfits.value
  refine keeps_leave rfl rfl hf.steps (fun m hm => mem_singleton.1 hm ▸ hcond.lt) hmay ?_
  exact forall_mem_pair (isBlock_of_leave rfl hf.onTrue.isBlock)
    (isBlock_of_leave rfl hf.onFalse.isBlock)

theorem Stage.keeps_newBlocks (roles : List String) : Keeps last F s True (roles.foldl newBlock s) ∧
      ∀ n, s.Usable n → (roles.foldl newBlock s).Usable n := by
  induction roles generalizing s with
  | nil => exact ⟨.refl trivial, fun _ => id⟩
  | cons role roles ih =>
    exact ⟨(keeps_newBlock s role).trans ih.1, fun n hn => ih.2 n (hn.newBlock role)⟩

/-- **A deed keeps soundness.** -/
theorem Stage.Acts.keeps {old : Nat} (h : s.Acts old t) : Keeps last F s True t := by
  cases h with
  | put hs h =>
    obtain ⟨hstays, hu⟩ := h.stays hs fun _ ha => absurd ha not_mem_nil
    have ht := hstays.site hs
    have hn := hu _ (.head _)
    exact (h.keeps hs (fun _ ha => absurd ha not_mem_nil) fun _ ha => absurd ha
      not_mem_nil).bind (.single (.write ht.toOngoing.current ht.isOpen hn.lt)) fun hf =>
        keeps_put _ ht hn (hf _ (.head _))
  | newBlock => exact keeps_newBlock s _
  | fork hs he roles _ hfork hforks =>
    have hv := he.answered hs
    obtain ⟨hblocks, hu⟩ := keeps_newBlocks roles
    exact (he.keeps hs).bind (hblocks.steps.trans hforks.steps) fun hf => hblocks.trans
      (keeps_fork (hu _ hv.answer) (hf.of_current ((hv.site hs).newBlocks roles).2) hforks hfork)
  | jump _ hsteps hb =>
    exact keeps_leave rfl rfl hsteps (fun _ ha => absurd ha not_mem_nil)
      ⟨fun _ ha => absurd ha not_mem_nil, fun _ _ ha => absurd ha nofun⟩
      fun m hm => mem_singleton.1 hm ▸ isBlock_of_leave rfl hb
  | seals hs hb h => exact keeps_seals hs hb h
  | enter hb => exact keeps_enter hb
  | @ret value n effect t c hs he hread =>
    have hv := he.answered hs
    have ht := hv.site hs
    have hr := answered_read ht.toWired hread
    have hc := hr.site ht
    have hlt : ∀ a ∈ [effect, n], a < (t.on c).graph.size := fun a ha =>
      (usable_pair hr.answer (hr.usable _ hv.answer) a ha).lt
    have hsteps : Steps (t.on c) ((t.on c).leave .ret [effect, n]) :=
      .single (step_leave hc.toWired rfl hlt fun target hm =>
        mem_singleton.1 hm ▸ ⟨hc.final, hc.finalOpen⟩)
    refine (he.keeps hs).bind (hr.steps.trans hsteps) fun hf => ?_
    refine (keeps_read ht.toWired hread).bind hsteps fun heffect => ?_
    refine keeps_leave rfl rfl hsteps hlt ⟨?_, fun index a ha channel hc => ?_⟩ fun target hm =>
      mem_singleton.1 hm ▸ hc.final
    · exact forall_mem_pair ((congrArg (F.Dom (F.block effect)) hr.current).mpr heffect.1)
        (hf.of_current hr.current).dom
    · rcases index with _ | _ | index
      · exact some.inj hc ▸ some.inj ha ▸ heffect.2
      · exact some.inj hc ▸ some.inj ha ▸ hf.value
      · cases ha

theorem Stage.keeps_of_acted {old : Nat} (h : Acted old s t) : Keeps last F s True t := by
  induction h with
  | refl => exact .refl trivial
  | tail _ ha ih => exact ih.trans ha.keeps

/-- The walk over a statement keeps soundness. -/
theorem Stmt.Walks.keeps (h : body.Walks s flow t) : Keeps last F s True t :=
  keeps_of_acted (h.acted (Nat.zero_le _))

end

/-! ## Functions -/

/-- **The plan of a stage**: its blueprint, in which variables hold values and the
effect chain holds effects. -/
abbrev Stage.plan (s : Stage) : Blueprint :=
  s.blueprint s.graph.IsValue s.graph.size fun n => (s.graph.kind n).isEffect = true

theorem Stage.Wired.agrees_plan (h : s.Wired) : s.Agrees s.plan := by
  have hv : ∀ n, (s.graph.kind n).arity? = none → (s.graph.kind n).isValue = true →
      s.graph.IsValue n := fun n => isValue_of_arity?_eq_none
  refine agrees_blueprint h.wf h.entry (fun n hn channel => ?_)
    (fun n hn => congrArg Kind.isEffect hn) (fun n channel hn => ?_)
    fun n channel hn channel' hne hf => ?_
  · cases channel with
    | effect => exact congrArg Kind.isEffect hn
    | value => exact hv n (congrArg Kind.arity? hn) (congrArg Kind.isValue hn)
  · cases channel with
    | effect => exact congrArg Kind.isEffect hn
    | value => exact hv n (congrArg Kind.arity? hn) (congrArg Kind.isValue hn)
  · cases channel <;> cases channel'
    · exact absurd rfl hne
    · cases (congrArg Kind.isEffect hn).symm.trans hf
    · cases (congrArg Kind.isValue hn).symm.trans hf.isValue
    · exact absurd rfl hne

theorem Stage.Wired.toward_plan (h : s.Wired) : Toward s s.plan s :=
  ⟨h.agrees_plan, fun _ => id, .refl s⟩

theorem Stage.formed_first (name : String) (sharing : Bool) (n : NodeId) :
    (first name sharing).graph.Formed n := by
  rcases n with _ | _ | _ | _ | n
  · exact formed_of_isBlock rfl
  · exact formed_of_arity rfl rfl rfl
  · exact formed_of_isBlock rfl
  · refine ⟨fun k hk => .inl (some.inj hk), nofun, fun channel hk m hm => ?_⟩
    obtain rfl : m = Graph.start := mem_singleton.1 hm
    exact ⟨rfl, .inr ⟨(Kind.proj.inj hk).symm, rfl⟩⟩
  · exact formed_of_size_le (Nat.le_add_left 4 n)

/-- The first stage is right. -/
theorem Stage.right_first {F : Blueprint} (h : (first name sharing).Agrees F) :
    (first name sharing).Right F :=
  ⟨sound_first h, formed_first name sharing, fun n hn => by
    rcases n with _ | _ | _ | _ | n <;> exact absurd hn nofun⟩

/-- The last stage of a walk is right. -/
theorem Stmt.Walks.right_plan {body : Stmt} {flow : Flow}
    (h : body.Walks (first name sharing) flow s) : s.Right s.plan := by
  have hs := h.walked.wired
  have hk : Keeps s s.plan _ _ s := h.keeps
  have hwf := h.site.wf
  have hf := hs.toward_plan.back (hk.steps.grows hwf) hwf
  exact (hk.right hwf hs.toward_plan (right_first (hf.agrees hwf))).1

end SsaCompiler
