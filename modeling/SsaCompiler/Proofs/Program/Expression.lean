import SsaCompiler.Program.ToGraph
import SsaCompiler.Proofs.Builder.Wiring
import SsaCompiler.Proofs.Graph.Form

/-!
# The walk over an expression

`Expr.Builds` is the walk over an expression as a relation between stages: it
has one rule for every form of expression, and one answer
(`Expr.Builds.build_eq`). At a **site**, a stage whose current block is still
open and can be reached, the walk always comes to an end (`Expr.exists_builds`).

It stays in the current block: it makes no blocks and no jumps, and *nodes
that were there before are not retired*, so the value of one operand is still
good when the other has been built (`Expr.Builds.stays`).
-/

namespace SsaCompiler

open List SsaCompiler.Except Builder

namespace Stage

variable {s t u : Stage} {kind : Kind} {block n a b : NodeId} {operands : List NodeId}
  {op : Operator}

/-! ## Sites -/

/-- **A stage at which the walk can go on**: its current block is not ended,
and a path leads there. -/
structure Site (s : Stage) : Prop extends Wired s where
  isOpen : s.Open s.current
  reached : s.graph.Reaches s.current
  notFinal : s.current ≠ Graph.endBlock

/-- A node that the walk may use. -/
structure Usable (s : Stage) (n : NodeId) : Prop where
  lt : n < s.graph.size
  stands : s.Stands n

/-- **The walk stays in its block.** -/
structure Stays (s t : Stage) : Prop extends Quiet s t where
  current : t.current = s.current
  standing : t.Standing
  usable : ∀ n, s.Usable n → t.Usable n
  written : ∀ block name, t.written block (.var name) = s.written block (.var name)

theorem Stays.trans (h : Stays s t) (h' : Stays t u) (hs : s.Wired) : Stays s u :=
  { h.toQuiet.trans h'.toQuiet hs.wf with
    current := h'.current.trans h.current
    standing := h'.standing
    usable := fun n hn => h'.usable n (h.usable n hn)
    written := fun block name => (h'.written block name).trans (h.written block name) }

theorem Stays.wired (h : Stays s t) (hs : s.Wired) : t.Wired := h.toQuiet.wired hs h.standing

theorem Stays.site (h : Stays s t) (hs : s.Site) : t.Site := by
  have hg := h.steps.grows hs.wf
  refine { h.wired hs.toWired with
    isOpen := ?_, reached := ?_, notFinal := h.current ▸ hs.notFinal }
  · rw [h.current]
    exact (h.confined (fun _ => False) (fun _ => False) (fun _ => False)).isOpen hs.wf
      (lt_of_isBlock hs.current) hs.isOpen id
  · rw [h.current]
    exact hg.reaches hs.wf hs.current hs.reached

/-! ## The steps of the walk -/

/-- Make a node, or find an earlier one like it. -/
def make (s : Stage) (kind : Kind) (block : NodeId) (operands : List NodeId) : NodeId × Stage :=
  ((s.toDraft.add kind block operands).1,
    s.on (s.toBuilder.lift (s.toDraft.add kind block operands)).2)

/-- Make a constant. -/
abbrev constant (s : Stage) (kind : Kind) : NodeId × Stage :=
  s.make kind Graph.startBlock []

/-- Make a node in the current block. -/
abbrev compute (s : Stage) (kind : Kind) (operands : List NodeId) : NodeId × Stage :=
  s.make kind s.current operands

/-- **What one step of the walk leaves**: it stays in its block, and its answer
may be used. -/
structure Answered (s : Stage) (n : NodeId) (t : Stage) : Prop extends Stays s t where
  answer : t.Usable n

/-- A new node, made in whatever way, stays in its block. -/
theorem stays_of_adds {d : Draft} (hs : s.Wired) (hkind : kind.isPlain)
    (hadds : s.toDraft.Adds kind block d)
    (hnew : d.graph.operands s.graph.size = operands ∨ d.graph.operands s.graph.size = [])
    (hops : ∀ a ∈ operands, s.Usable a) (hstep : Step s (s.on { s.toBuilder with toDraft := d })) :
    Stays s (s.on { s.toBuilder with toDraft := d }) := by
  have hwf := hs.wf
  obtain ⟨hnot, -, ht⟩ := Kind.isPlain_iff.1 hkind
  refine
    { steps := .single hstep, isBlock := fun n hn => ?_, isTerminator := fun n hn => ?_,
      jumps := fun n hn => hadds.operands n (lt_of_isBlock hn).ne,
      sealedBlocks := rfl, current := rfl, standing := ?_,
      usable := fun n hn => ⟨(Nat.lt_succ_of_lt hn.lt).trans_eq hadds.size.symm,
        hn.stands⟩,
      written := fun _ _ => rfl }
  · rcases kind_of_appends hadds.appends hn with hk | hk
    · exact (congrArg Kind.isBlock hk).trans hnot
    · exact congrArg Kind.isBlock hk
  · rcases kind_of_appends hadds.appends hn with hk | hk
    · exact (congrArg Kind.isTerminator hk).trans ht
    · exact congrArg Kind.isTerminator hk
  · refine (hstep.grows hwf).standing (hstep.wf hwf) hs.standing fun n hn _ _ a ha => ?_
    have ha : a ∈ d.graph.operands n := ha
    by_cases he : n = s.graph.size
    · subst he
      rcases hnew with hnew | hnew
      · exact (hops a (hnew ▸ ha)).stands
      · exact absurd (hnew ▸ ha) not_mem_nil
    · rw [hadds.operands n he, s.graph.operands_of_size_le hn] at ha
      cases ha

theorem answered_make (hs : s.Wired) (hkind : kind.isPlain)
    (hb : (s.graph.kind block).isBlock) (ho : ∀ a ∈ operands, s.Usable a) :
    Answered s (s.make kind block operands).1 (s.make kind block operands).2 := by
  obtain ⟨hadds, hanswer⟩ := s.add_spec kind block operands
  have hphi := (Kind.isPlain_iff.1 hkind).2.1
  have hstep : Step s (s.make kind block operands).2 :=
    .compute hkind hb fun a ha => (ho a ha).lt
  have hsize : (s.make kind block operands).2.graph.size = s.graph.size + 1 := hadds.size
  have hkindEq : (s.make kind block operands).2.graph.kind (s.make kind block operands).1 = kind ∧
      (s.make kind block operands).1 < s.graph.size + 1 := by
    rw [show (s.make kind block operands).2.graph.kind _ = _ from hadds.kind _]
    rcases hanswer.eq_or_known with he | hknown
    · rw [show (s.make kind block operands).1 = s.graph.size from he, if_pos rfl]
      exact ⟨rfl, Nat.lt_succ_self _⟩
    · obtain ⟨hlt, hk, -⟩ := hs.wf.table _ hknown
      exact ⟨(if_neg hlt.ne).trans hk, Nat.lt_succ_of_lt hlt⟩
  refine { stays_of_adds hs hkind hadds hanswer.operands_new ho hstep with answer := ⟨?_, ?_⟩ }
  · rw [hsize]
    exact hkindEq.2
  · refine (hstep.wf hs.wf).stands_of_isPhi_eq_false ?_
    rw [hkindEq.1, hphi]

theorem answered_constant (kind : Kind) (hs : s.Wired) (hk : kind.isPlain) :
    Answered s (s.constant kind).1 (s.constant kind).2 :=
  answered_make hs hk hs.wf.entry fun _ ha => absurd ha not_mem_nil

theorem answered_compute (hs : s.Wired) (hk : kind.isPlain) (hops : ∀ a ∈ operands, s.Usable a) :
    Answered s (s.compute kind operands).1 (s.compute kind operands).2 :=
  answered_make hs hk hs.current hops

theorem answered_read {slot : Slot} {c : Builder} (hs : s.Wired)
    (h : s.read slot s.current = .ok (n, c)) : Answered s n (s.on c) := by
  have hr := tidy_read hs.wf hs.current h
  have hev := hr.evolves
  exact
    { steps := .single (.read hs.current h)
      isBlock := fun n hn => not_isBlock_of_evolves hev hn
      isTerminator := fun n hn => isTerminator_of_evolves hev hn
      jumps := hev.jumps, sealedBlocks := hev.sealedBlocks, current := hev.current
      standing := standing_of_evolves hs.standing hev hr.wf
      usable := fun n hn => ⟨hn.lt.trans_le hev.size_le, (hev.stands n hn.lt).2 hn.stands⟩
      written := fun _ _ => rfl, answer := ⟨hr.value_lt, hr.value_stands⟩ }

theorem stays_place (kind : Kind) (hs : s.Wired) (hk : kind.isPlain)
    (ho : ∀ a ∈ operands, s.Usable a) :
    Stays s (s.on (s.toBuilder.place kind s.current operands).2) :=
  stays_of_adds hs hk (s.adds_addNode kind s.current operands)
    (.inl ((s.operands_place s.current kind operands _).trans (if_pos rfl))) ho
    (.place hk hs.current fun a ha => (ho a ha).lt)

/-- The writes of the walk inside an expression are to the effect chain. -/
theorem stays_put_effect (hs : s.Site) (hn : n < s.graph.size) :
    Stays s (s.put .effect s.current n) :=
  { quiet_put hs.current hs.isOpen hn with
    current := rfl
    standing := hs.standing
    usable := fun _ hn => ⟨hn.lt, hn.stands⟩
    written := fun _ _ => if_neg fun h => Slot.noConfusion h.2 }

theorem answered_trapping {op : BinOp} {effect : NodeId} (hs : s.Site) (ha : s.Usable a)
    (hb : s.Usable b) (he : s.Usable effect) :
    Answered s (s.graph.size + 2) (s.trapping op a b effect) := by
  have hops : ∀ m ∈ [a, b, effect], s.Usable m := fun m hm => by
    simp only [mem_cons, not_mem_nil, or_false] at hm
    rcases hm with rfl | rfl | rfl
    · exact ha
    · exact hb
    · exact he
  obtain ⟨one, two, ho, htwo, hresult, hsize, hsize', -, -, -, -⟩ :=
    exists_steps_trapping op hs.current hs.isOpen fun m hm => (hops m hm).lt
  have hstays : Stays s one := ho ▸ stays_place _ hs.toWired rfl hops
  have hsOne := hstays.site hs
  have hw := hsOne.wf
  have hop : one.Usable s.graph.size := by
    refine ⟨hsize ▸ Nat.lt_succ_self _, hw.stands_of_isPhi_eq_false ?_⟩
    rw [ho, toBuilder_on, kind_place, if_pos rfl]
    rfl
  have hsingle : ∀ {r : Stage}, r.Usable s.graph.size → ∀ m ∈ [s.graph.size], r.Usable m :=
    fun hr m hm => mem_singleton.1 hm ▸ hr
  have hstays' : Stays one two := by
    rw [htwo, ← hstays.current]
    exact stays_place _ hsOne.toWired rfl (hsingle hop)
  have hsTwo := hstays'.site hsOne
  have hc : two.current = s.current := hstays'.current.trans hstays.current
  have hput : Stays two (two.put .effect s.current (s.graph.size + 1)) := by
    rw [← hc]
    exact stays_put_effect hsTwo (hsize' ▸ Nat.lt_succ_self _)
  have hsPut := hput.site hsTwo
  have hl : Stays (two.put .effect s.current (s.graph.size + 1)) (s.trapping op a b effect) := by
    have hp := stays_place (.proj .value) hsPut.toWired rfl
      (hsingle (hput.usable _ (hstays'.usable _ hop)))
    rwa [show (two.put .effect s.current (s.graph.size + 1)).current = s.current from hc,
      ← hresult] at hp
  have hall := ((hstays.trans hstays' hs.toWired).trans hput hs.toWired).trans hl hs.toWired
  refine { hall with answer := ⟨?_, ?_⟩ }
  · rw [hresult, toBuilder_on, size_place]
    exact (Nat.lt_succ_self _).trans_eq (congrArg (· + 1) hsize'.symm)
  · refine (hl.site hsPut).wf.stands_of_isPhi_eq_false ?_
    have hnew : s.graph.size + 2 = (two.put .effect s.current (s.graph.size + 1)).graph.size :=
      hsize'.symm
    rw [hresult, toBuilder_on, kind_place, if_pos hnew]
    rfl

end Stage

/-! ## The walk -/

/-- **An operator joins two values**, by a node, or by nodes that keep the
order of effects if it may trap. The connectives become conditional values. -/
inductive Operates (s : Stage) (lhs rhs : NodeId) : Operator → NodeId → Stage → Prop
  | computes {op : ArithOp} (hop : op.hasEffect = false) :
      Operates s lhs rhs (.arith op) (s.compute (.binary (.arith op)) [lhs, rhs]).1
        (s.compute (.binary (.arith op)) [lhs, rhs]).2
  | traps {op : ArithOp} {effect : NodeId} {c : Builder} (hop : op.hasEffect = true)
      (hread : s.toBuilder.read .effect s.current = .ok (effect, c)) :
      Operates s lhs rhs (.arith op) (c.graph.size + 2)
        ((s.on c).trapping (.arith op) lhs rhs effect)
  | compares {op : CmpOp} : Operates s lhs rhs (.compare op) (s.compute (.compare op) [lhs, rhs]).1
        (s.compute (.compare op) [lhs, rhs]).2
  | and {no : NodeId} {t : Stage} (hno : s.constant (.constBool false) = (no, t)) :
      Operates s lhs rhs (.logic .and) (t.compute .condValue [lhs, rhs, no]).1
        (t.compute .condValue [lhs, rhs, no]).2
  | or {yes : NodeId} {t : Stage} (hyes : s.constant (.constBool true) = (yes, t)) :
      Operates s lhs rhs (.logic .or) (t.compute .condValue [lhs, yes, rhs]).1
        (t.compute .condValue [lhs, yes, rhs]).2

/-- **The walk over an expression** leads from one stage to another and answers
the node of its value. -/
inductive Expr.Builds : Expr → Stage → NodeId → Stage → Prop
  | int {s : Stage} (value : Word) :
      Builds (.int value) s (s.constant (.constInt value)).1 (s.constant (.constInt value)).2
  | bool {s : Stage} (value : Bool) :
      Builds (.bool value) s (s.constant (.constBool value)).1 (s.constant (.constBool value)).2
  | var {s : Stage} {name : String} {n : NodeId} {c : Builder}
      (h : s.toBuilder.read (.var name) s.current = .ok (n, c)) : Builds (.var name) s n (s.on c)
  | binary {op : Operator} {l r : Expr} {s t u v : Stage} {a b n : NodeId}
      (hl : Builds l s a t) (hr : Builds r t b u) (h : Operates u a b op n v) :
      Builds (.binary op l r) s n v
  | neg {e : Expr} {s t u v : Stage} {a nought n : NodeId} (he : Builds e s a t)
      (hnought : t.constant (.constInt 0) = (nought, u))
      (h : Operates u nought a (.arith .sub) n v) : Builds (.neg e) s n v
  | bitNot {e : Expr} {s t u v : Stage} {a ones n : NodeId} (he : Builds e s a t)
      (hones : t.constant (.constInt (-1)) = (ones, u))
      (h : Operates u a ones (.arith .bitXor) n v) : Builds (.bitNot e) s n v
  | logicNot {e : Expr} {s t u v : Stage} {a no yes : NodeId} (he : Builds e s a t)
      (hno : t.constant (.constBool false) = (no, u))
      (hyes : u.constant (.constBool true) = (yes, v)) :
      Builds (.logicNot e) s (v.compute .condValue [a, no, yes]).1
        (v.compute .condValue [a, no, yes]).2
  | cond {c l r : Expr} {s t u v : Stage} {cond a b : NodeId} (hc : Builds c s cond t)
      (hl : Builds l t a u) (hr : Builds r u b v) :
      Builds (.cond c l r) s (v.compute .condValue [cond, a, b]).1
        (v.compute .condValue [cond, a, b]).2

open Stage

section

variable {s t u : Stage} {lhs rhs n : NodeId} {op : Operator} {e : Expr}

theorem usable_pair (ha : s.Usable a) (hb : s.Usable b) : ∀ m ∈ [a, b], s.Usable m := fun m hm => by
  simp only [mem_cons, not_mem_nil, or_false] at hm
  rcases hm with rfl | rfl
  · exact ha
  · exact hb

theorem usable_triple {c : NodeId} (ha : s.Usable a) (hb : s.Usable b) (hc : s.Usable c) :
    ∀ m ∈ [a, b, c], s.Usable m := fun m hm => by
  rcases mem_cons.1 hm with rfl | hm
  · exact ha
  · exact usable_pair hb hc m hm

theorem Stage.Answered.trans {m : NodeId} (h : Answered s n t) (h' : Answered t m u)
    (hs : s.Wired) : Answered s m u :=
  { h.toStays.trans h'.toStays hs with answer := h'.answer }

/-! ## The walk, deed by deed -/

/-- **One deed of the walk over an expression**, which may use the nodes that are held. -/
inductive Stage.Does (s : Stage) (held : List NodeId) : NodeId → Stage → Prop
  | constant {kind : Kind} {n : NodeId} {t : Stage} (h : s.constant kind = (n, t))
      (hkind : kind.isShareable = true) (harity : kind.arity? = some 0)
      (hconst : kind.isComputation = false) : Does s held n t
  | read {name : String} {n : NodeId} {c : Builder}
      (h : s.toBuilder.read (.var name) s.current = .ok (n, c)) : Does s held n (s.on c)
  | compute {kind : Kind} {operands : List NodeId} (hkind : kind.isShareable = true)
      (harity : kind.arity? = some operands.length) (hops : operands ⊆ held) :
      Does s held (s.compute kind operands).1 (s.compute kind operands).2
  | traps {op : BinOp} {lhs rhs effect : NodeId} {c : Builder} (hop : op.hasEffect = true)
      (hl : lhs ∈ held) (hr : rhs ∈ held)
      (hread : s.toBuilder.read .effect s.current = .ok (effect, c)) :
      Does s held (c.graph.size + 2) ((s.on c).trapping op lhs rhs effect)

/-- **Deeds one after the other.** What a deed answers is held from then on. -/
inductive Stage.Works (s : Stage) (held : List NodeId) : List NodeId → Stage → Prop
  | refl : Works s held held s
  | step {more : List NodeId} {n : NodeId} {t u : Stage} (h : Works s held more t)
      (hdoes : t.Does more n u) : Works s held (n :: more) u

variable {held more : List NodeId}

theorem Stage.Works.trans {more' : List NodeId} (h : s.Works held more t)
    (h' : t.Works more more' u) : s.Works held more' u := by
  induction h' with
  | refl => exact h
  | step _ hd ih => exact ih.step hd

theorem Stage.Works.subset (h : s.Works held more t) : held ⊆ more := by
  induction h with
  | refl => exact List.Subset.refl _
  | step _ _ ih => exact subset_cons_of_subset _ ih

theorem Operates.works (h : Operates s lhs rhs op n t) (held : List NodeId) (hl : lhs ∈ held)
    (hr : rhs ∈ held) : ∃ more, s.Works held (n :: more) t := by
  cases h with
  | @computes op hop =>
    refine ⟨_, .step .refl (.compute ?_ ?_ (by simp [hl, hr]))⟩
    · show (!op.hasEffect) = true
      rw [hop]
      rfl
    · show some (if op.hasEffect then 3 else 2) = some 2
      rw [hop]
      rfl
  | @traps op _ _ hop hread =>
    exact ⟨_, .step .refl (.traps hop hl hr hread)⟩
  | compares => exact ⟨_, .step .refl (.compute rfl rfl (by simp [hl, hr]))⟩
  | and h | or h =>
    exact ⟨_, .step (.step .refl (.constant h rfl rfl rfl)) (.compute rfl rfl (by simp [hl, hr]))⟩

/-- **The walk over an expression is made of deeds**, and holds the value in the end. -/
theorem Expr.Builds.works (h : e.Builds s n t) (held : List NodeId) :
    ∃ more, s.Works held (n :: more) t := by
  induction h generalizing held with
  | int | bool => exact ⟨_, .step .refl (.constant rfl rfl rfl rfl)⟩
  | var h => exact ⟨_, .step .refl (.read h)⟩
  | binary _ _ h ihl ihr =>
    obtain ⟨_, hl⟩ := ihl held
    obtain ⟨_, hr⟩ := ihr _
    obtain ⟨_, hj⟩ := h.works _ (hr.subset (.head _)) (.head _)
    exact ⟨_, (hl.trans hr).trans hj⟩
  | neg _ hn h ih =>
    obtain ⟨_, he⟩ := ih held
    obtain ⟨_, hj⟩ := h.works _ (.head _) (.tail _ (.head _))
    exact ⟨_, (he.step (.constant hn rfl rfl rfl)).trans hj⟩
  | bitNot _ ho h ih =>
    obtain ⟨_, he⟩ := ih held
    obtain ⟨_, hj⟩ := h.works _ (.tail _ (.head _)) (.head _)
    exact ⟨_, (he.step (.constant ho rfl rfl rfl)).trans hj⟩
  | logicNot _ hno hyes ih =>
    obtain ⟨_, he⟩ := ih held
    exact ⟨_, ((he.step (.constant hno rfl rfl rfl)).step (.constant hyes rfl rfl rfl)).step
      (.compute rfl rfl (by simp))⟩
  | @cond _ _ _ _ _ _ _ cond _ _ _ _ _ ihc ihl ihr =>
    obtain ⟨more, hc⟩ := ihc held
    obtain ⟨_, hl⟩ := ihl (cond :: more)
    obtain ⟨_, hr⟩ := ihr _
    have hcond := hr.subset (hl.subset (.head _))
    have hleft := hr.subset (.head _)
    exact ⟨_, ((hc.trans hl).trans hr).step (.compute rfl rfl (by simp_all))⟩

/-- **A deed stays in the current block.** -/
theorem Stage.Does.answered (h : s.Does held n t) (hs : s.Site) (hh : ∀ a ∈ held, s.Usable a) :
    Answered s n t := by
  cases h with
  | constant h hk =>
    have hanswered := answered_constant _ hs.toWired (Kind.isPlain_of_isShareable hk)
    rwa [h] at hanswered
  | read h => exact answered_read hs.toWired h
  | compute hk _ hops =>
    exact answered_compute hs.toWired (Kind.isPlain_of_isShareable hk) fun a ha =>
      hh a (hops ha)
  | traps _ hl hr hread =>
    have hread' := answered_read hs.toWired hread
    exact hread'.trans (answered_trapping (hread'.site hs) (hread'.usable _ (hh _ hl))
      (hread'.usable _ (hh _ hr)) hread'.answer) hs.toWired

theorem Stage.Works.stays (h : s.Works held more t) (hs : s.Site)
    (hh : ∀ a ∈ held, s.Usable a) : Stays s t ∧ ∀ a ∈ more, t.Usable a := by
  induction h with
  | refl =>
    exact ⟨{ Quiet.refl s with
      current := rfl, standing := hs.standing, usable := fun _ => id, written := fun _ _ => rfl },
      hh⟩
  | step _ hd ih =>
    obtain ⟨hstays, hu⟩ := ih
    have hanswered := hd.answered (hstays.site hs) hu
    exact ⟨hstays.trans hanswered.toStays hs.toWired, forall_mem_cons.2
      ⟨hanswered.answer, fun a ha => hanswered.usable a (hu a ha)⟩⟩

/-- Joining two values stays in the current block. -/
theorem Operates.answered (h : Operates s lhs rhs op n t) (hs : s.Site) (hl : s.Usable lhs)
    (hr : s.Usable rhs) : Answered s n t :=
  have ⟨_, hw⟩ := h.works [lhs, rhs] (.head _) (.tail _ (.head _))
  have ⟨hstays, hu⟩ := hw.stays hs (usable_pair hl hr)
  { hstays with answer := hu n (.head _) }

/-- The walk over an expression stays in the current block, and the value
of the expression may be used. -/
theorem Expr.Builds.answered (h : e.Builds s n t) (hs : s.Site) : Answered s n t :=
  have ⟨_, hw⟩ := h.works []
  have ⟨hstays, hu⟩ := hw.stays hs fun _ ha => absurd ha not_mem_nil
  { hstays with answer := hu n (.head _) }

theorem builds_int {w : Word} (h : s.constant (.constInt w) = (n, t)) : (Expr.int w).Builds s n t := by
  have hb := @Expr.Builds.int s w
  rwa [h] at hb

theorem builds_bool {b : Bool} (h : s.constant (.constBool b) = (n, t)) :
    (Expr.bool b).Builds s n t := by
  have hb := @Expr.Builds.bool s b
  rwa [h] at hb

/-! ## The walk comes to an end -/

theorem exists_operates (hs : s.Site) (lhs rhs : NodeId) (op : Operator) :
    ∃ n t, Operates s lhs rhs op n t := by
  cases op with
  | arith op =>
    cases hop : op.hasEffect with
    | false => exact ⟨_, _, .computes hop⟩
    | true =>
      obtain ⟨effect, c, hr⟩ := hs.exists_read .effect hs.current hs.reached
      exact ⟨_, _, .traps hop hr⟩
  | compare op => exact ⟨_, _, .compares⟩
  | logic op =>
    cases op with
    | and => exact ⟨_, _, .and rfl⟩
    | or => exact ⟨_, _, .or rfl⟩

/-- **Every expression is walked to its end.** -/
theorem Expr.exists_builds (e : Expr) (hs : s.Site) : ∃ n t, e.Builds s n t := by
  induction e generalizing s with
  | int value => exact ⟨_, _, .int value⟩
  | bool value => exact ⟨_, _, .bool value⟩
  | var name =>
    obtain ⟨n, c, hread⟩ := hs.exists_read (.var name) hs.current hs.reached
    exact ⟨n, _, .var hread⟩
  | binary op l r ihl ihr =>
    obtain ⟨a, t, hl⟩ := ihl hs
    have ht := (hl.answered hs).site hs
    obtain ⟨b, u, hr⟩ := ihr ht
    obtain ⟨n, v, h⟩ := exists_operates ((hr.answered ht).site ht) a b op
    exact ⟨n, v, .binary hl hr h⟩
  | neg e ih =>
    obtain ⟨a, t, he⟩ := ih hs
    have ht := (he.answered hs).site hs
    obtain ⟨n, v, h⟩ := exists_operates ((answered_constant (.constInt 0)
      ht.toWired rfl).site ht) (t.constant (.constInt 0)).1 a (.arith .sub)
    exact ⟨n, v, .neg he rfl h⟩
  | bitNot e ih =>
    obtain ⟨a, t, he⟩ := ih hs
    have ht := (he.answered hs).site hs
    obtain ⟨n, v, h⟩ := exists_operates ((answered_constant (.constInt (-1))
      ht.toWired rfl).site ht) a (t.constant (.constInt (-1))).1 (.arith .bitXor)
    exact ⟨n, v, .bitNot he rfl h⟩
  | logicNot e ih =>
    obtain ⟨a, t, he⟩ := ih hs
    exact ⟨_, _, .logicNot he rfl rfl⟩
  | cond c l r ihc ihl ihr =>
    obtain ⟨cond, t, hc⟩ := ihc hs
    have ht := (hc.answered hs).site hs
    obtain ⟨a, u, hl⟩ := ihl ht
    have hu := (hl.answered ht).site ht
    obtain ⟨b, v, hr⟩ := ihr hu
    exact ⟨_, _, .cond hc hl hr⟩

/-! ## The walk is the translation -/

theorem Operates.operate_eq (h : Operates s lhs rhs op n t) :
    s.toBuilder.operate op lhs rhs = .ok (n, t.toBuilder) := by
  cases h with
  | computes hop => exact binary_of_not_hasEffect hop
  | @traps op _ _ hop hr =>
    have hop : (BinOp.arith op).hasEffect = true := hop
    refine (binary_of_hasEffect hop).trans ?_
    rw [hr]
    rfl
  | compares => rfl
  | and h | or h =>
    cases h
    rfl

/-- **The walk is the translation.** -/
theorem Expr.Builds.build_eq (h : e.Builds s n t) :
    e.build s.toBuilder = .ok (n, t.toBuilder) := by
  induction h with
  | int | bool => rfl
  | var h => exact h
  | binary _ _ h ihl ihr =>
    refine bind_eq_ok.2 ⟨_, ihl, bind_eq_ok.2 ⟨_, ihr, h.operate_eq⟩⟩
  | neg _ hc h ih | bitNot _ hc h ih =>
    cases hc
    exact bind_eq_ok.2 ⟨_, ih, h.operate_eq⟩
  | logicNot _ hno hyes ih =>
    cases hno
    cases hyes
    exact bind_eq_ok.2 ⟨_, ih, rfl⟩
  | cond _ _ _ ihc ihl ihr =>
    exact bind_eq_ok.2 ⟨_, ihc, bind_eq_ok.2 ⟨_, ihl, bind_eq_ok.2 ⟨_, ihr, rfl⟩⟩⟩

end

end SsaCompiler
