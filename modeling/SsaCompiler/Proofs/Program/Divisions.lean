import SsaCompiler.Proofs.Program.Actions
import SsaCompiler.Proofs.Program.Tour

/-!
# Divisions are threaded by their effects

Every division takes an effect and gives one. Along a path to a block, the
divisions of the block form a **thread**: the first takes what reaches the block,
each other one takes the effect of the division before it, and the last effect is
what leaves the block (`Graph.Threads`). *The effect that a division takes may be a
merge*, so what it takes is where that merge leads to along the path.

The walk makes a division for each one in the source, in the order of evaluation
(`Expr.Builds.makes`). So **the divisions of every block are threaded in the order
they were made**, and a return takes what reaches it (`Translated.ledger`).
-/

namespace SsaCompiler

open List Builder

variable {slot : Slot} {kind : Kind} {operands : List NodeId} {e : Expr} {op : Operator}
  {flow : Flow} {c : Builder}

/-! ## Threads -/

/-- **Divisions are threaded** from one origin of effects to another, along a path to
their block. -/
inductive Graph.Threads (g : Graph) (path : Path) : Origin → List NodeId → Origin → Prop
  | nil (origin : Origin) : Threads g path origin [] origin
  | cons {start finish : Origin} {d effect : NodeId} {rest : List NodeId}
      (heffect : (g.operands d)[2]? = some effect) (hchase : g.chase path effect = some start)
      (hkind : g.kind (d + 1) = .proj .effect) (hproj : g.operands (d + 1) = [d])
      (hrest : Threads g path (d + 1, path.length) rest finish) :
      Threads g path start (d :: rest) finish

theorem Graph.Threads.append {g : Graph} {path : Path} {start middle finish : Origin}
    {ds ds' : List NodeId} (h : g.Threads path start ds middle)
      (h' : g.Threads path middle ds' finish) :
    g.Threads path start (ds ++ ds') finish := by
  induction h with
  | nil => exact h'
  | cons he hc hk hp _ ih => exact .cons he hc hk hp (ih h')

/-- The effect that a function starts with. -/
def Graph.firstEffect : NodeId := 3

/-- **The effect that comes to the last block of a path.** -/
def Blueprint.entering (F : Blueprint) : Path → Origin
  | [] => (Graph.firstEffect, 0)
  | _ :: path => F.reaching path .effect

namespace Stage

variable {last s t u : Stage} {path : Path} {n a b d effect : NodeId} {c : Builder}
  {new new' : List NodeId}

/-! ## What the walk makes -/

/-- **The divisions made up to a stage**, seen from the last one. -/
def made (last s : Stage) : List NodeId :=
  (List.range s.graph.size).filter fun d => (last.graph.kind d).mayTrap

theorem mem_made : d ∈ last.made s ↔ d < s.graph.size ∧ (last.graph.kind d).mayTrap := by
  simp [made]

/-- **A part of the walk makes some divisions** in the current block. -/
structure Makes (last s : Stage) (new : List NodeId) (t : Stage) : Prop where
  made_eq : last.made t = last.made s ++ new
  home : ∀ d ∈ new, last.graph.blockOf d = s.current
  current : t.current = s.current
  threads : ∀ path, last.Route path → Path.last path = s.current →
    last.graph.Threads path (last.plan.current s.written path .effect) new
      (last.plan.current t.written path .effect)
  elsewhere : ∀ block, block ≠ s.current → t.written block .effect = s.written block .effect
  goesOn : ∀ n, s.graph.size ≤ n → n < t.graph.size → last.graph.kind n ≠ .ret

theorem Makes.trans (h : last.Makes s new t) (h' : last.Makes t new' u) :
    last.Makes s (new ++ new') u where
  made_eq := by rw [h'.made_eq, h.made_eq, append_assoc]
  home := fun d hd => by
    rcases mem_append.1 hd with hd | hd
    · exact h.home d hd
    · exact (h'.home d hd).trans h.current
  current := h'.current.trans h.current
  threads := fun path hp hl =>
    (h.threads path hp hl).append (h'.threads path hp (hl.trans h.current.symm))
  elsewhere := fun block hne => (h'.elsewhere block (h.current.symm ▸ hne)).trans
    (h.elsewhere block hne)
  goesOn := fun n hle hlt => by
    rcases Nat.lt_or_ge n t.graph.size with hn | hn
    · exact h.goesOn n hle hn
    · exact h'.goesOn n hn hlt

/-- The divisions made up to a later stage. -/
theorem made_of_le (hle : s.graph.size ≤ t.graph.size) : last.made t = last.made s ++
      (List.range' s.graph.size (t.graph.size - s.graph.size)).filter
        fun d => (last.graph.kind d).mayTrap := by
  rw [made, made, range_eq_range', range_eq_range', ← Nat.add_sub_cancel' hle, ← List.range'_append_1]
  simp

theorem Inert.made_eq (h : Inert s t) (ht : Toward last last.plan t) : last.made t = last.made s := by
  rw [made_of_le h.grows.size_le, filter_eq_nil_iff.2, append_nil]
  intro d hd
  obtain ⟨hle, hlt⟩ := mem_range'_1.1 hd
  rw [Nat.add_sub_cancel' h.grows.size_le] at hlt
  rw [ht.grows.kind d hlt, h.calm d hle]
  exact nofun

theorem Idle.makes (h : Idle s t) (ht : Toward last last.plan t)
    (hc : t.current = s.current) : last.Makes s [] t where
  made_eq := by rw [h.made_eq ht, append_nil]
  home := forall_mem_nil _
  current := hc
  threads := fun path _ _ => by
    rw [h.unchanged]
    exact .nil _
  elsewhere := fun _ _ => by rw [h.unchanged]
  goesOn := fun n hle hlt => ht.grows.kind n hlt ▸ h.goesOn n hle

theorem idle_read (hs : s.Wired) (hr : s.read slot s.current = .ok (n, c)) :
    Idle s (s.on c) := by
  have hev := (tidy_read hs.wf hs.current hr).evolves
  exact (tends_of_evolves hev).idle rfl fun n hn => kind_of_evolves hev hn

theorem idle_make {block : NodeId} (hk : kind.isShareable) :
    Idle s (s.make kind block operands).2 := by
  obtain ⟨ha, -⟩ := s.add_spec kind block operands
  have ht : kind.mayTrap = false := Bool.eq_false_iff.2 fun ht =>
    absurd (hk.symm.trans (Kind.isShareable_eq_false_of_mayTrap ht)) nofun
  have hterm : kind.isTerminator = false := Bool.eq_false_iff.2 fun hterm =>
    absurd (hk.symm.trans (Kind.isShareable_eq_false_of_isTerminator hterm)) nofun
  refine ((tends_make kind block operands (Kind.isBlock_eq_false_of_isShareable hk)
    hterm).mono fun n hn => absurd (ht.symm.trans hn.1) nofun).idle rfl fun n hn => ?_
  have hof : (s.make kind block operands).2.graph.kind n = _ := ha.kind n
  rw [hof]
  split
  · refine ⟨ht, fun he => ?_⟩
    rw [he] at hk
    cases hk
  · exact kind_unmade hn

/-- **What a read answers along a path** comes from what the slot holds there. -/
theorem Before.chase_read {e : NodeId} (hs : last.Before s) (hl : last.Finished)
    (hr : s.read slot s.current = .ok (n, c)) (ht : Toward last last.plan (s.on c))
    (hp : last.Route path) (hlast : Path.last path = s.current) (hsame : last.plan.Same n e)
    (hstands : last.Stands e) (hlt : e < last.graph.size) :
    last.graph.chase path e = some (last.plan.current s.written path slot) := by
  have hwf := hs.site.wf
  have hc := hs.site.current
  obtain ⟨-, hh⟩ := rightRead_read hwf hc hr hs.right.sound
    (ht.agrees ((Step.read hc hr).wf hwf))
  rw [hl.chase_of_same hp hlt hstands hsame (hlast ▸ hh.dom), hh.origin path hp.isPath hlast]

/-- **A division takes the effect that was read and gives a new one.** -/
theorem makes_trapping {op : ArithOp} (hop : op.hasEffect) (hl : last.Finished)
    (ht : Toward last last.plan (s.trapping (.arith op) a b effect))
    (hc : (s.trapping (.arith op) a b effect).current = s.current)
    (heffect : ∀ e path, last.plan.Same effect e → last.Stands e → e < last.graph.size →
      last.Route path → Path.last path = s.current →
      last.graph.chase path e = some (last.plan.current s.written path .effect)) :
    last.Makes s [s.graph.size] (s.trapping (.arith op) a b effect) ∧
      last.graph.kind s.graph.size = .binary (.arith op) := by
  have htrapped := trapped_trapping (.arith op) a b effect s
  generalize s.trapping (.arith op) a b effect = t at ht hc htrapped
  obtain ⟨hthree, hkind, hkindEffect, hkindValue⟩ := htrapped.grown ht.grows.kind
    ht.grows.blockOf
  have hlt := fun k hk => (hthree k hk).1
  have hh := fun k hk => (hthree k hk).2
  refine ⟨⟨?_, fun d hd => ?_, hc, fun path hp hlast => ?_, fun block hne => ?_,
    fun n hle hn => ?_⟩, hkind⟩
  · rw [made_of_le (htrapped.size ▸ Nat.le_add_right _ 3), htrapped.size, Nat.add_sub_cancel_left]
    show _ ++ [s.graph.size, s.graph.size + 1, s.graph.size + 2].filter _ = _
    rw [filter_cons_of_pos, filter_cons_of_neg, filter_cons_of_neg, filter_nil]
    · rw [hkindValue]
      rintro ⟨⟩
    · rw [hkindEffect]
      rintro ⟨⟩
    · rw [hkind]
      exact hop
  · rw [mem_singleton.1 hd]
    exact hh 0 (by decide)
  · have hs := ht.exists_operands hl (hlt 0 (by decide))
      (by rw [Nat.add_zero, htrapped.kind]; rfl) (by rw [Nat.add_zero, htrapped.kind]; rfl)
    rw [Nat.add_zero] at hs
    simp only [htrapped.operands, forall₂_cons_left_iff] at hs
    obtain ⟨_, _, -, ⟨_, _, -, ⟨e, _, ⟨hs, hstands, helt⟩, -, rfl⟩, rfl⟩, hops⟩ := hs
    have he : (last.graph.operands s.graph.size)[2]? = some e := by rw [hops]; rfl
    have hw : t.written (Path.last path) .effect = some (s.graph.size + 1) := by
      rw [htrapped.written]
      exact if_pos ⟨hlast, rfl⟩
    have hnext : last.plan.current t.written path .effect = (s.graph.size + 1, path.length) := by
      rw [Blueprint.current, hw]
      exact Blueprint.origin_self ((hh 1 (by decide)).trans hlast.symm)
        (hl.wired.agrees_plan.plain _ ((hlt 1 (by decide)).trans_le ht.grows.size_le)
          (by rw [hkindEffect]; rfl))
    rw [hnext]
    exact .cons he (heffect e path hs hstands helt hp hlast) hkindEffect
      (ht.operands_output hl (hlt 1 (by decide)) htrapped.kindEffect htrapped.operandsEffect
        (by rw [hkind]; rfl)) (.nil _)
  · rw [htrapped.written]
    exact if_neg fun h => hne h.1
  · rw [htrapped.size] at hn
    obtain rfl | rfl | rfl : n = s.graph.size ∨ n = s.graph.size + 1 ∨ n = s.graph.size + 2 := by
      omega
    · rw [hkind]
      rintro ⟨⟩
    · rw [hkindEffect]
      rintro ⟨⟩
    · rw [hkindValue]
      rintro ⟨⟩

/-- **Nodes are the divisions** with some operators. -/
def Performs (last : Stage) (new : List NodeId) (ops : List ArithOp) : Prop :=
  new.map last.graph.kind = ops.map fun op => .binary (.arith op)

/-- **A part of the walk makes the divisions** with some operators, in the current
block. -/
def Divides (last s : Stage) (ops : List ArithOp) (t : Stage) : Prop :=
  ∃ new, last.Makes s new t ∧ last.Performs new ops

theorem Divides.trans {ops ops' : List ArithOp} (h : last.Divides s ops t)
    (h' : last.Divides t ops' u) : last.Divides s (ops ++ ops') u := by
  obtain ⟨new, hm, hnew⟩ := h
  obtain ⟨new', hm', hnew'⟩ := h'
  refine ⟨new ++ new', hm.trans hm', ?_⟩
  rw [Performs, map_append, map_append, hnew, hnew']

theorem Idle.divides (h : Idle s t) (ht : Toward last last.plan t)
    (hc : t.current = s.current) : last.Divides s [] t :=
  ⟨[], h.makes ht hc, rfl⟩

theorem divides_constant (hk : kind.isShareable) (h : s.constant kind = (n, t))
    (ht : Toward last last.plan t) : last.Divides s [] t := by
  obtain rfl : (s.constant kind).2 = t := congrArg Prod.snd h
  exact (idle_make hk).divides ht rfl

theorem divides_compute (hk : kind.isShareable)
    (ht : Toward last last.plan (s.compute kind operands).2) :
    last.Divides s [] (s.compute kind operands).2 :=
  (idle_make hk).divides ht rfl

end Stage

open Stage

section

variable {last s t : Stage} {n a b : NodeId}

theorem Operates.divides (h : Operates s a b op n t) (hl : last.Finished) (hs : last.Before s)
    (ht : Toward last last.plan t) (ha : s.Usable a) (hb : s.Usable b) :
    last.Divides s op.divisions t := by
  have hw := hs.site.toWired
  cases h with
  | @computes op he =>
    rw [Operator.divisions, if_neg (by rw [he]; exact nofun)]
    exact divides_compute (show (!op.hasEffect) = true by rw [he]; rfl) ht
  | @traps op effect c he hr =>
    rw [Operator.divisions, if_pos he]
    have hanswered := answered_read hw hr
    have hsite := hanswered.site hs.site
    have hf : Answered (s.on c) _ ((s.on c).trapping (.arith op) a b effect) :=
      answered_trapping hsite (hanswered.usable _ ha) (hanswered.usable _ hb) hanswered.answer
    have hc := hf.toward hsite.toWired ht
    have hd := makes_trapping he hl ht hf.current
      fun e path hsame hstands hlt hp hlast =>
      hs.chase_read hl hr hc hp (hlast.trans hanswered.current) hsame hstands hlt
    have hr' : last.Divides s [] (s.on c) := (idle_read hw hr).divides hc hanswered.current
    exact hr'.trans ⟨_, hd.1, congrArg (fun k => [k]) hd.2⟩
  | compares => exact divides_compute rfl ht
  | @and no u hno =>
    have hanswered := constant_answered hw rfl hno
    have hf : Answered u _ (u.compute .condValue [a, b, no]).2 :=
      answered_compute (hanswered.wired hw) rfl (usable_triple (hanswered.usable _ ha)
        (hanswered.usable _ hb) hanswered.answer)
    have hu := hf.toward (hanswered.wired hw) ht
    exact (divides_constant rfl hno hu).trans (divides_compute rfl ht)
  | @or yes u hy =>
    have hanswered := constant_answered hw rfl hy
    have hf : Answered u _ (u.compute .condValue [a, yes, b]).2 :=
      answered_compute (hanswered.wired hw) rfl (usable_triple (hanswered.usable _ ha)
        hanswered.answer (hanswered.usable _ hb))
    have hu := hf.toward (hanswered.wired hw) ht
    exact (divides_constant rfl hy hu).trans (divides_compute rfl ht)

/-- Two expressions one after the other, and their values joined in either order. -/
theorem divides_joined {l r : Expr} {u v : Stage} {x y : NodeId} (hleft : l.Builds s a t)
    (hr : r.Builds t b u) (h : Operates u x y op n v)
    (hxy : u.Usable a → u.Usable b → u.Usable x ∧ u.Usable y) (hl : last.Finished)
    (hs : last.Before s) (ht : Toward last last.plan v)
    (ihl : Toward last last.plan t → last.Divides s l.divisions t)
    (ihr : last.Before t → Toward last last.plan u → last.Divides t r.divisions u) :
    last.Divides s (l.divisions ++ r.divisions ++ op.divisions) v := by
  have ha := hleft.answered hs.site
  have hb := hr.answered (ha.site hs.site)
  obtain ⟨hx, hy⟩ := hxy (hb.usable _ ha.answer) hb.answer
  have hn := h.answered (hb.site (ha.site hs.site)) hx hy
  obtain ⟨htt, hbt, -⟩ := hs.part hleft (hb.trans hn (ha.wired hs.site.toWired)) ht
  obtain ⟨htu, hbu, -⟩ := hbt.part hr hn ht
  exact ((ihl htt).trans (ihr hbt htu)).trans (h.divides hl hbu ht hx hy)

/-- **The walk over an expression makes its divisions**, in the order of evaluation. -/
theorem Expr.Builds.divides (h : e.Builds s n t) (hl : last.Finished) (hs : last.Before s)
    (ht : Toward last last.plan t) : last.Divides s e.divisions t := by
  induction h with
  | int value | bool value => exact divides_constant rfl rfl ht
  | var hread =>
    have hw := hs.site.toWired
    exact (idle_read hw hread).divides ht (answered_read hw hread).current
  | binary hleft hr h ihl ihr => exact divides_joined hleft hr h .intro hl hs ht (ihl hs) ihr
  | @neg e s t u v a nought n he hnought h ih =>
    have hall := divides_joined he (builds_int hnought) h (fun ha hb => ⟨hb, ha⟩) hl hs ht (ih hs)
      fun _ => divides_constant rfl hnought
    simpa [Expr.divisions, Operator.divisions, ArithOp.hasEffect] using hall
  | bitNot he ho h ih =>
    have hall := divides_joined he (builds_int ho) h .intro hl hs ht (ih hs)
      fun _ => divides_constant rfl ho
    simpa [Expr.divisions, Operator.divisions, ArithOp.hasEffect] using hall
  | @logicNot e s t u v a no yes he hno hy ih =>
    have ha := he.answered hs.site
    have hwt := ha.wired hs.site.toWired
    have hb := constant_answered hwt rfl hno
    have hwu := hb.wired hwt
    have hc := constant_answered hwu rfl hy
    have hn : Answered v _ (v.compute .condValue [a, no, yes]).2 :=
      answered_compute (hc.wired hwu) rfl (usable_triple
        (hc.usable _ (hb.usable _ ha.answer)) (hc.usable _ hb.answer) hc.answer)
    have htv := hn.toward (hc.wired hwu) ht
    have htu := hc.toward hwu htv
    have hall := (((ih hs (hb.toward hwt htu)).trans (divides_constant rfl hno htu)).trans
      (divides_constant rfl hy htv)).trans (divides_compute rfl ht)
    simpa only [Expr.divisions, append_nil] using hall
  | @cond c l r s t u v cond a b hcond hleft hr ihc ihl ihr =>
    have hc := hcond.answered hs.site
    have hwt := hc.wired hs.site.toWired
    have ha := hleft.answered (hc.site hs.site)
    have hwu := ha.wired hwt
    have hb := hr.answered (ha.site (hc.site hs.site))
    have hn : Answered v _ (v.compute .condValue [cond, a, b]).2 :=
      answered_compute (hb.wired hwu) rfl (usable_triple
        (hb.usable _ (ha.usable _ hc.answer)) (hb.usable _ ha.answer) hb.answer)
    have hbn := hb.trans hn hwu
    obtain ⟨htt, hbt, -⟩ := hs.part hcond (ha.trans hbn hwt) ht
    obtain ⟨htu, hbu, -⟩ := hbt.part hleft hbn ht
    have hall := (((ihc hs htt).trans (ihl hbt htu)).trans
      (ihr hbu (hn.toward (hb.wired hwu) ht))).trans (divides_compute rfl ht)
    simpa only [Expr.divisions, append_nil] using hall

theorem Stage.Values.divides (h : last.Values e s n t) (hl : last.Finished) :
    last.Divides s e.divisions t :=
  h.builds.divides hl h.before h.toward

/-! ## All divisions -/

namespace Stage

/-- **The divisions of all blocks are threaded**, as far as they have been made, and
the returns take what reaches them. -/
structure Ledger (last s : Stage) : Prop where
  threads : ∀ path, last.Route path → last.graph.Threads path (last.plan.entering path)
    ((last.made s).filter fun d => last.graph.blockOf d = Path.last path)
    (last.plan.current s.written path .effect)
  returns : ∀ m < s.graph.size, last.graph.kind m = .ret → ∀ path, last.Route path →
    Path.last path = last.graph.blockOf m → ∃ effect, (last.graph.operands m)[0]? = some effect ∧
      last.graph.chase path effect = some (last.plan.reaching path .effect)

theorem Ledger.makes {new : List NodeId} (h : last.Ledger s) (hmakes : last.Makes s new t) :
    last.Ledger t where
  threads := fun path hp => by
    rw [hmakes.made_eq, filter_append]
    by_cases hl : Path.last path = s.current
    · have hn : new.filter (fun d => last.graph.blockOf d = Path.last path) = new :=
        filter_eq_self.2 fun d hd => decide_eq_true ((hmakes.home d hd).trans hl.symm)
      rw [hn]
      exact (h.threads path hp).append (hmakes.threads path hp hl)
    · have hn : new.filter (fun d => last.graph.blockOf d = Path.last path) = [] :=
        filter_eq_nil_iff.2 fun d hd he => hl ((of_decide_eq_true he).symm.trans (hmakes.home d hd))
      rw [hn, append_nil, Blueprint.current, hmakes.elsewhere _ hl]
      exact h.threads path hp
  returns := fun m hm hr => by
    rcases Nat.lt_or_ge m s.graph.size with hlt | hle
    · exact h.returns m hlt hr
    · exact absurd hr (hmakes.goesOn m hle hm)

theorem Ledger.values (h : last.Ledger s) (hl : last.Finished) (he : last.Values e s n t) :
    last.Ledger t := by
  obtain ⟨new, hm, -⟩ := he.divides hl
  exact h.makes hm

theorem Ledger.inert (h : last.Ledger s) (hst : Inert s t) (ht : Toward last last.plan t)
    (hr : ∀ m, s.graph.size ≤ m → m < t.graph.size → last.graph.kind m = .ret →
      ∀ path, last.Route path → Path.last path = last.graph.blockOf m →
      ∃ effect, (last.graph.operands m)[0]? = some effect ∧
        last.graph.chase path effect = some (last.plan.reaching path .effect)) : last.Ledger t where
  threads := fun path hp => by
    rw [hst.made_eq ht, hst.unchanged]
    exact h.threads path hp
  returns := fun m hm hret => by
    rcases Nat.lt_or_ge m s.graph.size with hlt | hle
    · exact h.returns m hlt hret
    · exact hr m hle hm hret

theorem Ledger.idle (h : last.Ledger s) (hst : Idle s t) (ht : Toward last last.plan t) :
    last.Ledger t :=
  h.inert hst.toInert ht fun m hle hm hret =>
    absurd ((ht.grows.kind m hm).symm.trans hret) (hst.goesOn m hle)

theorem Ledger.put (h : last.Ledger t) (name : String) (block value : NodeId) :
    last.Ledger (t.put (.var name) block value) where
  threads := fun path hp => by
    rw [Blueprint.current, show (t.put (.var name) block value).written
      (Path.last path) .effect = _ from
      if_neg fun he => Slot.noConfusion he.2]
    exact h.threads path hp
  returns := h.returns

theorem Ledger.ending (h : last.Ledger s) (he : last.Ending s kind operands t)
    (hk : kind ≠ .ret) : last.Ledger t :=
  h.idle (he.idle hk) he.ahead.toToward

theorem Ledger.passing {target : NodeId} (h : last.Ledger s)
    (hp : last.Passing s target flow t) : last.Ledger t := by
  cases hp with
  | returns => exact h
  | continues hl => exact h.ending hl.toEnding nofun

theorem Ledger.blocks (h : last.Ledger s) (hb : Idle s t)
    (he : last.Ending t kind operands u) (hk : kind ≠ .ret) : last.Ledger u :=
  (h.idle hb (he.ahead.toToward.back he.inert.grows he.site.wf)).ending he hk

/-- **A return takes what reaches it.** -/
theorem Ledger.ret {effect : NodeId} (h : last.Ledger t) (hl : last.Finished) (ht : last.Before t)
    (hread : t.read .effect t.current = .ok (effect, c))
    (hend : last.Ending (t.on c) .ret [effect, n] u) : last.Ledger u := by
  have hr := answered_read ht.site.toWired hread
  have hc := hend.ahead.toToward.back hend.inert.grows hend.site.wf
  refine (h.idle (idle_read ht.site.toWired hread) hc).inert hend.inert hend.ahead.toToward
    fun m hle hm hret path hp hlast => ?_
  obtain ⟨hkind, hh, hw, -⟩ := hend.closed
  have hm : m = (t.on c).graph.size := by
    rw [hend.eq_leave] at hm
    exact Nat.le_antisymm (Nat.le_of_lt_succ (hm.trans_eq (size_leave _ _ _ _))) hle
  subst hm
  have hs := hend.ahead.toToward.exists_operands hl hend.lt (by rw [hend.kind]; rfl)
    (by rw [hend.kind]; rfl)
  rw [hend.operands fun target hm => mem_singleton.1 hm ▸
    lt_of_isBlock hend.site.final] at hs
  obtain ⟨e, he, hs, hstands, helt⟩ : ∃ e, (last.graph.operands (t.on c).graph.size)[0]? = some e ∧
        last.plan.Same effect e ∧ last.Stands e ∧ e < last.graph.size := by
    generalize last.graph.operands (t.on c).graph.size = ops at hs
    cases hs with
    | cons he _ => exact ⟨_, rfl, he⟩
  rw [hh] at hlast
  refine ⟨e, he, (ht.chase_read hl hread hc hp (hlast.trans hr.current) hs hstands helt).trans ?_⟩
  -- Nothing is written in the block after the return.
  rw [Blueprint.reaching_eq, Blueprint.current, hlast]
  rw [show last.plan.written (t.on c).current = _ from hw]
  rfl

/-- **An update makes no more divisions** than its operator. -/
theorem Values.update_divides {lhs rhs : NodeId} {name : String} (he : last.Values e s rhs t)
    (hl : last.Finished) (hr : t.read (.var name) t.current = .ok (lhs, c))
    (h : Operates (t.on c) lhs rhs op n u) (hu : Toward last last.plan u) :
    Toward last last.plan (t.on c) ∧ last.Divides (t.on c) op.divisions u := by
  have ho := answered_read he.site.toWired hr
  have hc := ho.site he.site
  have hv := ho.usable _ he.answered.answer
  have htc := (h.answered hc ho.answer hv).toward hc.toWired hu
  obtain ⟨hbc, -⟩ := he.after.1.answered ho ((keeps_read he.site.toWired hr).bind .refl fun h =>
    .refl ⟨(congrArg (last.plan.Dom _) ho.current).mpr h.1, h.2⟩) htc
  exact ⟨htc, h.divides hl hbc hu ho.answer hv⟩

end Stage

/-- **The walk over a statement keeps the ledger.** -/
theorem Stmt.Tours.ledger {body : Stmt} (h : body.Tours last s flow t) (hl : last.Finished)
    (hs : last.Ledger s) : last.Ledger t := by
  induction h with
  | skip | declare => exact hs
  | done _ ih => exact ih hs
  | next _ _ ih ih' => exact ih' (ih hs)
  | define he | assign he => exact (hs.values hl he).put _ _ _
  | update he hr h hu =>
    obtain ⟨htc, new, hmakes, -⟩ := he.update_divides hl hr h hu
    exact (((hs.values hl he).idle (idle_read he.site.toWired hr) htc).makes hmakes).put _ _ _
  | ifThen hc hb hfork _ hthen hf _ hp hm hlast ih =>
    have hu := (hs.values hl hc).blocks hb hfork.toEnding nofun
    exact ((ih (hu.idle hthen hf.toward)).passing hp).idle hm hlast.toward
  | ifElse hc hb hfork _ hthen hf _ hp helse hf' _ hp' hm hlast ih ih' =>
    have hu := (hs.values hl hc).blocks hb hfork.toEnding nofun
    have hx := ((ih (hu.idle hthen hf.toward)).passing hp).idle helse hf'.toward
    exact ((ih' hx).passing hp').idle hm hlast.toward
  | loop _ hb _ hj henter hh hc hfork harm hf _ hp hexit hlast ih =>
    have ht := (hs.blocks hb hj.toEnding nofun).idle henter hh.toward
    have hv := ((ht.values hl hc).ending hfork.toEnding nofun).idle harm hf.toward
    exact ((ih hv).passing hp).idle hexit hlast.toward
  | ret he hr hend => exact (hs.values hl he).ret hl he.after.1 hr hend

end

namespace Translated

variable {f : Function} {s : Stage} {flow : Flow} {r : FunctionGraph}

theorem made_first (h : Translated f s flow r) : s.made (first f.name true) = [] :=
  filter_eq_nil_iff.2 fun d hd ht => by
    rw [h.walks.tends.grows.kind d (mem_range.1 hd)] at ht
    rcases d with _ | _ | _ | _ | d <;> cases ht

/-- **The divisions of a function are threaded** in the order they were made. -/
theorem ledger (h : Translated f s flow r) : s.Ledger s := by
  have hg := h.walks.tends.grows
  refine h.tours.ledger h.finished ⟨fun path hp => ?_, fun m hm hr => ?_⟩
  · rw [h.made_first]
    cases path with
    | nil =>
      have hf : s.plan.origin [] Graph.firstEffect = (Graph.firstEffect, 0) := by
        have hlt : Graph.firstEffect < (first f.name true).graph.size :=
          show 3 < 4 from by decide
        refine Blueprint.origin_self (hg.blockOf _ hlt) (h.wired.agrees_plan.plain _
          (hlt.trans_le hg.size_le) ?_)
        rw [hg.kind _ hlt]
        rfl
      show Graph.Threads _ _ _ _ (s.plan.origin [] Graph.firstEffect)
      rw [hf]
      exact .nil _
    | cons edge path =>
      have hne : edge.1 ≠ Graph.startBlock := fun he => by
        cases hp.isPath with
        | @cons _ block index _ hedge =>
          rw [show block = Graph.startBlock from he] at hedge
          rw [show s.graph.preds Graph.startBlock = [] from h.wired.agrees_plan.entry] at hedge
          cases hedge
      rw [Blueprint.current, show (first f.name true).written
        (Path.last (edge :: path)) .effect = none from if_neg fun hn => hne hn.1]
      exact .nil _
  · rw [hg.kind m hm] at hr
    rcases m with _ | _ | _ | _ | m <;> cases hr

end Translated

end SsaCompiler
