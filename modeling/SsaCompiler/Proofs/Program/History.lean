import SsaCompiler.Proofs.Graph.History
import SsaCompiler.Proofs.Program.Strict

/-!
# The history of a translation

The history of a function lists everything that is offered to the value table and
everything that is detached while its graph is built and lowered. It follows the
translation rule by rule, and the log of the translation reports just its hits.

**Hits are never stale** (`Function.hits_are_current`). The translation holds a
node only while it walks over an expression, and there it only reads: reads
retire no node that was there before, so what it holds still stands when it is
used. Blocks are sealed only between statements, when nothing is held. So no
operand of a new node was ever replaced, and the keys of the table, which are
never changed, are right for all nodes that can be asked for.
-/

namespace SsaCompiler

open List Builder Stage
open Graph (startBlock endBlock)

open History

variable {c : Builder} {flow : Flow}

namespace Builder

/-- The history of computing an operation. -/
def binaryHistory (b : Builder) (op : BinOp) (lhs rhs : NodeId) : History :=
  if op.hasEffect then
    b.readHistory .effect b.current ++ after (b.read .effect b.current) fun r =>
      [r.2.offers (.binary op) r.2.current [lhs, rhs, r.1]]
  else [b.offers (.binary op) b.current [lhs, rhs]]

/-- The history of joining two values by an operator. -/
def operateHistory (b : Builder) (op : Operator) (lhs rhs : NodeId) : History :=
  match op with
  | .arith op => b.binaryHistory (.arith op) lhs rhs
  | .compare op => [b.offers (.compare op) b.current [lhs, rhs]]
  | .logic .and =>
    let (no, c) := b.constBool false
    [b.offers (.constBool false) startBlock [], c.offers .condValue c.current [lhs, rhs, no]]
  | .logic .or =>
    let (yes, c) := b.constBool true
    [b.offers (.constBool true) startBlock [], c.offers .condValue c.current [lhs, yes, rhs]]

theorem tells_place {asked : Kind → Prop} (b : Builder) (kind : Kind) (block : NodeId)
    (operands : List NodeId) : Tells asked b.toDraft [] (b.place kind block operands).2.toDraft :=
  tells_nil rfl (b.size_place block kind operands ▸ Nat.le_succ _) rfl

end Builder

/-- **The history of building an expression.** -/
def Expr.history (b : Builder) : Expr → History
  | int value => [b.offers (.constInt value) startBlock []]
  | bool value => [b.offers (.constBool value) startBlock []]
  | var name => b.readHistory (.var name) b.current
  | binary op lhs rhs =>
    lhs.history b ++ after (lhs.build b) fun l =>
      rhs.history l.2 ++ after (rhs.build l.2) fun r => r.2.operateHistory op l.1 r.1
  | neg operand =>
    operand.history b ++ after (operand.build b) fun r =>
      let (nought, c) := r.2.constInt 0
      r.2.offers (.constInt 0) startBlock [] :: c.binaryHistory (.arith .sub) nought r.1
  | bitNot operand =>
    operand.history b ++ after (operand.build b) fun r =>
      let (ones, c) := r.2.constInt (-1)
      r.2.offers (.constInt (-1)) startBlock [] :: c.binaryHistory (.arith .bitXor) r.1 ones
  | logicNot operand =>
    operand.history b ++ after (operand.build b) fun r =>
      let (no, c) := r.2.constBool false
      let (yes, d) := c.constBool true
      [r.2.offers (.constBool false) startBlock [], c.offers (.constBool true) startBlock [],
        d.offers .condValue d.current [r.1, no, yes]]
  | cond condition ifTrue ifFalse =>
    condition.history b ++ after (condition.build b) fun c =>
      ifTrue.history c.2 ++ after (ifTrue.build c.2) fun t =>
        ifFalse.history t.2 ++ after (ifFalse.build t.2) fun f =>
          [f.2.offers .condValue f.2.current [c.1, t.1, f.1]]

namespace Stmt

/-- The history of an arm: its block is sealed, and the arm is built and left. -/
def armHistory (b : Builder) (block target : NodeId) (build : Builder → Except Fault (Flow × Builder))
    (history rest : Builder → History) : History :=
  b.sealHistory block ++ after (enterSealed b block) fun b =>
    history b ++ after (build b) fun done => rest (leave target done)

/-- **The history of building a statement.** -/
def history (b : Builder) : Stmt → History
  | skip => []
  | seq first rest =>
    first.history b ++ after (first.build b) fun r =>
      match r.1 with
      | .returns => []
      | .continues => rest.history r.2
  | declare _ _ none => []
  | declare _ _ (some init) => init.history b
  | assign _ none value => value.history b
  | assign name (some op) value =>
    value.history b ++ after (value.build b) fun r =>
      r.2.readHistory (.var name) r.2.current ++
        after (r.2.read (.var name) r.2.current) fun l => l.2.operateHistory op l.1 r.1
  | ifThen condition body =>
    condition.history b ++ after (condition.build b) fun r =>
      let (thenBlock, b) := r.2.newBlock "then"
      let (merge, b) := b.newBlock "merge"
      let (_, b) := b.condJump r.1 thenBlock merge
      armHistory b thenBlock merge (fun b => body.build b) (fun b => body.history b) fun b =>
        b.sealHistory merge
  | ifElse condition body otherwise =>
    condition.history b ++ after (condition.build b) fun r =>
      let (thenBlock, b) := r.2.newBlock "then"
      let (elseBlock, b) := b.newBlock "else"
      let (merge, b) := b.newBlock "merge"
      let (_, b) := b.condJump r.1 thenBlock elseBlock
      armHistory b thenBlock merge (fun b => body.build b) (fun b => body.history b) fun b =>
        armHistory b elseBlock merge (fun b => otherwise.build b) (fun b => otherwise.history b)
          fun b => b.sealHistory merge
  | loop condition body =>
    let (header, b) := b.newBlock "header"
    let (bodyBlock, b) := b.newBlock "body"
    let (exit, b) := b.newBlock "exit"
    let (_, b) := b.jump header
    condition.history (b.enter header) ++ after (condition.build (b.enter header)) fun r =>
      let (_, b) := r.2.condJump r.1 bodyBlock exit
      armHistory b bodyBlock header (fun b => body.build b) (fun b => body.history b) fun b =>
        b.sealHistory header ++ after (b.sealBlock header) fun b => b.sealHistory exit
  | ret value =>
    value.history b ++ after (value.build b) fun r => r.2.readHistory .effect r.2.current

end Stmt

/-- **The history of a function**: of building its body, and of lowering. -/
def Function.history (f : Function) : History :=
  f.body.history (Builder.init f.name true) ++
    after (f.body.build (Builder.init f.name true)) fun r => r.2.finish.loweringHistory

open Stage

section

variable {asked : Kind → Prop} {s t u : Stage} {kind : Kind} {block n lhs rhs : NodeId}
  {operands : List NodeId} {op : Operator} {e : Expr}

/-! ## Expressions -/

/-- What the walk offers is made of nodes that stand. -/
theorem Stage.tells_make (hs : s.Wired) (ho : ∀ a ∈ operands, s.Usable a) (kind : Kind)
    (block : NodeId) :
    Tells (fun _ => True) s.toDraft [s.toBuilder.offers kind block operands]
      (s.make kind block operands).2.toDraft :=
  tells_offers hs.wf trivial
    (fun a ha => ⟨(ho a ha).lt, (ho a ha).stands⟩) block

theorem Stage.tells_constant (hs : s.Wired) (kind : Kind) :
    Tells (fun _ => True) s.toDraft [s.toBuilder.offers kind startBlock []]
      (s.constant kind).2.toDraft :=
  tells_make hs (forall_mem_nil _) kind startBlock

theorem Stage.tells_read {slot : Slot} (hs : s.Wired)
    (h : s.read slot s.current = .ok (n, c)) :
    Tells (fun _ => True) s.toDraft (s.toBuilder.readHistory slot s.current) c.toDraft :=
  recounts_read trivial hs.wf hs.current h

/-- An operation that may trap is offered, and is not shared. Its outputs are not
offered. -/
theorem Stage.tells_trapping {op : BinOp} {effect : NodeId} (hs : s.Wired) (hop : op.hasEffect)
    (hl : s.Usable lhs) (hr : s.Usable rhs) (he : s.Usable effect) :
    Tells (fun _ => True) s.toDraft [s.toBuilder.offers (.binary op) s.current [lhs, rhs, effect]]
      (s.trapping op lhs rhs effect).toDraft := by
  have hnot : (Kind.binary op).isShareable = false := by
    show (!op.hasEffect) = false
    rw [hop]
    rfl
  have hm := tells_make hs (usable_triple hl hr he) (.binary op) s.current
  rw [make, lift_add_of_not_shareable hnot] at hm
  exact (hm.silently (tells_place _ _ _ _)).silently (tells_place _ _ _ _)

theorem Operates.tells (h : Operates s lhs rhs op n t) (hs : s.Site) (hl : s.Usable lhs)
    (hr : s.Usable rhs) :
    Tells (fun _ => True) s.toDraft (s.toBuilder.operateHistory op lhs rhs) t.toDraft := by
  unfold Builder.operateHistory
  cases h with
  | @computes op hop =>
    have hop : (BinOp.arith op).hasEffect = false := hop
    dsimp only
    unfold Builder.binaryHistory
    rw [if_neg (Bool.eq_false_iff.1 hop)]
    exact tells_make hs.toWired (usable_pair hl hr) _ _
  | @traps op effect c hop hread =>
    have hop : (BinOp.arith op).hasEffect = true := hop
    have hread' := answered_read hs.toWired hread
    dsimp only
    unfold Builder.binaryHistory
    rw [if_pos hop]
    exact (tells_read hs.toWired hread).after hread
      (tells_trapping (hread'.wired hs.toWired) hop (hread'.usable _ hl)
        (hread'.usable _ hr) hread'.answer)
  | compares => exact tells_make hs.toWired (usable_pair hl hr) _ _
  | @and no t hno =>
    have hno' := answered_constant (.constBool false) hs.toWired rfl
    have ht := tells_constant hs.toWired (.constBool false)
    cases hno
    exact ht.trans (tells_make (hno'.wired hs.toWired) (usable_triple
      (hno'.usable _ hl) (hno'.usable _ hr) hno'.answer) _ _)
  | @or yes t hyes =>
    have hyes' := answered_constant (.constBool true) hs.toWired rfl
    have ht := tells_constant hs.toWired (.constBool true)
    cases hyes
    exact ht.trans (tells_make (hyes'.wired hs.toWired) (usable_triple
      (hyes'.usable _ hl) hyes'.answer (hyes'.usable _ hr)) _ _)

/-- **Building an expression has a sound history.** What it holds while it goes on
still stands when it is used. -/
theorem Expr.Builds.tells (h : e.Builds s n t) (hs : s.Site) :
    Tells (fun _ => True) s.toDraft (e.history s.toBuilder) t.toDraft := by
  induction h with
  | int value | bool value => exact tells_constant hs.toWired _
  | var h => exact tells_read hs.toWired h
  | binary hl hr h ihl ihr =>
    have hl' := hl.answered hs
    have hr' := hr.answered (hl'.site hs)
    exact (ihl hs).after hl.build_eq ((ihr (hl'.site hs)).after hr.build_eq
      (h.tells (hr'.site (hl'.site hs)) (hr'.usable _ hl'.answer) hr'.answer))
  | @neg e s t u v a nought n he hn h ih =>
    have he' := he.answered hs
    have ht := he'.site hs
    have hn' := answered_constant (.constInt 0) ht.toWired rfl
    have htells := tells_constant ht.toWired (.constInt 0)
    cases hn
    exact (ih hs).after he.build_eq (htells.trans (h.tells (hn'.site ht)
      hn'.answer (hn'.usable _ he'.answer)))
  | @bitNot e s t u v a ones n he ho h ih =>
    have he' := he.answered hs
    have ht := he'.site hs
    have ho' := answered_constant (.constInt (-1)) ht.toWired rfl
    have htells := tells_constant ht.toWired (.constInt (-1))
    cases ho
    exact (ih hs).after he.build_eq (htells.trans (h.tells (ho'.site ht)
      (ho'.usable _ he'.answer) ho'.answer))
  | @logicNot e s t u v a no yes he hno hyes ih =>
    have he' := he.answered hs
    have ht := he'.wired hs.toWired
    have hno' := answered_constant (.constBool false) ht rfl
    have htells := tells_constant ht (.constBool false)
    cases hno
    have hu := hno'.wired ht
    have hyes' := answered_constant (.constBool true) hu rfl
    have htells' := tells_constant hu (.constBool true)
    cases hyes
    exact (ih hs).after he.build_eq (htells.trans (htells'.trans
      (tells_make (hyes'.wired hu) (usable_triple (hyes'.usable _ (hno'.usable _ he'.answer))
        (hyes'.usable _ hno'.answer) hyes'.answer) _ _)))
  | cond hc hl hr ihc ihl ihr =>
    have hc' := hc.answered hs
    have ht := hc'.site hs
    have hl' := hl.answered ht
    have hu := hl'.site ht
    have hr' := hr.answered hu
    exact (ihc hs).after hc.build_eq ((ihl ht).after hl.build_eq ((ihr hu).after hr.build_eq
      (tells_make (hr'.wired hu.toWired) (usable_triple (hr'.usable _ (hl'.usable _ hc'.answer))
        (hr'.usable _ hl'.answer) hr'.answer) _ _)))

/-! ## Statements -/

theorem Stage.tells_newBlock (s : Stage) (role : String) :
    Tells asked s.toDraft [] (s.newBlock role).toDraft :=
  tells_nil rfl (s.size_newBlock role ▸ Nat.le_succ _) rfl

theorem Stage.tells_leave (s : Stage) (kind : Kind) (operands : List NodeId) :
    Tells asked s.toDraft [] (s.leave kind operands).toDraft :=
  tells_nil rfl (Nat.le_trans (Nat.le_succ _) (s.size_leave kind s.current operands).symm.le) rfl

theorem Stage.tells_passOn (s : Stage) (flow : Flow) (target : NodeId) :
    Tells asked s.toDraft [] (s.passOn flow target).toDraft := by
  cases flow with
  | continues => exact s.tells_leave _ _
  | returns => exact .refl _ _

theorem Stage.tells_seal (hs : s.Wired) (h : s.sealBlock block = .ok c) :
    Tells (fun _ => True) s.toDraft (s.toBuilder.sealHistory block) c.toDraft :=
  tells_sealBlock trivial hs.wf h

/-- **An arm has a sound history** if its body has. -/
theorem Stage.tells_arm {w : Stage} {target : NodeId} {d : Draft}
    {build : Builder → Except Fault (Flow × Builder)} {history rest : Builder → History}
    (hs : s.Wired) (hseal : s.sealBlock block = .ok c)
    (hb : build ((s.on c).enter block).toBuilder = .ok (flow, w.toBuilder))
    (hbody : Tells (fun _ => True) ((s.on c).enter block).toDraft
      (history ((s.on c).enter block).toBuilder) w.toDraft)
    (hr : Tells (fun _ => True) (w.passOn flow target).toDraft
      (rest (w.passOn flow target).toBuilder) d) :
    Tells (fun _ => True) s.toDraft
      (Stmt.armHistory s.toBuilder block target build history rest) d := by
  rw [← passOn_eq] at hr
  refine (tells_seal hs hseal).after (Except.bind_eq_ok.2 ⟨_, hseal, rfl⟩) (hbody.after hb ?_)
  refine (w.tells_passOn flow target).trans ?_
  rwa [passOn_eq] at hr ⊢

/-- **Building a statement has a sound history.** -/
theorem Stmt.Walks.tells {body : Stmt} (h : body.Walks s flow t) :
    Tells (fun _ => True) s.toDraft (body.history s.toBuilder) t.toDraft := by
  induction h with
  | skip | declare => exact .refl _ _
  | done h ih => exact ih.after h.build_eq (.refl _ _)
  | next h _ ih ih' => exact ih.after h.build_eq ih'
  | define hs he | assign hs he => exact he.tells hs
  | update hs he hr h =>
    have he' := he.answered hs
    have ht := he'.site hs
    have hr' := answered_read ht.toWired hr
    exact (he.tells hs).after he.build_eq ((tells_read ht.toWired hr).after hr
      (h.tells (hr'.site ht) hr'.answer (hr'.usable _ he'.answer)))
  | @ifThen condition body s t u w cond c d flow hs hc hf hforks hthen hb _ ha _ hm
      ih =>
    have hsilent : Tells (fun _ => True) t.toDraft [] u.toDraft := by
      rw [hf]
      exact ((t.tells_newBlock _).silently (tells_newBlock _ _)).silently (tells_leave _ _ _)
    refine (hc.tells hs).after hc.build_eq (hsilent.trans ?_)
    subst hf
    show Tells _ _ (armHistory (((t.newBlock "then").newBlock "merge").leave
      (.condJump t.graph.size (t.newBlock "then").graph.size) [cond]).toBuilder t.graph.size
      (t.newBlock "then").graph.size (fun b => body.build b) (fun b => body.history b) fun b =>
        b.sealHistory (t.newBlock "then").graph.size) d.toDraft
    simp only [size_newBlock]
    exact tells_arm hforks.wired hthen hb.build_eq ih (tells_seal ha.wired hm)
  | @ifElse condition body otherwise s t u w x cond c d e flow flow' hs hc hf hforks _ hthen
      hb _ ha helse ho _ harm' _ hm ih ih' =>
    have hsilent : Tells (fun _ => True) t.toDraft [] u.toDraft := by
      rw [hf]
      exact (((t.tells_newBlock _).silently (tells_newBlock _ _)).silently
        (tells_newBlock _ _)).silently (tells_leave _ _ _)
    refine (hc.tells hs).after hc.build_eq (hsilent.trans ?_)
    subst hf
    show Tells _ _ (armHistory ((((t.newBlock "then").newBlock "else").newBlock "merge").leave
      (.condJump t.graph.size (t.newBlock "then").graph.size) [cond]).toBuilder t.graph.size
      ((t.newBlock "then").newBlock "else").graph.size (fun b => body.build b)
      (fun b => body.history b) fun b => armHistory b (t.newBlock "then").graph.size
        ((t.newBlock "then").newBlock "else").graph.size (fun b => otherwise.build b)
        (fun b => otherwise.history b) fun b =>
          b.sealHistory ((t.newBlock "then").newBlock "else").graph.size) e.toDraft
    simp only [size_newBlock]
    exact tells_arm hforks.wired hthen hb.build_eq ih
      (tells_arm ha.wired helse ho.build_eq ih' (tells_seal harm'.wired hm))
  | @loop condition body s t u v w cond c d e flow hs hhead _ hsite hc hf hforks hbodyBlock
      hb _ ha hh hw _ hexit ih =>
    have hsilent : Tells (fun _ => True) s.toDraft [] (t.enter s.graph.size).toDraft := by
      rw [hhead]
      exact (((s.tells_newBlock _).silently (tells_newBlock _ _)).silently
        (tells_newBlock _ _)).silently (tells_leave _ _ _)
    have hl : Tells (fun _ => True) u.toDraft [] v.toDraft := by
      rw [hf]
      exact u.tells_leave _ _
    have hcondition := hsilent.trans (hc.tells hsite)
    subst hhead
    refine hcondition.after hc.build_eq (hl.trans ?_)
    subst hf
    show Tells _ _ (armHistory (u.leave (.condJump (s.newBlock "header").graph.size
      ((s.newBlock "header").newBlock "body").graph.size) [cond]).toBuilder
      (s.newBlock "header").graph.size s.graph.size (fun b => body.build b)
      (fun b => body.history b) fun b => b.sealHistory s.graph.size ++
        after (b.sealBlock s.graph.size) fun b =>
          b.sealHistory ((s.newBlock "header").newBlock "body").graph.size) e.toDraft
    simp only [size_newBlock]
    exact tells_arm hforks.wired hbodyBlock hb.build_eq ih
      ((tells_seal ha.wired hh).after hh (tells_seal hw hexit))
  | @ret value s t n effect c hs he hr =>
    have ht := (he.answered hs).wired hs.toWired
    exact (he.tells hs).after he.build_eq
      ((tells_read ht hr).silently ((t.on c).tells_leave _ _))

end

/-! ## Functions -/

theorem Builder.reuses_log_finish (b : Builder) : Log.reuses b.finish.log = Log.reuses b.log := by
  unfold Builder.finish
  split
  · rfl
  · exact Log.reuses_push _ rfl

/-- **The translation of a function has a sound history.** While the graph is built no
node of the table is detached; lowering detaches conditional values, and asks for none. -/
theorem Translated.tells {f : Function} {s : Stage} {r : FunctionGraph}
    (h : Translated f s flow r) :
    History.Sound [] f.history ∧
      s.finish.lowerConditionals.2.Keeps (· ≠ .condValue) f.history := by
  have hwf := h.wired.wf
  have hstart : (Stage.first f.name true).toDraft.Keeps (fun _ => True) [] :=
    ⟨rfl, fun n hn => absurd hn not_mem_nil, fun _ _ _ hn => absurd hn not_mem_nil⟩
  have hbuilt : Tells (fun _ => True) (Stage.first f.name true).toDraft
      (f.body.history (Builder.init f.name true)) s.finish :=
    h.walks.tells.silently (tells_nil (known_finish _)
      (congrArg Graph.size (graph_finish _)).symm.le
      (reuses_log_finish _))
  have hs := h.right.strict h.wired (d := s.finish) (graph_finish _)
    (known_finish _)
  have hl := hs.tells_lowerConditionals
  rw [graph_finish] at hl
  obtain ⟨hsound, hk⟩ := hbuilt [] hstart
  obtain ⟨hsound', hk'⟩ := hl hwf.entry hwf.home _ (hk.mono fun _ _ => trivial)
  have heq : f.history = f.body.history (Builder.init f.name true) ++
      s.finish.loweringHistory := by
    have hb : f.body.build (Builder.init f.name true) = .ok (flow, s.toBuilder) :=
      h.walks.build_eq
    unfold Function.history
    rw [hb]
    rfl
  rw [heq]
  exact ⟨sound_append.2 ⟨hsound, hsound'⟩, hk'⟩

/-- **Hits are never stale.** The log of a translation reports just the hits of the
history of the function. Whenever a node is found in place of a candidate, in
construction and in lowering, it has at that moment the kind and the block of the
candidate and its operands, in some order if the operation is commutative. It was
not detached before, and the candidate is left without operands and users. -/
theorem Function.hits_are_current (f : Function) :
    ∃ r, f.toGraph = .ok r ∧ Log.reuses r.log = f.history.reuses ∧
      ∀ i o, f.history[i]? = some (.offer o) →
        Log.reuses o.draft.log = History.reuses (f.history.take i) ∧
        ∀ n, o.found? = some n → o.Current n ∧ n ∉ History.detached (f.history.take i) := by
  obtain ⟨s, flow, r, hr⟩ := f.exists_translated
  obtain ⟨hsound, hkeeps⟩ := hr.tells
  refine ⟨r, hr.toGraph, ?_, fun i o ho => hsound.offer ho⟩
  have hgraph : f.toGraph = .ok _ := Except.bind_eq_ok.2 ⟨_, hr.walks.build_eq, rfl⟩
  obtain rfl := Except.ok.inj (hr.toGraph.symm.trans hgraph)
  exact (Log.reuses_push _ rfl).trans hkeeps.log

/-- A sum that is asked for twice, after a loop whose merge is retired, and a choice
that is lowered. -/
def sharedSum : Function where
  name := "f"
  body := .seq (.declare "x" .int (some (.int 1))) (.seq
    (.loop (.binary (.compare .less) (.var "x") (.int 3)) .skip)
    (.ret (.binary (.arith .add) (.binary (.arith .add) (.var "x") (.int 2))
      (.cond (.binary (.compare .less) (.var "x") (.int 3)) (.int 0)
        (.binary (.arith .add) (.int 2) (.var "x"))))))

/-- The sum is found although it is asked for with its operands exchanged, and lowering
finds a constant of the function. Neither was detached, unlike the merge of the loop. -/
theorem sharedSum_hits_are_current : ∃ o p : Offer,
    sharedSum.history[10]? = some (.offer o) ∧ o.found? = some 15 ∧
    sharedSum.history[14]? = some (.offer p) ∧ p.found? = some 18 ∧
    o.Current 15 ∧ 15 ∉ History.detached (sharedSum.history.take 10) ∧
    p.Current 18 ∧ 18 ∉ History.detached (sharedSum.history.take 14) ∧
    History.detached (sharedSum.history.take 10) = [9, 16, 19] := by
  obtain ⟨o, ho, hn⟩ := exists_offer (h := sharedSum.history) (i := 10) (m := 20) (n := 15)
    (by decide +kernel)
  obtain ⟨p, hp, hm⟩ := exists_offer (h := sharedSum.history) (i := 14) (m := 25) (n := 18)
    (by decide +kernel)
  obtain ⟨_, -, -, hcurrent⟩ := sharedSum.hits_are_current
  obtain ⟨ho', hgone⟩ := (hcurrent 10 o ho).2 15 hn
  obtain ⟨hp', hgone'⟩ := (hcurrent 14 p hp).2 18 hm
  exact ⟨o, p, ho, hn, hp, hm, ho', hgone, hp', hgone', by decide +kernel⟩

end SsaCompiler
