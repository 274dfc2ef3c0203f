import SsaCompiler.Proofs.Builder.Control

/-!
# Reads need no bound

A builder counts its steps: it follows what replaced a node at most so many
times, it goes into no more than so many trivial merges one after the other,
and a read has a bound of its own. The relations of this module are the same
three recursions **without the counting**. They say what each of them does
next, and nothing else; so a recursion that goes on forever has no result
here (`not_reads_of_circle`).

The relations have one result at most, and **a read with its bound answers exactly
what a read without one does** (`read_eq_ok_iff`).

The counts are never used up. Following a replacement ends since every
retired merge was replaced by a node that stood longer. Every step into a
trivial merge retires one merge more, and none are made meanwhile
(`simplifies_simplify`). And a read that meets only sealed blocks that can be
reached from the start block comes to a result whatever the circles of the
control flow (`Run.reads_end`).
-/

namespace SsaCompiler.Builder

open List

variable {b c : Builder} {old bound : Nat} {first : NodeId} {slot : Slot} {block phi value : NodeId}

/-! ## The recursions -/

/-- **Following what replaced a node** until nothing did. -/
inductive Resolves (b : Builder) : NodeId → NodeId → Prop
  | stop {n : NodeId} (h : b.forwarded.lookup n = none) : Resolves b n n
  | step {n m last : NodeId} (h : b.forwarded.lookup n = some m) (hrest : Resolves b m last) :
      Resolves b n last

mutual

/-- **Retiring a merge if it is trivial**, and then those of its users that are. -/
inductive Simplifies : Builder → NodeId → NodeId → Builder → Prop
  | keeps {b : Builder} {phi : NodeId} (hmerged : 2 ≤ (b.merged phi).length) :
      Simplifies b phi phi b
  | single {b c : Builder} {phi value last : NodeId} (hmerged : b.merged phi = [value])
      (husers : Revisits ((b.graph.users phi).filter (· ≠ phi)) (b.retire phi value) c)
      (hlast : c.Resolves value last) : Simplifies b phi last c
  | none {b c : Builder} {phi last : NodeId} (hmerged : b.merged phi = [])
      (husers : Revisits ((b.undefined.2.graph.users phi).filter (· ≠ phi))
        (b.undefined.2.retire phi b.undefined.1) c)
      (hlast : c.Resolves b.undefined.1 last) : Simplifies b phi last c

/-- **Looking again at the users of a retired merge**, one after the other. -/
inductive Revisits : List NodeId → Builder → Builder → Prop
  | nil {b : Builder} : Revisits [] b b
  | skip {b c : Builder} {user : NodeId} {users : List NodeId}
      (huser : ¬ ((b.graph.kind user).isPhi = true ∧ b.Stands user))
      (hrest : Revisits users b c) : Revisits (user :: users) b c
  | visit {b c d : Builder} {user last : NodeId} {users : List NodeId}
      (hphi : (b.graph.kind user).isPhi = true) (hstands : b.Stands user)
      (hfirst : Simplifies b user last c) (hrest : Revisits users c d) :
      Revisits (user :: users) b d

end

mutual

/-- **Reading a slot at the end of a block.** -/
inductive Reads (slot : Slot) : Builder → NodeId → NodeId → Builder → Prop
  | found {b : Builder} {block node last : NodeId} (hdef : b.definition? slot block = some node)
      (hlast : b.Resolves node last) : Reads slot b block last b
  | passes {b c : Builder} {block jump value : NodeId} (hdef : b.definition? slot block = none)
      (hsealed : b.isSealed block = true) (hops : b.graph.operands block = [jump])
      (hread : Reads slot b (b.graph.blockOf jump) value c) :
      Reads slot b block value (c.write slot block value)
  | merges {b c d : Builder} {block value : NodeId} (hdef : b.definition? slot block = none)
      (hsealed : b.isSealed block = true) (hops : ∀ jump, b.graph.operands block ≠ [jump])
      (hfill : ReadsAll slot b.graph.size block (List.range (b.graph.operands block).length)
        (b.openMerge slot block) c)
      (hsimplify : Simplifies c b.graph.size value d) :
      Reads slot b block value (d.write slot block value)
  | waits {b : Builder} {block : NodeId} (hdef : b.definition? slot block = none)
      (hsealed : b.isSealed block = false) :
      Reads slot b block b.graph.size (b.await slot block)

/-- **Reading the operands of a merge** at the ends of the predecessors. -/
inductive ReadsAll (slot : Slot) : NodeId → NodeId → List Nat → Builder → Builder → Prop
  | nil {b : Builder} {phi block : NodeId} : ReadsAll slot phi block [] b b
  | cons {b c d : Builder} {phi block pred value : NodeId} {index : Nat} {rest : List Nat}
      (hpred : b.graph.predecessor? block index = some pred) (hread : Reads slot b pred value c)
      (hrest : ReadsAll slot phi block rest (c.withGraph (c.graph.pushOperand phi value)) d) :
      ReadsAll slot phi block (index :: rest) b d

end

/-- **In a circle of blocks with one predecessor each, a read goes on forever.** -/
theorem not_reads_of_circle {circle : NodeId → Prop}
    (hc : ∀ n, circle n → ∃ pred, circle pred ∧ b.Passes slot n pred)
    (hb : circle block) : ¬ Reads slot b block value c := by
  intro h
  refine @Reads.rec slot (fun d n _ _ _ => d = b → circle n → False)
    (fun _ _ _ _ _ _ => True) ?_ ?_ ?_ ?_ trivial (fun _ _ _ _ _ => trivial) _ _ _ _ h rfl hb
  · rintro _ n _ _ hd - rfl hn
    obtain ⟨_, -, hp⟩ := hc n hn
    cases hd.symm.trans hp.undefined
  · rintro _ _ n _ _ hd hs ho - ih rfl hn
    obtain ⟨pred, hpred, hp⟩ := hc n hn
    exact ih rfl (hp.unique ⟨hd, hs, _, ho, rfl⟩ ▸ hpred)
  · rintro _ _ _ n _ - - ho - - - rfl hn
    obtain ⟨_, -, hp⟩ := hc n hn
    obtain ⟨jump, hj, -⟩ := hp.only
    exact ho jump hj
  · rintro _ n - hs rfl hn
    obtain ⟨_, -, hp⟩ := hc n hn
    cases hs.symm.trans hp.isSealed

/-! ## Replacements -/

theorem resolves_resolve (h : Forwards b.forwarded) (n : NodeId) : b.Resolves n (b.resolve n) := by
  rw [resolve_eq_root h]
  have hl := h.lookup_root n
  have hr := h.reaches_root n
  generalize root b.forwarded n = last at hl hr
  induction hr using Relation.ReflTransGen.head_induction_on with
  | refl => exact .stop hl
  | head hs _ ih => exact .step hs ih

theorem Resolves.unique {n last last' : NodeId} (h : b.Resolves n last)
    (h' : b.Resolves n last') : last = last' := by
  induction h with
  | stop hn =>
    cases h' with
    | stop => rfl
    | step hs _ => cases hn.symm.trans hs
  | step hs _ ih =>
    cases h' with
    | stop hn => cases hn.symm.trans hs
    | step hs' hr' =>
      cases hs.symm.trans hs'
      exact ih hr'

/-! ## Trivial merges -/

/-- **There is one way to retire a merge.** -/
theorem Simplifies.unique {value' : NodeId} {c' : Builder} (h : Simplifies b phi value c)
    (h' : Simplifies b phi value' c') : value = value' ∧ c = c' := by
  refine @Simplifies.rec
    (fun b phi value c _ => ∀ {value' c'}, Simplifies b phi value' c' → value = value' ∧ c = c')
    (fun users b c _ => ∀ {c'}, Revisits users b c' → c = c')
    ?_ ?_ ?_ ?_ ?_ ?_ _ _ _ _ h _ _ h'
  · intro b phi hm value' c' h'
    cases h' with
    | keeps => exact ⟨rfl, rfl⟩
    | single hm' => simp [hm'] at hm
    | none hm' => simp [hm'] at hm
  · intro b c phi value last hm _ hl ih value' c' h'
    cases h' with
    | keeps hm' => simp [hm] at hm'
    | single hm' hu' hl' =>
      cases hm.symm.trans hm'
      obtain rfl := ih hu'
      exact ⟨hl.unique hl', rfl⟩
    | none hm' => cases hm.symm.trans hm'
  · intro b c phi last hm _ hl ih value' c' h'
    cases h' with
    | keeps hm' => simp [hm] at hm'
    | single hm' => cases hm.symm.trans hm'
    | none _ hu' hl' =>
      obtain rfl := ih hu'
      exact ⟨hl.unique hl', rfl⟩
  · intro b c' h'
    cases h'
    rfl
  · intro b c user users hu _ ih c' h'
    cases h' with
    | skip _ hr' => exact ih hr'
    | visit hp hs => exact absurd ⟨hp, hs⟩ hu
  · intro b c d user last users hp hs _ _ ihFirst ihRest c' h'
    cases h' with
    | skip hu => exact absurd ⟨hp, hs⟩ hu
    | visit _ _ hf' hr' =>
      obtain ⟨-, rfl⟩ := ihFirst hf'
      exact ihRest hr'

/-- **A bound beyond the merges that stand is not used up** when trivial merges are
removed, since one merge fewer stands after each replacement. -/
theorem simplifies_simplify (bound : Nat) (hr : Ready old first b)
    (hp : Retirable old first b phi) (hb : b.standing.length < bound) :
    Simplifies b phi (b.simplify bound phi).1 (b.simplify bound phi).2 := by
  refine (simplify_induction
    (P := fun bound b phi r => b.standing.length < bound → Simplifies b phi r.1 r.2)
    (Q := fun bound users b c => b.standing.length < bound → Revisits users b c)
    (fun _ _ hmany hb => .keeps (hmany (Nat.zero_lt_of_lt hb)))
    (fun {_ _ _ _ value _} hr hp hreplaces hc husers hb => ?_) (fun _ => .nil)
    (fun hu hrest hb => .skip hu (hrest hb))
    (fun hr hu hc hf hrest hb => ?_) bound hr hp).2 hb
  · have hfewer := hreplaces.length_standing_lt hr hp
    have hrevisits := husers (by omega)
    obtain ⟨hr', -⟩ := chain_spec hc (hreplaces.retire hr hp).1
    have hl := resolves_resolve hr'.wf.forwards value
    cases hreplaces with
    | single hm => exact .single hm hrevisits hl
    | none hm => exact .none hm hrevisits hl
  · exact .visit hu.isPhi hu.stands (hf hb)
      (hrest ((length_standing_le_of_chain hc hr).trans_lt hb))

/-- A merge that was filled is retired without a bound, too. -/
theorem Filling.simplifies (hf : Filling phi b) : Simplifies b phi
    (b.simplify (b.graph.size + 1) phi).1 (b.simplify (b.graph.size + 1) phi).2 :=
  simplifies_simplify _ (hf.ready (Nat.zero_le _) b.closed_zero) (hf.retirable (Nat.zero_le _))
    (Nat.lt_succ_of_le b.length_standing_le)

/-! ## Reads -/

theorem Fills.readsAll {indices : List Nat}
    (ih : ∀ {b c : Builder} {block value : NodeId}, b.WellFormed → (b.graph.kind block).isBlock
      → readWithin bound b slot block = .ok (value, c) →
      Reads slot b block value c) (h : Fills (readWithin bound) slot phi block indices b c)
    (hf : Filling phi b) :
    ReadsAll slot phi block indices b c ∧ Filling phi c := by
  induction h with
  | nil => exact ⟨.nil, hf⟩
  | cons hp hr _ ihRest =>
    have hwf := hf.wf
    have hb := isBlock_of_predecessor? hwf hp
    obtain ⟨hrest, hfilled⟩ := ihRest (hf.push (tidy_readWithin bound hwf hb hr))
    exact ⟨.cons hp (ih hwf hb hr) hrest, hfilled⟩

/-- **What a read with a bound answers, a read without one does.** -/
theorem reads_of_readWithin (hwf : b.WellFormed) (hb : (b.graph.kind block).isBlock)
    (h : readWithin bound b slot block = .ok (value, c)) : Reads slot b block value c := by
  induction bound generalizing b c block value with
  | zero => cases h
  | succ bound ih =>
    obtain ⟨_, hbound, hc⟩ := readWithin_eq_ok.1 h
    cases hbound
    cases hc with
    | found hd => exact .found hd (resolves_resolve hwf.forwards _)
    | passes hd hs ho hr =>
      have hp : b.Passes slot block _ := ⟨hd, hs, _, ho, rfl⟩
      exact .passes hd hs ho (ih hwf (hp.isBlock hwf) hr)
    | @merges value c hd hs ho hr =>
      obtain ⟨d, hfills, hsimplify⟩ := complete_eq_ok.1 hr
      obtain ⟨ha, hf⟩ := hfills.readsAll ih (hwf.filling_openMerge hb hd)
      rw [blockOf_openMerge, if_pos rfl, operands_openMerge] at ha
      have hsimplifies := hf.simplifies
      rw [hsimplify] at hsimplifies
      exact .merges hd hs ho ha hsimplifies
    | waits hd hs => exact .waits hd hs

/-- A read without a bound comes through a corridor; so does one with a bound, if it has
the same answer at the end. -/
theorem Reads.exists_corridor (h : Reads slot b block value c) :
    ∃ passed last d, Corridor b slot block passed last ∧ b.Stops slot last ∧
      Reads slot b last value d ∧ ∀ bound, readWithin bound b slot last = .ok (value, d) →
        readWithin (bound + passed.length) b slot block = .ok (value, c) := by
  refine @Reads.rec slot (fun b block value c _ => ∃ passed last d,
      Corridor b slot block passed last ∧ b.Stops slot last ∧ Reads slot b last value d ∧
        ∀ bound, readWithin bound b slot last = .ok (value, d) →
          readWithin (bound + passed.length) b slot block = .ok (value, c))
    (fun _ _ _ _ _ _ => True) ?_ ?_ ?_ ?_ trivial (fun _ _ _ _ _ => trivial) _ _ _ _ h
  · intro b block node last hd hl
    exact ⟨[], block, b, .here _, fun _ hp => absurd (hd.symm.trans hp.undefined) nofun,
      .found hd hl, fun _ => id⟩
  · rintro b c block jump value hd hs ho - ⟨passed, last, d, hc, hstops, hl, hb⟩
    exact ⟨block :: passed, last, d, .step ⟨hd, hs, jump, ho, rfl⟩ hc, hstops, hl,
      fun bound hr => readWithin_eq_ok.2 ⟨_, rfl, .passes hd hs ho (hb bound hr)⟩⟩
  · rintro b c d block value hd hs ho hf hsimplify -
    exact ⟨[], block, _, .here _, Forks.stops ⟨hd, hs, ho⟩,
      .merges hd hs ho hf hsimplify, fun _ => id⟩
  · intro b block hd hs
    exact ⟨[], block, _, .here _, fun _ hp => absurd (hs.symm.trans hp.isSealed) nofun,
      .waits hd hs, fun _ => id⟩

theorem ReadsAll.fills {d : Builder} {indices : List Nat}
    (ih : ∀ {d e : Builder} {pred value : NodeId}, d.WellFormed → Evolves 0 b d →
      (d.graph.kind pred).isBlock → Reads slot d pred value e →
      readWithin bound d slot pred = .ok (value, e))
    (h : ReadsAll slot phi block indices c d) (hev : Evolves 0 b c) (hf : Filling phi c) :
    Fills (readWithin bound) slot phi block indices c d ∧ Filling phi d := by
  induction indices generalizing c with
  | nil =>
    cases h
    exact ⟨.nil, hf⟩
  | cons index rest ihRest =>
    cases h with
    | cons hp hr hrest =>
      have hwf := hf.wf
      have hb := isBlock_of_predecessor? hwf hp
      have hr := ih hwf hev hb hr
      have hresult := tidy_readWithin bound hwf hb hr
      obtain ⟨hfills, hfilled⟩ := ihRest hrest (hev.trans (hf.evolves hresult))
        (hf.push hresult)
      exact ⟨.cons hp hr hfills, hfilled⟩

/-- **What a read without a bound does, a read with a sufficient bound answers.** -/
theorem Reads.readWithin_eq {most : Nat} (hwf : b.WellFormed) (hb : (b.graph.kind block).isBlock)
    (h : Reads slot b block value c) (hblocks : ∀ n, (b.graph.kind n).isBlock → n < most)
    (hbound : (b.leading slot).card + most < bound) :
    readWithin bound b slot block = .ok (value, c) := by
  -- The induction is on the number of blocks that lead to a fork.
  induction hcard : (b.leading slot).card using Nat.strongRecOn
    generalizing b c block value bound with
  | ind card ih =>
    obtain ⟨passed, last, d, hc, hstops, hlast, ht⟩ := h.exists_corridor
    have hlength := hc.length_lt hstops hwf hb hblocks
    obtain ⟨rest, rfl⟩ : ∃ rest, bound = rest + 1 + passed.length :=
      ⟨bound - (passed.length + 1), by omega⟩
    refine ht _ (readWithin_eq_ok.2 ⟨rest, rfl, ?_⟩)
    cases hlast with
    | found hd hr =>
      rw [hr.unique (resolves_resolve hwf.forwards _)]
      exact .found hd
    | passes hd hs ho _ => exact absurd ⟨hd, hs, _, ho, rfl⟩ (hstops _)
    | waits hd hs => exact .waits hd hs
    | @merges _ d e _ _ hd hs ho hfill hsimplify =>
      have hl := hc.isBlock hwf hb last (.head _)
      have hread : ∀ {d e : Builder} {pred value : NodeId}, d.WellFormed →
          Evolves 0 (b.openMerge slot last) d → (d.graph.kind pred).isBlock →
          Reads slot d pred value e → readWithin rest d slot pred = .ok (value, e) :=
        fun hwfD hevD hp hreads => by
          obtain ⟨hev, hfewer⟩ :=
            hc.card_leading_openMerge hwf hb ⟨hd, hs, ho⟩ hevD
          exact ih _ (by omega) hwfD hp hreads (fun n hn => hblocks n (hev.isBlock_eq n ▸ hn))
            (by omega) rfl
      obtain ⟨hfills, hf⟩ :=
        hfill.fills hread (.refl 0 _) (hwf.filling_openMerge hl hd)
      obtain ⟨hv, hbuilder⟩ := hsimplify.unique hf.simplifies
      refine .merges hd hs ho (complete_eq_ok.2 ⟨d, ?_, Prod.ext hv.symm hbuilder.symm⟩)
      rwa [blockOf_openMerge, if_pos rfl, operands_openMerge]

/-- **The bound of a read decides nothing**: a read answers what the recursion without a
bound comes to, and nothing where that goes on forever. -/
theorem read_eq_ok_iff (hwf : b.WellFormed) (hb : (b.graph.kind block).isBlock) :
    b.read slot block = .ok (value, c) ↔ Reads slot b block value c := by
  refine ⟨reads_of_readWithin hwf hb, fun h => ?_⟩
  have hcard := b.card_leading_le slot
  exact h.readWithin_eq hwf hb (fun n hn => lt_of_isBlock hn)
    (show (b.leading slot).card + b.graph.size < 2 * b.graph.size + 2 by omega)

/-- **A read goes on from a block to a predecessor**: the block is sealed and does not
define the slot. -/
structure Visits (b : Builder) (slot : Slot) (block pred : NodeId) : Prop where
  undefined : b.definition? slot block = none
  isSealed : b.isSealed block = true
  mem_preds : pred ∈ b.graph.preds block

/-- **The blocks that a read meets.** -/
def Meets (b : Builder) (slot : Slot) : NodeId → NodeId → Prop :=
  Relation.ReflTransGen (b.Visits slot)

theorem Meets.isBlock {n : NodeId} (h : b.Meets slot block n) (hwf : b.WellFormed)
    (hb : (b.graph.kind block).isBlock) : (b.graph.kind n).isBlock := by
  induction h with
  | refl => exact hb
  | tail _ hv _ =>
    obtain ⟨jump, hj, rfl⟩ := mem_map.1 hv.mem_preds
    exact hwf.home jump (hwf.coherent.closed _ jump hj)

/-- **The start block has no predecessors** if sealed blocks get none: it is sealed from
the beginning. -/
theorem Run.entry {name : String} {sharing : Bool} (h : Run true (init name sharing) b) :
    b.isSealed Graph.startBlock ∧ b.graph.operands Graph.startBlock = [] := by
  induction h with
  | refl => exact ⟨rfl, rfl⟩
  | @ask c d r n hr hv ha ih =>
    have hc := controls_answer hr.ongoing hv ha
    have he := (hr.ask hv ha).ongoing.wf.entry
    refine ⟨(hc.isSealed _).2 (.inl ih.1), ?_⟩
    have hnot : Graph.startBlock ∉ r.targets := fun hmem =>
      absurd (ih.1.symm.trans (hv.targets rfl _ hmem)) nofun
    have hp := hc.preds _ he
    unfold Graph.preds at hp
    rw [count_eq_zero.2 hnot, ih.2] at hp
    exact map_eq_nil_iff.1 hp

/-- **Variable lookup terminates.** Whatever was asked of a builder, as long as no sealed
block got a predecessor, a read of a variable or of the effect comes to a result at
every block from which it meets only sealed blocks that can be reached from the start
block; and the result is that of the recursion without any bound, which has the removal
of trivial merges and the walk along replacements inside. -/
theorem Run.reads_end {name : String} {sharing : Bool} (h : Run true (init name sharing) b)
    (slot : Slot) (hblock : (b.graph.kind block).isBlock = true)
    (hmet : ∀ n, b.Meets slot block n → b.isSealed n = true → b.graph.Reaches n) :
    ∃ value c, Reads slot b block value c ∧ b.read slot block = .ok (value, c) := by
  have hwf := h.ongoing.wf
  have hroads : Roads slot (b.Meets slot block) b :=
    ⟨hwf, h.entry.2, hmet, fun n hn hsealed hdef jump hjump =>
      hn.tail ⟨hdef, hsealed, List.mem_map_of_mem hjump⟩⟩
  obtain ⟨⟨value, c⟩, hread⟩ := hroads.exists_read (fun n hn => hn.isBlock hwf hblock) .refl
  exact ⟨value, c, reads_of_readWithin hwf hblock hread, hread⟩

/-- A loop inside a loop: the inner one, block 6, is left only for the head of the outer
one, block 4. -/
def nestedLoops : List Request :=
  [.newBlock "outer", .jump 4, .enter 4, .newBlock "inner", .jump 6, .enter 6, .constBool true,
    .condJump 8 6 4, .seals 6, .seals 4]

/-- Around both loops, a read of a variable that is never written opens three merges,
retires them all and comes to the undefined value, node 13. -/
theorem read_around_nestedLoops_ends : ∃ b, Run true (init "f" true) b ∧
    b.graph.preds 6 = [4, 6] ∧ b.graph.preds 4 = [0, 6] ∧
    ∃ value c, Reads (.var "x") b 6 value c ∧ b.read (.var "x") 6 = .ok (value, c) ∧
      value = 13 ∧ c.forwarded = [(11, 13), (10, 11), (12, 13)] := by
  have hfacts : (nestedLoops.foldlM (ask? true) (init "f" true)).any fun b =>
      b.graph.preds 6 = [4, 6] ∧ b.graph.preds 4 = [0, 6] ∧ b.graph.preds 0 = [] ∧
        (b.graph.kind 6).isBlock = true ∧
        (b.read (.var "x") 6).toOption.map (fun r => (r.1, r.2.forwarded)) =
          some (13, [(11, 13), (10, 11), (12, 13)]) := by
    decide +kernel
  obtain ⟨b, hb, hfacts⟩ := (Option.any_eq_true _ _).1 hfacts
  obtain ⟨hinner, houter, hstart, hblock, hresult⟩ := of_decide_eq_true hfacts
  have hrun : Run true (init "f" true) b := Run.refl.of_foldlM hb
  -- The read meets the two loops and the start block, and a path leads to each.
  have hmet : ∀ n, b.Meets (.var "x") 6 n → n = 6 ∨ n = 4 ∨ n = 0 := fun n hn => by
    induction hn with
    | refl => exact .inl rfl
    | tail _ hvisits ih =>
      have hmem := hvisits.mem_preds
      rcases ih with rfl | rfl | rfl
      · simp only [hinner, List.mem_cons, List.not_mem_nil] at hmem
        tauto
      · simp only [houter, List.mem_cons, List.not_mem_nil] at hmem
        tauto
      · simp [hstart] at hmem
  have hpath : IsPath b.graph.preds [(4, 0)] := .cons .nil (by rw [houter]; rfl)
  obtain ⟨value, c, hreads, hread⟩ := Run.reads_end hrun (.var "x") hblock fun n hn _ => by
    rcases hmet n hn with rfl | rfl | rfl
    · exact ⟨[(6, 0), (4, 0)], .cons hpath (by rw [hinner]; rfl), rfl⟩
    · exact ⟨[(4, 0)], hpath, rfl⟩
    · exact ⟨[], .nil, rfl⟩
  rw [hread] at hresult
  obtain ⟨hvalue, hforwarded⟩ := Prod.mk.inj (Option.some.inj hresult)
  exact ⟨b, hrun, hinner, houter, value, c, hreads, hread, hvalue, hforwarded⟩

end SsaCompiler.Builder
