import SsaCompiler.Proofs.Graph.Evaluation

/-!
# Lowering keeps the words along paths

What takes the place of a conditional value is right only for choices that make
**sense**: the condition is a truth value, and the arms are truth values too,
unless neither of them is known to be one (`Graph.Sensible`). Along a path where
all choices make sense, every node that is in use has the same word before and
after a conditional value is replaced (`Graph.Gives.replace`), and so lowering
keeps all words along such paths (`Draft.Strict.exists_conveys`).

*Types are not recorded in the graph.* A conditional value both of whose arms were
never set may serve as an integer in one place and as a truth value in another.
So what makes sense is asked for along the path, not of the nodes once and for
all.
-/

namespace SsaCompiler

open List
open Graph (startBlock endBlock)

variable {words : List Word} {x y z : Word} {cond ifTrue ifFalse : NodeId}

namespace Graph

/-- **A node that is not known to be a truth value**, and will not turn out to be one
when conditional values are replaced. -/
inductive NoTruth (g : Graph) : NodeId → Prop
  | other {n : NodeId} (hconst : ∀ b, g.kind n ≠ .constBool b) (hcond : g.kind n ≠ .condValue) :
      NoTruth g n
  | choice {n cond ifTrue ifFalse : NodeId} (hkind : g.kind n = .condValue)
      (hops : g.operands n = [cond, ifTrue, ifFalse]) (htrue : NoTruth g ifTrue)
      (hfalse : NoTruth g ifFalse) : NoTruth g n

/-- **A choice makes sense.** -/
structure SensibleChoice (g : Graph) (ifTrue ifFalse : NodeId) (x y z : Word) : Prop where
  cond : x = 0 ∨ x = 1
  arms : (y = 0 ∨ y = 1) ∧ (z = 0 ∨ z = 1) ∨ g.NoTruth ifTrue ∧ g.NoTruth ifFalse

/-- **The words of a node make sense**, if it is a choice. -/
def Sensible (g : Graph) (n : NodeId) (words : List Word) : Prop :=
  g.kind n = .condValue → ∀ cond ifTrue ifFalse x y z, g.operands n = [cond, ifTrue, ifFalse] →
    words = [x, y, z] → g.SensibleChoice ifTrue ifFalse x y z

/-- **A node spells a formula** over the nodes at hand at first: it is one of them, a
constant, or an operation on nodes that spell formulas. -/
inductive Spells (g : Graph) (block : NodeId) (start : List (NodeId × Formula)) :
    NodeId → Formula → Prop
  | start {n : NodeId} {f : Formula} (h : (n, f) ∈ start) : Spells g block start n f
  | load {n : NodeId} {w : Word} (hn : n < g.size) (hkind : (g.kind n).constant? = some w)
      (hblock : g.blockOf n = startBlock) : Spells g block start n fun _ _ _ => w
  | apply {n a b : NodeId} {op : BinOp} {fa fb : Formula} (hn : n < g.size)
      (hkind : g.kind n = .binary op) (hop : op.hasEffect = false) (hblock : g.blockOf n = block)
      (hops : g.operands n = [a, b]) (ha : Spells g block start a fa)
      (hb : Spells g block start b fb) :
      Spells g block start n fun x y z => op.value (fa x y z) (fb x y z)

variable {g g' flow : Graph} {block n v a : NodeId} {start : List (NodeId × Formula)} {f : Formula}
  {dead : NodeId → Prop} {path : Path} {w : Word}

theorem Spells.mono (h : g.Spells block start n f) (hsize : g.size ≤ g'.size)
    (hs : ∀ n < g.size, g'.kind n = g.kind n ∧ g'.blockOf n = g.blockOf n ∧
      g'.operands n = g.operands n) : g'.Spells block start n f := by
  induction h with
  | start h => exact .start h
  | load hn hkind hblock =>
    obtain ⟨hk, hb, -⟩ := hs _ hn
    exact .load (hn.trans_le hsize) (hk ▸ hkind) (hb ▸ hblock)
  | apply hn hkind hop hblock hops _ _ iha ihb =>
    obtain ⟨hk, hb, ho⟩ := hs _ hn
    exact .apply (hn.trans_le hsize) (hk ▸ hkind) hop (hb ▸ hblock) (ho ▸ hops) iha ihb

theorem NoTruth.mono (h : g.NoTruth n) (hn : n < g.size)
    (hc : ∀ n a, a ∈ g.operands n → a < g.size)
    (hs : ∀ n < g.size, g'.kind n = g.kind n ∧ g'.operands n = g.operands n) : g'.NoTruth n := by
  induction h with
  | other hconst hcond =>
    obtain ⟨hkind, -⟩ := hs _ hn
    exact .other (hkind ▸ hconst) (hkind ▸ hcond)
  | choice hk ho _ _ iht ihf =>
    obtain ⟨hkind, hops'⟩ := hs _ hn
    exact .choice (hkind ▸ hk) (hops' ▸ ho) (iht (hc _ _ (by rw [ho]; simp)))
      (ihf (hc _ _ (by rw [ho]; simp)))

theorem Sensible.mono (h : g.Sensible n words) (hn : n < g.size)
    (hc : ∀ n a, a ∈ g.operands n → a < g.size)
    (hs : ∀ n < g.size, g'.kind n = g.kind n ∧ g'.operands n = g.operands n) :
    g'.Sensible n words := by
  obtain ⟨hkind, hops'⟩ := hs n hn
  intro hk cond ifTrue ifFalse x y z ho hw
  rw [hkind] at hk
  rw [hops'] at ho
  obtain ⟨hcond, ha⟩ := h hk cond ifTrue ifFalse x y z ho hw
  exact ⟨hcond, ha.imp_right fun ⟨ht, hf⟩ =>
    ⟨ht.mono (hc n _ (by rw [ho]; simp)) hc hs,
      hf.mono (hc n _ (by rw [ho]; simp)) hc hs⟩⟩

theorem Spells.ne (h : g.Spells block start a f) (hkind : g.kind n = .condValue)
    (hs : ∀ p ∈ start, p.1 ≠ n) : a ≠ n := by
  rintro rfl
  cases h with
  | start h => exact hs _ h rfl
  | load _ hk | apply _ hk =>
    rw [hkind] at hk
    cases hk

theorem Spells.replace (h : g.Spells block start a f) (hr : g.Replaces g' n v)
    (hkind : g.kind n = .condValue) (hs : ∀ p ∈ start, p.1 ≠ n) : g'.Spells block start a f := by
  induction h with
  | start h => exact .start h
  | load hn hk hblock =>
    exact .load (hr.same.size ▸ hn) (hr.same.kind _ ▸ hk) (hr.same.blockOf _ ▸ hblock)
  | @apply m a b op fa fb hn hk hop hblock ho ha hb iha ihb =>
    refine .apply (hr.same.size ▸ hn) (hr.same.kind _ ▸ hk) hop (hr.same.blockOf _ ▸ hblock) ?_ iha ihb
    have hne : m ≠ n := (Spells.apply hn hk hop hblock ho ha hb).ne hkind hs
    rw [hr.operands, if_neg hne, ho]
    simp only [map_cons, map_nil, if_neg (ha.ne hkind hs), if_neg (hb.ne hkind hs)]

theorem sensible_of_ne (h : g.kind n ≠ .condValue) : g.Sensible n words := fun hk => absurd hk h

/-- **A formula has its word** where its parts have theirs. -/
theorem Spells.gives (h : g.Spells block start n f) (hp : IsPath flow.preds path)
    (he : flow.preds startBlock = []) (hl : Path.last path = block)
    (hs : ∀ p ∈ start, g.Gives g.Sensible path p.1 (p.2 x y z)) :
    g.Gives g.Sensible path n (f x y z) := by
  induction h with
  | start h => exact hs _ h
  | load hn hk hblock =>
    refine gives_of_constant? hp he hblock hk (sensible_of_ne fun hc => ?_)
    rw [hc] at hk
    cases hk
  | @apply n a b op fa fb hn hk hop hblock hops ha hb iha ihb =>
    have hargs : g.arguments n = [a, b] := by
      rw [arguments, hk, hops]
      rfl
    refine gives_of_forall₂ [fa x y z, fb x y z] (hblock.trans hl.symm) ?_
      (sensible_of_ne (by rw [hk]; rintro ⟨⟩)) ?_
    · rw [hargs]
      exact .cons iha (.cons ihb .nil)
    obtain ⟨w, hw⟩ := Option.isSome_iff_exists.1 (BinOp.eval_isSome hop (fa x y z) (fb x y z))
    rw [hk]
    exact hw.trans (congrArg some (congrArg (·.getD 0) hw).symm)

/-- **A node takes the place of a choice**: it spells a formula that means the choice
wherever the choice makes sense. -/
structure Chooses (g flow : Graph) (dead : NodeId → Prop) (n v : NodeId) : Prop
    extends g.MayReplace flow dead n v where
  parts : ∃ cond ifTrue ifFalse f, g.operands n = [cond, ifTrue, ifFalse] ∧
    (∀ a ∈ [cond, ifTrue, ifFalse], a ≠ n) ∧
    g.Spells (g.blockOf n) (Draft.choiceArgs cond ifTrue ifFalse) v f ∧
    ∀ x y z : Word, (x = 0 ∨ x = 1) → (∀ b, g.kind cond = .constBool b → x = .ofBool b) →
      (∀ b, g.kind ifTrue = .constBool b → y = .ofBool b) →
      (∀ b, g.kind ifFalse = .constBool b → z = .ofBool b) → (ifTrue = ifFalse → y = z) →
      ((∃ b, g.kind ifTrue = .constBool b) ∨ (∃ b, g.kind ifFalse = .constBool b) →
        (y = 0 ∨ y = 1) ∧ (z = 0 ∨ z = 1)) → f x y z = if x ≠ 0 then y else z

theorem ne_constBool_of_noTruth (h : g.NoTruth n) (b : Bool) : g.kind n ≠ .constBool b := by
  cases h with
  | other hc => exact hc b
  | choice hk =>
    rw [hk]
    exact nofun

theorem Chooses.ne_of_mem (h : g.Chooses flow dead n v)
    (hops : g.operands n = [cond, ifTrue, ifFalse]) : ∀ a ∈ [cond, ifTrue, ifFalse], a ≠ n := by
  obtain ⟨_, _, _, _, hops', hparts, -⟩ := h.parts
  rwa [← hops, hops']

/-- **What takes the place of a choice between integers is no truth value.** -/
theorem Chooses.noTruth (h : g.Chooses flow dead n v) (hr : g.Replaces g' n v)
    (hops : g.operands n = [cond, ifTrue, ifFalse]) (ht : g.NoTruth ifTrue)
    (hfalse : g.NoTruth ifFalse) (ht' : g'.NoTruth ifTrue) (hfalse' : g'.NoTruth ifFalse) :
    g'.NoTruth v := by
  obtain ⟨cond', ifTrue', ifFalse', f, hops', -, hs, hf⟩ := h.parts
  obtain ⟨rfl, rfl, rfl⟩ : cond' = cond ∧ ifTrue' = ifTrue ∧ ifFalse' = ifFalse := by
    simpa using hops'.symm.trans hops
  -- A choice between equal words gives back the word, so it is neither a constant nor the condition.
  obtain ⟨x, hx⟩ : ∃ x, ∀ w, f x w w = w := by
    have hd : ∀ x, (x = 0 ∨ x = 1) → (∀ b, g.kind cond' = .constBool b → x = .ofBool b) →
        ∀ w, f x w w = w := fun x hx hc w => by
      refine (hf x w w hx hc (fun b hb => absurd hb (ne_constBool_of_noTruth ht b))
        (fun b hb => absurd hb (ne_constBool_of_noTruth hfalse b)) (fun _ => rfl) ?_).trans
          (ite_self w)
      rintro (⟨b, hb⟩ | ⟨b, hb⟩)
      · exact absurd hb (ne_constBool_of_noTruth ht b)
      · exact absurd hb (ne_constBool_of_noTruth hfalse b)
    by_cases hc : ∃ b, g.kind cond' = .constBool b
    · obtain ⟨b, hb⟩ := hc
      refine ⟨.ofBool b, hd _ (Word.ofBool_eq b) fun b' hb' => ?_⟩
      rw [Kind.constBool.inj (hb.symm.trans hb')]
    · exact ⟨0, hd 0 (.inl rfl) fun b hb => absurd ⟨b, hb⟩ hc⟩
  cases hs with
  | start hm =>
    simp only [Draft.choiceArgs, mem_cons, not_mem_nil, or_false] at hm
    rcases hm with ⟨-, rfl⟩ | ⟨rfl, -⟩ | ⟨rfl, -⟩
    · exact absurd ((hx 0).symm.trans (hx 1)) (by decide)
    · exact ht'
    · exact hfalse'
  | load => exact absurd ((hx 0).symm.trans (hx 1)) (by decide)
  | apply _ hk =>
    have hk' : g'.kind v = _ := (hr.same.kind v).trans hk
    refine .other (fun b => ?_) ?_ <;> rw [hk'] <;> rintro ⟨⟩

theorem NoTruth.replace (h : g.NoTruth a) (hr : g.Replaces g' n v)
    (hu : a = n → ∃ m, n ∈ g.operands m)
    (hchooses : (∃ m, n ∈ g.operands m) → g.Chooses flow dead n v) (hkind : g.kind n = .condValue) :
    g'.NoTruth (if a = n then v else a) := by
  induction h with
  | @other a hconst hcond =>
    have hne : a ≠ n := fun he => hcond (he ▸ hkind)
    rw [if_neg hne]
    exact .other (fun b => hr.same.kind a ▸ hconst b) (hr.same.kind a ▸ hcond)
  | @choice a cond ifTrue ifFalse hk ho ht hf ihtrue ihfalse =>
    have hmem : ∀ m ∈ [cond, ifTrue, ifFalse], m = n → ∃ m, n ∈ g.operands m := fun m hm he =>
      ⟨a, by rw [ho]; exact he ▸ hm⟩
    have ht' := ihtrue (hmem ifTrue (by simp))
    have hf' := ihfalse (hmem ifFalse (by simp))
    by_cases hne : a = n
    · rw [if_pos hne]
      subst hne
      have hc := hchooses (hu rfl)
      have hp := hc.ne_of_mem ho
      rw [if_neg (hp _ (by simp))] at ht' hf'
      exact hc.noTruth hr ho ht hf ht' hf'
    · rw [if_neg hne]
      refine .choice (hr.same.kind a ▸ hk) (?_ : _ = [if cond = n then v else cond, _, _])
        ht' hf'
      rw [hr.operands, if_neg hne, ho]
      rfl

/-- The arms of a choice make sense after the replacement if they did before. -/
theorem Sensible.replace (h : g.Sensible a words) (hr : g.Replaces g' n v) (hne : a ≠ n)
    (hc : (∃ m, n ∈ g.operands m) → g.Chooses flow dead n v) (hkind : g.kind n = .condValue) :
    g'.Sensible a words := by
  intro hk cond' ifTrue' ifFalse' x y z hops' hw
  rw [hr.operands, if_neg hne] at hops'
  match ho : g.operands a, hops' with
  | [cond, ifTrue, ifFalse], hops' =>
    obtain ⟨rfl, rfl, rfl⟩ := by simpa using hops'
    obtain ⟨hcond, ha⟩ := h (hr.same.kind a ▸ hk) cond ifTrue ifFalse x y z ho hw
    have hmem : ∀ m ∈ [cond, ifTrue, ifFalse], m = n → ∃ m, n ∈ g.operands m := fun m hm he =>
      ⟨a, by rw [ho]; exact he ▸ hm⟩
    exact ⟨hcond, ha.imp_right fun ⟨ht, hf⟩ =>
      ⟨ht.replace hr (hmem _ (by simp)) hc hkind,
        hf.replace hr (hmem _ (by simp)) hc hkind⟩⟩
  | [], hops' | [_], hops' | [_, _], hops' | _ :: _ :: _ :: _ :: _, hops' => simp at hops'

/-- **What takes the place of a choice has the word of the choice.** -/
theorem Chooses.gives (h : g.Chooses flow dead n v) (hr : g.Replaces g' n v)
    (hkind : g.kind n = .condValue) (hpath : IsPath flow.preds path)
    (he : flow.preds startBlock = []) (hblock : g.blockOf n = Path.last path)
    (hops : g.operands n = [cond, ifTrue, ifFalse])
    (hs : g.SensibleChoice ifTrue ifFalse x y z) (hcond : g'.Gives g'.Sensible path cond x)
    (ht : g'.Gives g'.Sensible path ifTrue y) (hfalse : g'.Gives g'.Sensible path ifFalse z) :
    g'.Gives g'.Sensible path v (if x ≠ 0 then y else z) := by
  obtain ⟨cond', ifTrue', ifFalse', f, hops', hparts, hspells, hf⟩ := h.parts
  obtain ⟨rfl, rfl, rfl⟩ : cond' = cond ∧ ifTrue' = ifTrue ∧ ifFalse' = ifFalse := by
    simpa using hops'.symm.trans hops
  -- A truth value that is known has its own word.
  have hc : ∀ {m w}, g'.Gives g'.Sensible path m w → ∀ b, g.kind m = .constBool b →
      w = .ofBool b := fun {m w} hm b hb =>
    hm.eq_of_constant? (by rw [hr.same.kind, hb]; rfl)
  rw [← hf x y z hs.cond]
  · refine (hspells.replace hr hkind fun p hp => hparts _ (Draft.mem_of_mem_choiceArgs hp)).gives
      hpath he hblock.symm fun p hp => ?_
    simp only [Draft.choiceArgs, mem_cons, not_mem_nil, or_false] at hp
    rcases hp with rfl | rfl | rfl
    · exact hcond
    · exact ht
    · exact hfalse
  · exact hc hcond
  · exact hc ht
  · exact hc hfalse
  · rintro rfl
    exact ht.unique hfalse
  · intro hk
    refine hs.arms.resolve_right fun ha => ?_
    obtain ⟨ht, hfalse⟩ := ha
    rcases hk with ⟨b, hb⟩ | ⟨b, hb⟩
    · exact ne_constBool_of_noTruth ht b hb
    · exact ne_constBool_of_noTruth hfalse b hb

/-- **Every node in use keeps its word** when a conditional value is replaced. -/
theorem Gives.replace (h : g.Gives g.Sensible path a w) (hs : g.Strict flow dead)
    (hr : g.Replaces g' n v) (hk : g.kind n = .condValue)
    (hchooses : (∃ m, n ∈ g.operands m) → g.Chooses flow dead n v)
    (hp : IsPath flow.preds path) (hentry : flow.preds startBlock = [])
    (hdom : Dominates flow.preds (g.blockOf a) (Path.last path))
    (hu : a = n → ∃ m, n ∈ g.operands m) :
    g'.Gives g'.Sensible path (if a = n then v else a) w := by
  induction h with
  | @pass edge path a w hne h ih =>
    have hedge := hp
    cases hp with
    | @cons _ block index hp hpred =>
      have hdom' := hdom.of_edge hne hpred
      refine .pass ?_ (ih hp hdom' hu)
      rw [hr.same.blockOf]
      split
      · -- What dominates the choice is not met again after it.
        rename_i he
        subst he
        intro hv
        exact not_isPath_of_dominates (hchooses (hu rfl)).dom (hv ▸ hdom) (fun heq =>
          hne (heq.symm.trans hv)) hedge hv.symm
      · exact hne
  | @merge edge path a b w hblock hphi hb h ih =>
    have hne : a ≠ n := fun he => by
      rw [he, hk] at hphi
      cases hphi
    cases hp with
    | @cons _ block index hp hpred =>
      have hm := mem_of_getElem? hb
      have hd := hs.merges a hphi index b hb _
        (show (flow.preds (g.blockOf a))[index]? = _ by rw [hblock]; exact hpred)
      rw [if_neg hne]
      refine .merge (hr.same.blockOf a ▸ hblock) (hr.same.kind a ▸ hphi) ?_
        (ih hp hd fun he => ⟨a, he ▸ hm⟩)
      rw [hr.operands, if_neg hne, getElem?_map, hb]
      rfl
  | @here path a V w hblock ha hg hw ih =>
    have hphi : (g.kind a).isPhi = false := Bool.eq_false_iff.2 fun hphi =>
      absurd ((Kind.result?_of_isPhi hphi _).symm.trans hw) nofun
    have hblockKind : (g.kind a).isBlock = false := Bool.eq_false_iff.2 fun hb =>
      absurd ((Kind.result?_of_isBlock hb _).symm.trans hw) nofun
    have hm : ∀ b ∈ g.arguments a, b ∈ g.operands a := fun b hb => mem_of_mem_take hb
    have ih : ∀ b ∈ g.arguments a, g'.Gives g'.Sensible path (if b = n then v else b) (V b) :=
      fun b hb => ih b hb hp (hblock ▸ hs.uses a hphi hblockKind b (hm b hb))
        fun he => ⟨a, he ▸ hm b hb⟩
    by_cases hne : a = n
    · rw [if_pos hne]
      subst hne
      have hc := hchooses (hu rfl)
      obtain ⟨cond, ifTrue, ifFalse, -, ho, hparts, -⟩ := hc.parts
      have ha : g.arguments a = [cond, ifTrue, ifFalse] := by
        rw [arguments, hk, ho]
        rfl
      have ih : ∀ b ∈ [cond, ifTrue, ifFalse], g'.Gives g'.Sensible path b (V b) := fun b hb => by
        have := ih b (ha ▸ hb)
        rwa [if_neg (hparts b hb)] at this
      rw [ha] at hw hg
      rw [hk] at hw
      rw [← Option.some.inj hw]
      exact hc.gives hr hk hp hentry hblock ho (hg hk _ _ _ _ _ _ ho rfl)
        (ih _ (by simp)) (ih _ (by simp)) (ih _ (by simp))
    · rw [if_neg hne]
      have ha' : g'.arguments a = (g.arguments a).map fun b => if b = n then v else b := by
        rw [arguments, arguments, hr.same.kind, hr.operands, if_neg hne, map_take]
      refine gives_of_forall₂ ((g.arguments a).map V) (hr.same.blockOf a ▸ hblock) ?_
        (hg.replace hr hne hchooses hk) (hr.same.kind a ▸ hw)
      rw [ha', List.forall₂_map_left_iff, List.forall₂_map_right_iff]
      exact List.forall₂_same.2 ih

end Graph

namespace Draft

variable {d e : Draft} {g flow : Graph} {dead : NodeId → Prop} {block n value a : NodeId}
  {start known : List (NodeId × Formula)} {done : List NodeId} {ρ : NodeId → NodeId}

theorem Derives.spells (hd : Derives block start d known e) (h : d.Strict flow dead)
    (hn : n < d.graph.size) (hk : d.graph.kind n = .condValue) (hblock : d.graph.blockOf n = block)
    (hs : ∀ p ∈ start, p.1 < d.graph.size ∧ d.graph.MayReplace flow dead n p.1) :
    ∀ p ∈ known, e.graph.Spells block start p.1 p.2 := by
  induction hd with
  | start => exact fun p hp => .start hp
  | @load known e kind w hd hconst ih =>
    obtain ⟨he, -, -⟩ := Strict.derives hd h hn hk hblock hs
    obtain ⟨-, hmade⟩ := he.add_constant hconst
    have hadds := (e.add_spec kind startBlock []).1
    rintro p (_ | ⟨_, hp⟩)
    · exact .load hmade.lt ((congrArg Kind.constant? hmade.kind_eq).trans hconst) hmade.blockOf_eq
    · exact (ih p hp).mono (hadds.size ▸ Nat.le_succ _) fun m hm =>
        hadds.old hm.ne
  | @apply known e op a b fa fb hd hop ha hb ih =>
    obtain ⟨he, ⟨-, -, hb'⟩, hargs⟩ := Strict.derives hd h hn hk hblock hs
    obtain ⟨-, hmade⟩ := he.add_binary hop hb' (hargs _ ha) (hargs _ hb)
    have hadds := (e.add_spec (.binary op) block [a, b]).1
    have ho : ∀ p ∈ known, (e.add (.binary op) block [a, b]).2.graph.Spells block start p.1 p.2 :=
      fun p hp => (ih p hp).mono (hadds.size ▸ Nat.le_succ _) fun m hm =>
        hadds.old hm.ne
    rintro p (_ | ⟨_, hp⟩)
    · by_cases hc : op.isCommutative = true
      · rcases perm_pair.1 hmade.perm with hops | hops
        · exact .apply hmade.lt hmade.kind_eq hop hmade.blockOf_eq hops (ho _ ha) (ho _ hb)
        · -- The operands of an equal node may stand in the other order.
          have hswap := Graph.Spells.apply hmade.lt hmade.kind_eq hop hmade.blockOf_eq hops
            (ho _ hb) (ho _ ha)
          have hc : (fun x y z => op.value (fb x y z) (fa x y z)) =
              fun x y z => op.value (fa x y z) (fb x y z) := by
            funext x y z
            rw [BinOp.value, BinOp.value, BinOp.eval_comm hc]
          exact hc ▸ hswap
      · exact .apply hmade.lt hmade.kind_eq hop hmade.blockOf_eq
          (hmade.operands_eq (Bool.eq_false_iff.2 hc)) (ho _ ha) (ho _ hb)
    · exact ho p hp

theorem Derives.blockOf_old (hd : Derives block start d known e) (hn : n < d.graph.size) :
    e.graph.blockOf n = d.graph.blockOf n := by
  induction hd with
  | start => rfl
  | @load _ e kind _ hd _ ih =>
    exact ((e.add_spec kind startBlock []).1.blockOf_of_lt (hd.old hn).1).trans ih
  | @apply _ e op a b _ _ hd _ _ _ ih =>
    exact ((e.add_spec (.binary op) block [a, b]).1.blockOf_of_lt (hd.old hn).1).trans ih

/-- **What was chosen takes the place of a choice.** -/
theorem Strict.chooses (h : d.Strict flow dead) (hn : n < d.graph.size)
    (hk : d.graph.kind n = .condValue) (ho : d.graph.operands n = [cond, ifTrue, ifFalse])
    (hchosen : Chosen d (d.graph.blockOf n) cond ifTrue ifFalse (value, e)) :
    e.Strict flow dead ∧ e.graph.Chooses flow dead n value := by
  obtain ⟨known, f, hd, hm, hchoice⟩ := hchosen
  have hparts : ∀ a ∈ [cond, ifTrue, ifFalse], a < d.graph.size ∧ d.graph.MayReplace flow dead n a :=
    fun a ha => h.mayReplace_of_mem hk (ho ▸ ha)
  have hstart : ∀ p ∈ choiceArgs cond ifTrue ifFalse, p.1 < d.graph.size ∧
      d.graph.MayReplace flow dead n p.1 := fun p hp => hparts _ (mem_of_mem_choiceArgs hp)
  obtain ⟨he, -, hargs⟩ := Strict.derives hd h hn hk rfl hstart
  have hspells := hd.spells h hn hk rfl hstart _ hm
  have hkindOf : ∀ a ∈ [cond, ifTrue, ifFalse], e.graph.kind a = d.graph.kind a := fun a ha =>
    (hd.old (hparts a ha).1).2.1
  refine ⟨he, ⟨(hargs _ hm).2, cond, ifTrue, ifFalse, f, ?_, fun a ha => (hparts a ha).2.ne, ?_,
    fun x y z hx hcond ht hf heq hbool => ?_⟩⟩
  · rw [(hd.old hn).2.2, ho]
  · rw [hd.blockOf_old hn]
    exact hspells
  · have hc : ∀ a ∈ [cond, ifTrue, ifFalse], ∀ b, d.boolConst? a = some b →
        e.graph.kind a = .constBool b := fun a ha b hb =>
      (hkindOf a ha).trans (boolConst?_eq_some.1 hb)
    refine hchoice x y z hx (fun b hb => hcond b (hc _ (by simp) b hb))
      (fun b hb => ht b (hc _ (by simp) b hb))
      (fun b hb => hf b (hc _ (by simp) b hb)) heq fun hsome => hbool ?_
    refine hsome.imp (fun hs => ?_) fun hs => ?_
    · obtain ⟨b, hb⟩ := Option.isSome_iff_exists.1 hs
      exact ⟨b, hc _ (by simp) b hb⟩
    · obtain ⟨b, hb⟩ := Option.isSome_iff_exists.1 hs
      exact ⟨b, hc _ (by simp) b hb⟩

/-- A node is **in use**, or is no conditional value, as long as some are done. -/
def InUse (g : Graph) (done : List NodeId) (a : NodeId) : Prop :=
  g.kind a ≠ .condValue ∨ ∃ m ∉ done, a ∈ g.operands m

/-- **How far lowering has come**: what was the node `a` is `ρ a` now, and it has
the word it had along every path where choices make sense. -/
structure Conveys (g flow : Graph) (done : List NodeId) (d : Draft) (ρ : NodeId → NodeId) : Prop where
  fixed : ∀ a, g.kind a ≠ .condValue → ρ a = a
  lt : ∀ a < g.size, ρ a < d.graph.size
  operands : ∀ n, n ∉ done → n < g.size → d.graph.operands n = (g.operands n).map ρ
  dom : ∀ a < g.size, InUse g done a → Dominates flow.preds (d.graph.blockOf (ρ a)) (g.blockOf a)
  gives : ∀ path a w, a < g.size → InUse g done a → IsPath flow.preds path →
    Dominates flow.preds (g.blockOf a) (Path.last path) → g.Gives g.Sensible path a w →
    d.graph.Gives d.graph.Sensible path (ρ a) w

theorem conveys_refl (g flow : Graph) (hd : d.graph = g) : Conveys g flow [] d id where
  fixed := fun _ _ => rfl
  lt := fun _ ha => hd ▸ ha
  operands := fun n _ _ => by rw [hd, map_id]
  dom := fun _ _ _ => hd ▸ .refl _ _
  gives := fun _ _ _ _ _ _ _ h => hd ▸ h

theorem InUse.of_cons (h : InUse g (n :: done) a) : InUse g done a :=
  h.imp_right fun ⟨m, hm, ha⟩ => ⟨m, fun hmem => hm (.tail _ hmem), ha⟩

theorem Conveys.derives (h : Conveys g flow done d ρ) (hd : Derives block start d known e)
    (hc : d.graph.Coherent) (hsize : g.size ≤ d.graph.size) : Conveys g flow done e ρ where
  fixed := h.fixed
  lt := fun a ha => (hd.old (h.lt a ha)).1
  operands := fun n hn hlt =>
    (hd.old (hlt.trans_le hsize)).2.2.trans (h.operands n hn hlt)
  dom := fun a ha hu => by
    rw [hd.blockOf_old (h.lt a ha)]
    exact h.dom a ha hu
  gives := fun path a w ha hu hp hdom hw => by
    refine (h.gives path a w ha hu hp hdom hw).mono (h.lt a ha) hc.closed
      (fun n hn => ⟨(hd.old hn).2.1, hd.blockOf_old hn, (hd.old hn).2.2⟩) fun n hn words hs => ?_
    exact hs.mono hn hc.closed fun n hn => ⟨(hd.old hn).2.1, (hd.old hn).2.2⟩

/-- **A conditional value is replaced by a node that has its word.** -/
theorem Conveys.replace (h : Conveys g flow done d ρ) (hs : d.graph.Strict flow dead)
    (hr : d.graph.Replaces e.graph n value) (hk : g.kind n = .condValue)
    (hsame : d.graph.kind n = g.kind n) (hlt : value < d.graph.size)
    (hentry : flow.preds startBlock = [])
    (hc : (∃ m, n ∈ d.graph.operands m) → d.graph.Chooses flow dead n value) :
    Conveys g flow (n :: done) e fun a => if ρ a = n then value else ρ a := by
  -- What stands for a node in use is used.
  have hu : ∀ a, InUse g (n :: done) a → ρ a = n → ∃ m, n ∈ d.graph.operands m := fun a ha he => by
    rcases ha with hne | ⟨m, hm, ha⟩
    · exact absurd ((h.fixed a hne).symm.trans he ▸ hk) hne
    · refine ⟨m, ?_⟩
      rw [h.operands m (fun hmem => hm (.tail _ hmem)) (Graph.lt_of_mem_operands ha)]
      exact he ▸ mem_map_of_mem ha
  refine ⟨fun a ha => ?_, fun a ha => ?_, fun m hm hmlt => ?_, fun a ha huse => ?_,
    fun path a w ha huse hp hd hw => ?_⟩
  · have hne : ρ a ≠ n := fun he => ha (by rw [h.fixed a ha] at he; rw [he, hk])
    exact (if_neg hne).trans (h.fixed a ha)
  · rw [hr.same.size]
    split
    · exact hlt
    · exact h.lt a ha
  · have hne : m ≠ n := fun he => hm (he ▸ mem_cons_self)
    rw [hr.operands, if_neg hne, h.operands m (fun hmem => hm (.tail _ hmem)) hmlt, map_map]
    rfl
  · rw [hr.same.blockOf]
    have hd := h.dom a ha huse.of_cons
    split
    · rename_i he
      exact (hc (hu a huse he)).dom.trans (he ▸ hd)
    · exact hd
  · exact (h.gives path a w ha huse.of_cons hp hd hw).replace hs hr (hsame.trans hk)
      hc hp hentry ((h.dom a ha huse.of_cons).trans hd) (hu a huse)

/-- **What lowering does to a conditional value keeps the words along paths.** -/
theorem Conveys.lowers (h : Conveys g flow done d ρ) (hs : Lowers d n e)
    (hl : Lowering g flow dead done d) (hkind : g.kind n = .condValue)
    (hentry : flow.preds startBlock = []) : ∃ ρ, Conveys g flow (n :: done) e ρ := by
  have hn := lt_size_of_condValue hkind
  have hext := hl.grown
  have hlt := hn.trans_le hext.size_le
  have hk : d.graph.kind n = .condValue := (hext.kind n hn).trans hkind
  cases hs with
  | keep ho =>
    exact ⟨ρ, h.fixed, h.lt, fun m hm => h.operands m fun hmem => hm (.tail _ hmem),
      fun a ha huse => h.dom a ha huse.of_cons, fun path a w ha huse =>
        h.gives path a w ha huse.of_cons⟩
  | drop hu =>
    refine ⟨_, h.replace hl.strict.toStrict (d.replaces_drop n) hkind (hext.kind n hn) hlt
      hentry fun ⟨m, hm⟩ => ?_⟩
    have hm := hl.strict.coherent.mem_users.2 hm
    rw [hu] at hm
    cases hm
  | @choose cond ifTrue ifFalse value e event ho hchosen =>
    obtain ⟨he, hchooses⟩ := hl.strict.chooses hlt hk ho hchosen
    obtain ⟨known, f, hd, hmem, -⟩ := hchosen
    have hc := h.derives hd hl.strict.coherent hext.size_le
    refine ⟨_, Conveys.replace (d := e.report event)
      ⟨hc.fixed, hc.lt, hc.operands, hc.dom, hc.gives⟩ he.toStrict
      (replaces_substitute (d := e.report event) he.coherent n value) hkind
      ((hd.old hlt).2.1.trans (hext.kind n hn)) ?_ hentry fun _ => hchooses⟩
    obtain ⟨-, -, hargs⟩ := Strict.derives hd hl.strict hlt hk rfl fun p hp =>
      hl.strict.mayReplace_of_mem hk (ho ▸ mem_of_mem_choiceArgs hp)
    exact (hargs _ hmem).1

/-- **Lowering keeps the words of the nodes in use** along every path where choices
make sense. -/
theorem Strict.exists_conveys (h : d.Strict flow dead)
    (he : (d.graph.kind startBlock).isBlock)
    (hh : ∀ n < d.graph.size, (d.graph.kind (d.graph.blockOf n)).isBlock)
    (hf : flow.preds startBlock = []) :
    ∃ done ρ, (∀ n, n ∈ done ↔ d.graph.kind n = .condValue) ∧
      Conveys d.graph flow done d.lowerConditionals.2 ρ := by
  obtain ⟨done, hd, -, ρ, hc⟩ := exists_done_lowerConditionals
    (P := fun done e => Lowering d.graph flow dead done e ∧ ∃ ρ, Conveys d.graph flow done e ρ)
    ⟨h.lowering, id, conveys_refl d.graph flow rfl⟩
    fun _ _ _ _ hn hk ⟨hl, _, hc⟩ hs =>
      ⟨hl.lowers hs hn hk he hh, hc.lowers hs hl hk hf⟩
  exact ⟨done, ρ, hd, hc⟩

end Draft

end SsaCompiler
