import SsaCompiler.Graph.Conditional
import SsaCompiler.Proofs.Builder.WellFormed
import SsaCompiler.Proofs.Line

/-!
# How conditional values are replaced

What takes the place of a conditional value is derived from its condition and
its two arms by constants and operations without effects. `Draft.Derives` is
such a derivation: it lists the nodes that are at hand, and **each of them with
its meaning, a function of the three words**. `Draft.choose` is a derivation of
a node that means the choice (`Draft.exists_derives_choose`), if the condition
is a truth value and the arms are truth values where one of them is known to
be.

To the graph, replacing conditional values adds nodes and substitutes operands
(`Draft.Extends`): no jump, block or merge is made, and every other node keeps
as many operands as it had.
-/

namespace SsaCompiler

open List Graph
open Graph (startBlock endBlock)

variable {k : Kind}

/-- The word that a binary operation computes, zero where it traps. -/
def BinOp.value (op : BinOp) (a b : Word) : Word :=
  (op.eval a b).getD 0

/-- **A word as a function of three words**: the condition and the two arms. -/
abbrev Formula := Word → Word → Word → Word

/-- **What takes the place of a conditional value**: constants, and operations
without effects. -/
def Kind.isFormula : Kind → Bool
  | constInt _ | constBool _ | undefined => true
  | binary op => !op.hasEffect
  | _ => false

theorem Kind.isFormula_of_constant? {w : Word} (h : k.constant? = some w) : k.isFormula := by
  cases k <;> first | rfl | cases h

theorem Kind.isFormula_binary {op : BinOp} (h : op.hasEffect = false) : (binary op).isFormula := by
  show (!op.hasEffect) = true
  rw [h]
  rfl

theorem Kind.isPhi_eq_false_of_isFormula (h : k.isFormula) : k.isPhi = false := by
  cases k <;> first | rfl | cases h

namespace Draft

/-- **A derivation** of nodes in a block. The nodes at hand are listed with
their meaning. -/
inductive Derives (block : NodeId) (start : List (NodeId × Formula)) (d : Draft) :
    List (NodeId × Formula) → Draft → Prop
  | start : Derives block start d start d
  | load {known : List (NodeId × Formula)} {e : Draft} {kind : Kind} {w : Word}
      (h : Derives block start d known e) (hkind : kind.constant? = some w) :
      Derives block start d (((e.constant kind).1, fun _ _ _ => w) :: known) (e.constant kind).2
  | apply {known : List (NodeId × Formula)} {e : Draft} {op : BinOp} {a b : NodeId}
      {fa fb : Formula} (h : Derives block start d known e) (hop : op.hasEffect = false)
      (ha : (a, fa) ∈ known) (hb : (b, fb) ∈ known) :
      Derives block start d
        (((e.add (.binary op) block [a, b]).1, fun x y z => op.value (fa x y z) (fb x y z)) :: known)
        (e.add (.binary op) block [a, b]).2

/-- **A formula means the choice** between two words, for a condition and arms
that are as they are known to be. -/
def IsChoice (d : Draft) (cond ifTrue ifFalse : NodeId) (f : Formula) : Prop :=
  ∀ x y z : Word, (x = 0 ∨ x = 1) → (∀ v, d.boolConst? cond = some v → x = .ofBool v) →
    (∀ v, d.boolConst? ifTrue = some v → y = .ofBool v) →
    (∀ v, d.boolConst? ifFalse = some v → z = .ofBool v) → (ifTrue = ifFalse → y = z) →
    ((d.boolConst? ifTrue).isSome = true ∨ (d.boolConst? ifFalse).isSome = true →
      (y = 0 ∨ y = 1) ∧ (z = 0 ∨ z = 1)) →
    f x y z = if x ≠ 0 then y else z

/-- The condition and the arms, which are at hand at first. -/
def choiceArgs (cond ifTrue ifFalse : NodeId) : List (NodeId × Formula) :=
  [(cond, fun x _ _ => x), (ifTrue, fun _ y _ => y), (ifFalse, fun _ _ z => z)]

theorem mask_eq (x y z : Word) (hx : x = 0 ∨ x = 1) :
    z ^^^ ((y ^^^ z) &&& (0 - x)) = if x ≠ 0 then y else z := by
  rcases hx with rfl | rfl
  · simp
  · rw [show (0 - 1 : Word) = BitVec.allOnes 32 by decide, BitVec.and_allOnes, if_pos (by decide),
      BitVec.xor_comm y z, ← BitVec.xor_assoc, BitVec.xor_self, BitVec.zero_xor]

section Choose

variable (d : Draft) (block cond ifTrue ifFalse : NodeId)

/-- A node means the choice and was derived for it. -/
def Chosen (r : NodeId × Draft) : Prop :=
  ∃ known f, Derives block (choiceArgs cond ifTrue ifFalse) d known r.2 ∧ (r.1, f) ∈ known ∧
    d.IsChoice cond ifTrue ifFalse f

variable {d block cond ifTrue ifFalse}

theorem chosen_part {n : NodeId} {f : Formula} (hmem : (n, f) ∈ choiceArgs cond ifTrue ifFalse)
    (h : d.IsChoice cond ifTrue ifFalse f) : Chosen d block cond ifTrue ifFalse (n, d) :=
  ⟨_, f, .start, hmem, h⟩

theorem mem_cond : (cond, fun x _ _ => x) ∈ choiceArgs cond ifTrue ifFalse := (.head _)

theorem mem_ifTrue : (ifTrue, fun _ y _ => y) ∈ choiceArgs cond ifTrue ifFalse :=
  mem_cons_of_mem _ (.head _)

theorem mem_ifFalse : (ifFalse, fun _ _ z => z) ∈ choiceArgs cond ifTrue ifFalse :=
  mem_cons_of_mem _ (.tail _ (.head _))

theorem mem_of_mem_choiceArgs {p : NodeId × Formula} (h : p ∈ choiceArgs cond ifTrue ifFalse) :
    p.1 ∈ [cond, ifTrue, ifFalse] := by
  simp only [choiceArgs, mem_cons, not_mem_nil, or_false] at h
  rcases h with rfl | rfl | rfl <;> simp

/-- A decided condition chooses one of the arms. -/
theorem chosen_of_cond {v : Bool} (hc : d.boolConst? cond = some v) :
    Chosen d block cond ifTrue ifFalse (if v then ifTrue else ifFalse, d) := by
  cases v with
  | true =>
    refine chosen_part mem_ifTrue fun x y z _ hx _ _ _ _ => ?_
    rw [hx true hc, if_pos (by decide)]
  | false =>
    refine chosen_part mem_ifFalse fun x y z _ hx _ _ _ _ => ?_
    rw [hx false hc, if_neg (by decide)]

theorem chosen_of_eq (h : ifTrue = ifFalse) :
    Chosen d block cond ifTrue ifFalse (ifTrue, d) := by
  refine chosen_part mem_ifTrue fun x y z _ _ _ _ heq _ => ?_
  rw [heq h, ite_self]

theorem chosen_of_true_false (ht : d.boolConst? ifTrue = some true)
    (hf : d.boolConst? ifFalse = some false) :
    Chosen d block cond ifTrue ifFalse (cond, d) := by
  refine chosen_part mem_cond fun x y z hx _ hy hz _ _ => ?_
  rw [hy true ht, hz false hf]
  rcases hx with rfl | rfl <;> decide

/-- The choice between the two truth values in reverse. -/
theorem chosen_of_false_true (ht : d.boolConst? ifTrue = some false)
    (hf : d.boolConst? ifFalse = some true) :
    Chosen d block cond ifTrue ifFalse ((d.constant (.constBool true)).2.add
      (.binary (.arith .bitXor)) block [cond, (d.constant (.constBool true)).1]) := by
  refine ⟨_, _, .apply (.load .start rfl) rfl (.tail _ mem_cond)
    (.head _), .head _, fun x y z hx _ hy hz _ _ => ?_⟩
  rw [hy false ht, hz true hf]
  rcases hx with rfl | rfl <;> decide

/-- A choice that is false where the condition is. -/
theorem chosen_of_false (hf : d.boolConst? ifFalse = some false) :
    Chosen d block cond ifTrue ifFalse (d.add (.binary (.logic .and)) block [cond, ifTrue]) := by
  refine ⟨_, _, .apply .start rfl mem_cond mem_ifTrue, .head _, fun x y z hx _ _ hz _ hb => ?_⟩
  obtain ⟨hy, -⟩ := hb (.inr (by rw [hf]; rfl))
  rw [hz false hf]
  rcases hx with rfl | rfl <;> rcases hy with rfl | rfl <;> decide

/-- A choice that is true where the condition is. -/
theorem chosen_of_true (ht : d.boolConst? ifTrue = some true) :
    Chosen d block cond ifTrue ifFalse (d.add (.binary (.logic .or)) block [cond, ifFalse]) := by
  refine ⟨_, _, .apply .start rfl mem_cond mem_ifFalse, .head _, fun x y z hx _ hy _ _ hb => ?_⟩
  obtain ⟨-, hz⟩ := hb (.inl (by rw [ht]; rfl))
  rw [hy true ht]
  rcases hx with rfl | rfl <;> rcases hz with rfl | rfl <;> decide

/-- Any other choice, by masking the difference of the arms. -/
theorem chosen_masked : Chosen d block cond ifTrue ifFalse
    (let binary (d : Draft) (op : BinOp) (lhs rhs : NodeId) := d.add (.binary op) block [lhs, rhs]
      let (nought, d) := d.constant (.constInt 0)
      let (difference, d) := binary d (.arith .bitXor) ifTrue ifFalse
      let (mask, d) := binary d (.arith .sub) nought cond
      let (picked, d) := binary d (.arith .bitAnd) difference mask
      binary d (.arith .bitXor) ifFalse picked) := by
  have hn := @Derives.load block (choiceArgs cond ifTrue ifFalse) d _ _ (.constInt 0) _ .start rfl
  have hd := @Derives.apply block _ d _ _ (.arith .bitXor) _ _ _ _ hn rfl
    (.tail _ mem_ifTrue) (.tail _ mem_ifFalse)
  have hm := @Derives.apply block _ d _ _ (.arith .sub) _ _ _ _ hd rfl
    (.tail _ (.head _))
    (.tail _ (.tail _ mem_cond))
  have hp := @Derives.apply block _ d _ _ (.arith .bitAnd) _ _ _ _ hm rfl
    (.tail _ (.head _)) (.head _)
  have hr := @Derives.apply block _ d _ _ (.arith .bitXor) _ _ _ _ hp rfl
    (.tail _ (.tail _ (mem_cons_of_mem _ (.tail _ mem_ifFalse)))) (.head _)
  exact ⟨_, _, hr, .head _, fun x y z hx _ _ _ _ _ => mask_eq x y z hx⟩

variable (d block cond ifTrue ifFalse)

/-- **What a choice becomes** is derived from its parts and means the choice. -/
theorem chosen_choose :
    Chosen d block cond ifTrue ifFalse (d.choose block cond ifTrue ifFalse) := by
  unfold choose
  cases hc : d.boolConst? cond with
  | some v =>
    cases v with
    | true | false => exact chosen_of_cond hc
  | none =>
    by_cases heq : ifTrue = ifFalse
    · simp only [if_pos heq]
      exact chosen_of_eq heq
    simp only [if_neg heq]
    cases ht : d.boolConst? ifTrue with
    | none =>
      cases hf : d.boolConst? ifFalse with
      | none => exact chosen_masked
      | some v =>
        cases v with
        | true => exact chosen_masked
        | false => exact chosen_of_false hf
    | some v =>
      cases v with
      | true =>
        cases hf : d.boolConst? ifFalse with
        | none => exact chosen_of_true ht
        | some w =>
          cases w with
          | true => exact chosen_of_true ht
          | false => exact chosen_of_true_false ht hf
      | false =>
        cases hf : d.boolConst? ifFalse with
        | none => exact chosen_masked
        | some w =>
          cases w with
          | true => exact chosen_of_false_true ht hf
          | false => exact chosen_of_false hf

end Choose

/-! ## What replacing does to the graph -/

/-- Put a node in the place of a conditional value. -/
def substitute (d : Draft) (n value : NodeId) : Draft :=
  { d with graph := (d.graph.replaceUses n value).detach n }

/-- Take a conditional value out of use. -/
def drop (d : Draft) (n : NodeId) : Draft :=
  { d with graph := d.graph.detach n }

/-- **What one step of lowering does**: nothing, or it drops a conditional
value that nothing uses, or it puts in its place what was chosen. -/
inductive Lowers (d : Draft) (n : NodeId) : Draft → Prop
  | keep (hops : ∀ cond ifTrue ifFalse, d.graph.operands n ≠ [cond, ifTrue, ifFalse]) : Lowers d n d
  | drop (hunused : d.graph.users n = []) : Lowers d n (d.drop n)
  | choose {cond ifTrue ifFalse value : NodeId} {e : Draft} (event : Event)
      (hops : d.graph.operands n = [cond, ifTrue, ifFalse])
      (h : Chosen d (d.graph.blockOf n) cond ifTrue ifFalse (value, e)) :
      Lowers d n ((e.report event).substitute n value)

theorem lowers_lowerConditional (count : Nat) (d : Draft) (n : NodeId) :
    Lowers d n (lowerConditional (count, d) n).2 := by
  unfold lowerConditional
  dsimp only
  split
  next cond ifTrue ifFalse ho =>
    by_cases hu : d.graph.users n = []
    · rw [if_pos hu]
      exact .drop hu
    · rw [if_neg hu]
      exact .choose _ ho (chosen_choose d _ cond ifTrue ifFalse)
  next ho => exact .keep fun cond ifTrue ifFalse h => ho cond ifTrue ifFalse h

/-- **The edges of a draft agree**, and its table names nodes of its graph. -/
structure Intact (d : Draft) : Prop where
  coherent : d.graph.Coherent
  table : ∀ e ∈ d.known, e.2 < d.graph.size

/-- **A draft whose graph comes from another by lowering.** Nodes that are no
conditional values have the operands they had, up to a substitution of
conditional values. -/
structure Extends (g : Graph) (d : Draft) : Prop extends Intact d where
  name : d.graph.name = g.name
  roles : d.graph.roles = g.roles
  size_le : g.size ≤ d.graph.size
  kind : ∀ n < g.size, d.graph.kind n = g.kind n
  blockOf : ∀ n < g.size, d.graph.blockOf n = g.blockOf n
  fresh : ∀ n, g.size ≤ n → (d.graph.kind n).isFormula = true
  home : ∀ n, g.size ≤ n → n < d.graph.size → (g.kind (d.graph.blockOf n)).isBlock = true
  resolved : ∃ σ : NodeId → NodeId, (∀ a, g.kind a ≠ .condValue → σ a = a) ∧
    ∀ n < g.size, g.kind n ≠ .condValue → d.graph.operands n = (g.operands n).map σ

variable {g : Graph} {d e : Draft} {block n value : NodeId} {kind : Kind}
  {operands : List NodeId} {start known : List (NodeId × Formula)}

theorem Intact.add (h : d.Intact) (kind : Kind) (block : NodeId)
    (hops : ∀ a ∈ operands, a < d.graph.size) :
    (d.add kind block operands).2.Intact ∧
      (d.add kind block operands).1 < (d.add kind block operands).2.graph.size := by
  obtain ⟨hadds, ha⟩ := d.add_spec kind block operands
  rw [hadds.size]
  refine ⟨⟨d.coherent_add kind block operands h.coherent hops, fun e he => ?_⟩, ?_⟩
  · rw [hadds.size]
    rcases ha.mem_known he with he | ⟨rfl, -⟩
    · exact Nat.lt_succ_of_lt (h.table e he)
    · exact Nat.lt_succ_self _
  · rcases ha.eq_or_known with he | hk
    · rw [he]
      exact Nat.lt_succ_self _
    · exact Nat.lt_succ_of_lt (h.table _ hk)

/-- What is at hand in a derivation are nodes of the graph. -/
theorem Intact.derives (h : d.Intact) (hd : Derives block start d known e)
    (hstart : ∀ p ∈ start, p.1 < d.graph.size) :
    e.Intact ∧ d.graph.size ≤ e.graph.size ∧ ∀ p ∈ known, p.1 < e.graph.size := by
  induction hd with
  | start => exact ⟨h, Nat.le_refl _, hstart⟩
  | @load known e kind w _ _ ih =>
    obtain ⟨he, hle, hk⟩ := ih
    obtain ⟨he', hlt⟩ := he.add kind startBlock fun _ ha => absurd ha not_mem_nil
    have hs : (e.constant kind).2.graph.size = _ := (e.add_spec kind startBlock []).1.size
    refine ⟨he', by omega, List.forall_mem_cons.2 ⟨hlt, fun p hp => ?_⟩⟩
    exact Nat.lt_of_lt_of_eq (Nat.lt_succ_of_lt (hk p hp)) hs.symm
  | @apply known e op a b _ _ _ _ ha hb ih =>
    obtain ⟨he, hle, hk⟩ := ih
    have hops : ∀ m ∈ [a, b], m < e.graph.size := by simp [hk _ ha, hk _ hb]
    obtain ⟨he', hlt⟩ := he.add (.binary op) block hops
    have hs := (e.add_spec (.binary op) block [a, b]).1.size
    refine ⟨he', by omega, List.forall_mem_cons.2 ⟨hlt, fun p hp => ?_⟩⟩
    exact Nat.lt_of_lt_of_eq (Nat.lt_succ_of_lt (hk p hp)) hs.symm

theorem Extends.add (h : Extends g d) (hkind : kind.isFormula) (hb : (g.kind block).isBlock)
    (hops : ∀ a ∈ operands, a < d.graph.size) : Extends g (d.add kind block operands).2 := by
  obtain ⟨ha, -⟩ := d.add_spec kind block operands
  have ho : ∀ n < g.size, n ≠ d.graph.size := fun n hn =>
    Nat.ne_of_lt (Nat.lt_of_lt_of_le hn h.size_le)
  obtain ⟨σ, hσ, hr⟩ := h.resolved
  refine ⟨(h.toIntact.add kind block hops).1, ha.name.trans h.name, ha.roles.trans h.roles,
    Nat.le_trans h.size_le (Nat.le_of_lt (Nat.lt_of_lt_of_eq (Nat.lt_succ_self _) ha.size.symm)),
    fun n hn => ?_, fun n hn => ?_, fun n hn => ?_, fun n hn hl' => ?_, σ, hσ, fun n hn hk => ?_⟩
  · rw [ha.kind, if_neg (ho n hn)]
    exact h.kind n hn
  · rw [ha.blockOf, if_neg (ho n hn)]
    exact h.blockOf n hn
  · rw [ha.kind]
    split
    · exact hkind
    · exact h.fresh n hn
  · rw [ha.blockOf]
    split
    · exact hb
    · rw [ha.size] at hl'
      exact h.home n hn (Nat.lt_of_le_of_ne (Nat.le_of_lt_succ hl') ‹_›)
  · rw [ha.operands n (ho n hn)]
    exact hr n hn hk

theorem Extends.derives (h : Extends g d) (hd : Derives block start d known e)
    (he : (g.kind startBlock).isBlock) (hblock : (g.kind block).isBlock)
    (hs : ∀ p ∈ start, p.1 < d.graph.size) : Extends g e := by
  induction hd with
  | start => exact h
  | load _ hkind ih =>
    exact ih.add (Kind.isFormula_of_constant? hkind) he fun _ ha => absurd ha not_mem_nil
  | apply hd hop ha hb ih =>
    obtain ⟨-, -, hk⟩ := h.toIntact.derives hd hs
    exact ih.add (Kind.isFormula_binary hop) hblock (by simp [hk _ ha, hk _ hb])

theorem Intact.substitute (h : d.Intact) (hn : n < d.graph.size) (hv : value < d.graph.size) :
    (d.substitute n value).Intact :=
  have hs := (sameNodes_replaceUses d.graph n value).trans
    (sameNodes_detach (d.graph.replaceUses n value) n)
  ⟨(h.coherent.replaceUses hn hv).detach n, fun e he => (h.table e he).trans_eq hs.size.symm⟩

theorem Intact.drop (h : d.Intact) (n : NodeId) : (d.drop n).Intact :=
  ⟨h.coherent.detach n, fun e he => (h.table e he).trans_eq (sameNodes_detach d.graph n).size.symm⟩

/-- Operands are changed, but no kinds and homes. -/
theorem Extends.of_sameNodes (h : Extends g d) (hs : d.graph.SameNodes e.graph) (he : e.Intact)
    (hr : ∃ σ : NodeId → NodeId, (∀ a, g.kind a ≠ .condValue → σ a = a) ∧
      ∀ m < g.size, g.kind m ≠ .condValue → e.graph.operands m = (g.operands m).map σ) :
    Extends g e where
  toIntact := he
  name := hs.name.trans h.name
  roles := hs.roles.trans h.roles
  size_le := h.size_le.trans hs.size.symm.le
  kind := fun m hm => (hs.kind m).trans (h.kind m hm)
  blockOf := fun m hm => (hs.blockOf m).trans (h.blockOf m hm)
  fresh := fun m hm => hs.kind m ▸ h.fresh m hm
  home := fun m hm hlt => hs.blockOf m ▸ h.home m hm (hlt.trans_eq hs.size)
  resolved := hr

theorem Extends.substitute (h : Extends g d) (hn : n < g.size) (hkind : g.kind n = .condValue)
    (hv : value < d.graph.size) : Extends g (d.substitute n value) := by
  obtain ⟨σ, hσ, hr⟩ := h.resolved
  refine h.of_sameNodes ((sameNodes_replaceUses d.graph n value).trans (sameNodes_detach _ n))
    (h.toIntact.substitute (hn.trans_le h.size_le) hv)
    ⟨fun a => if σ a = n then value else σ a, fun a ha => ?_, fun m hm hk => ?_⟩
  · show (if σ a = n then value else σ a) = a
    rw [hσ a ha, if_neg fun he : a = n => ha (he ▸ hkind)]
  · refine (operands_detach _ n m).trans ?_
    rw [if_neg fun he : m = n => hk (he ▸ hkind), h.coherent.operands_replaceUses,
      hr m hm hk, map_map]
    rfl

theorem Extends.drop (h : Extends g d) (hkind : g.kind n = .condValue) : Extends g (d.drop n) := by
  obtain ⟨σ, hσ, hr⟩ := h.resolved
  refine h.of_sameNodes (sameNodes_detach d.graph n) (h.toIntact.drop n) ⟨σ, hσ, fun m hm hk => ?_⟩
  refine (operands_detach _ n m).trans ?_
  rw [if_neg fun he : m = n => hk (he ▸ hkind)]
  exact hr m hm hk

/-- **Lowering one conditional value.** -/
theorem Extends.lowers (h : Extends g d) (hs : Lowers d n e) (hn : n < g.size)
    (hk : g.kind n = .condValue) (hentry : (g.kind startBlock).isBlock)
    (hb : (g.kind (g.blockOf n)).isBlock) : Extends g e := by
  cases hs with
  | keep => exact h
  | drop => exact h.drop hk
  | @choose cond ifTrue ifFalse value e event hops hc =>
    obtain ⟨known, f, hd, hmem, -⟩ := hc
    have ha : ∀ p ∈ choiceArgs cond ifTrue ifFalse, p.1 < d.graph.size := fun p hp =>
      h.coherent.closed n _ (hops ▸ mem_of_mem_choiceArgs hp)
    rw [h.blockOf n hn] at hd
    have he := h.derives hd hentry hb ha
    have hr : Extends g (e.report event) :=
      ⟨⟨he.coherent, he.table⟩, he.name, he.roles, he.size_le, he.kind, he.blockOf, he.fresh,
        he.home, he.resolved⟩
    exact hr.substitute hn hk ((h.toIntact.derives hd ha).2.2 _ hmem)

theorem lt_size_of_condValue (h : g.kind n = .condValue) : n < g.size := by
  by_contra hle
  cases (Builder.kind_of_size_le g (not_lt.1 hle)).symm.trans h

/-- **What holds all through lowering.** The invariant may speak of the
conditional values that are done. -/
theorem exists_done_lowerConditionals {P : List NodeId → Draft → Prop} (hs : P [] d)
    (hstep : ∀ done n e e', n < d.graph.size → d.graph.kind n = .condValue → P done e →
      Lowers e n e' → P (n :: done) e') :
    ∃ done, (∀ n, n ∈ done ↔ d.graph.kind n = .condValue) ∧ P done d.lowerConditionals.2 := by
  have ha : ∀ n, n ∈ d.graph.ids.filter (d.graph.kind · = .condValue) ↔
      n < d.graph.size ∧ d.graph.kind n = .condValue := fun n => by
    simp [Graph.ids]
  have hf : ∀ (l done : List NodeId) (count : Nat) (e : Draft), P done e →
      (∀ n ∈ l, n < d.graph.size ∧ d.graph.kind n = .condValue) →
      P (l.reverse ++ done) (l.foldl lowerConditional (count, e)).2 := by
    intro l
    induction l with
    | nil => exact fun _ _ _ he _ => he
    | cons n l ih =>
      intro done count e he hl
      obtain ⟨hn, hk⟩ := hl n (.head _)
      rw [reverse_cons, append_assoc]
      exact ih (n :: done) _ _ (hstep done n e _ hn hk he (lowers_lowerConditional count e n))
        fun m hm => hl m (.tail _ hm)
  refine ⟨_, fun n => ?_, hf _ [] 0 d hs fun n hn => (ha n).1 hn⟩
  rw [append_nil, mem_reverse, ha]
  exact ⟨fun h => h.2, fun h => ⟨lt_size_of_condValue h, h⟩⟩

theorem Extends.refl (hc : d.graph.Coherent) (ht : ∀ e ∈ d.known, e.2 < d.graph.size) :
    Extends d.graph d :=
  ⟨⟨hc, ht⟩, rfl, rfl, le_rfl, fun _ _ => rfl, fun _ _ => rfl,
    fun n hn => by rw [Builder.kind_of_size_le d.graph hn]; rfl,
    fun n hn hlt => absurd hlt (Nat.not_lt.2 hn), id, fun _ _ => rfl,
    fun n _ _ => (map_id _).symm⟩

/-- **What lowering all conditional values does to a graph.** -/
theorem extends_lowerConditionals (hc : d.graph.Coherent)
    (hentry : (d.graph.kind startBlock).isBlock)
    (hh : ∀ n < d.graph.size, (d.graph.kind (d.graph.blockOf n)).isBlock)
    (ht : ∀ e ∈ d.known, e.2 < d.graph.size) :
    Extends d.graph d.lowerConditionals.2 := by
  obtain ⟨-, -, h⟩ := exists_done_lowerConditionals (P := fun _ e => Extends d.graph e)
    (.refl hc ht) fun _ n _ _ hn hk he hs =>
      he.lowers hs hn hk hentry (hh n hn)
  exact h

end Draft

end SsaCompiler
