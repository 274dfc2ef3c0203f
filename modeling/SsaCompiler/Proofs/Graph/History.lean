import SsaCompiler.Proofs.Builder.History
import SsaCompiler.Proofs.Graph.Strict

/-!
# The history of lowering

What is offered when a conditional value is lowered is computed from its parts
and from what was found or made just before. None of these was replaced: a
part of a conditional value in use is alive, and a replaced conditional value is
not used any more. **So every hit of lowering is current**
(`Draft.Strict.tells_lowerConditionals`), although the keys of the table may name
conditional values that were replaced since.

Conditional values are detached while the table still knows them. That does no
harm since lowering asks for no conditional value.
-/

namespace SsaCompiler

open List
open Graph (startBlock endBlock)

namespace Draft

variable {known : List (NodeId × Formula)} {op : BinOp} {a b : NodeId} {fa fb : Formula}

/-- A node is offered, and then something else happens. -/
def offering (d : Draft) (kind : Kind) (block : NodeId) (operands : List NodeId)
    (rest : NodeId → Draft → History) : History :=
  .offer ⟨d, kind, block, operands⟩ ::
    rest (d.add kind block operands).1 (d.add kind block operands).2

/-- **What is offered for a choice.** -/
def chooseHistory (d : Draft) (block cond ifTrue ifFalse : NodeId) : History :=
  match d.boolConst? cond with
  | some _ => []
  | none =>
    if ifTrue = ifFalse then []
    else
      match d.boolConst? ifTrue, d.boolConst? ifFalse with
      | some true, some false => []
      | some false, some true =>
        d.offering (.constBool true) startBlock [] fun one d =>
          d.offering (.binary (.arith .bitXor)) block [cond, one] fun _ _ => []
      | _, some false => d.offering (.binary (.logic .and)) block [cond, ifTrue] fun _ _ => []
      | some true, _ => d.offering (.binary (.logic .or)) block [cond, ifFalse] fun _ _ => []
      | _, _ =>
        d.offering (.constInt 0) startBlock [] fun nought d =>
          d.offering (.binary (.arith .bitXor)) block [ifTrue, ifFalse] fun difference d =>
            d.offering (.binary (.arith .sub)) block [nought, cond] fun mask d =>
              d.offering (.binary (.arith .bitAnd)) block [difference, mask] fun picked d =>
                d.offering (.binary (.arith .bitXor)) block [ifFalse, picked] fun _ _ => []

/-- The history of lowering one conditional value. -/
def lowerHistory (d : Draft) (n : NodeId) : History :=
  match d.graph.operands n with
  | [cond, ifTrue, ifFalse] =>
    if d.graph.users n = [] then [.detach n]
    else d.chooseHistory (d.graph.blockOf n) cond ifTrue ifFalse ++ [.detach n]
  | _ => []

/-- Conditional values are lowered one after the other. -/
def lowerAllHistory : Nat × Draft → List NodeId → History
  | _, [] => []
  | state, n :: rest => state.2.lowerHistory n ++ lowerAllHistory (lowerConditional state n) rest

/-- **The history of lowering.** -/
def loweringHistory (d : Draft) : History :=
  lowerAllHistory (0, d) (d.graph.ids.filter (d.graph.kind · = .condValue))

variable {d e f : Draft} {flow : Graph} {dead : NodeId → Prop} {n block cond ifTrue ifFalse : NodeId}
  {kind : Kind} {operands : List NodeId} {asked : Kind → Prop}

theorem tells_offering {rest : NodeId → Draft → History}
    (h : Tells asked d [.offer ⟨d, kind, block, operands⟩] (d.add kind block operands).2)
    (hr : Tells asked (d.add kind block operands).2
      (rest (d.add kind block operands).1 (d.add kind block operands).2) f) :
    Tells asked d (d.offering kind block operands rest) f :=
  h.trans hr

/-- **A formula is offered whose operands are alive.** -/
theorem Strict.tells_offer (h : d.Strict flow dead) (hkind : kind.isFormula)
    (hops : ∀ a ∈ operands, a < d.graph.size ∧ ¬ dead a) (block : NodeId) :
    Tells (· ≠ .condValue) d [.offer ⟨d, kind, block, operands⟩]
      (d.add kind block operands).2 := by
  have hne : kind ≠ .condValue := fun he => by
    rw [he] at hkind
    cases hkind
  exact SsaCompiler.tells_offer (o := ⟨d, kind, block, operands⟩) hne h.coherent
    (fun a ha => (hops a ha).1) (fun x hx => (h.table x hx).1) fun _ hmem =>
      h.shared _ hmem hne fun a ha =>
        (hops a ((ValueKey.perm_operands_of kind block operands).mem_iff.1 ha)).2

section Choose

variable (h : d.Strict flow dead) (hn : n < d.graph.size) (hkind : d.graph.kind n = .condValue)
  (hops : d.graph.operands n = [cond, ifTrue, ifFalse])
include h hn hkind hops

section

variable (hd : Derives (d.graph.blockOf n) (choiceArgs cond ifTrue ifFalse) d known e)

include hd

theorem Strict.of_derives : e.Strict flow dead ∧ ∀ p ∈ known, p.1 < e.graph.size ∧ ¬ dead p.1 := by
  obtain ⟨he, -, hk⟩ := Strict.derives hd h hn hkind rfl fun p hp =>
    h.mayReplace_of_mem hkind (hops ▸ mem_of_mem_choiceArgs hp)
  exact ⟨he, fun p hp => ⟨(hk p hp).1, (hk p hp).2.live⟩⟩

theorem Strict.tells_load {w : Word} (hc : kind.constant? = some w) :
    Tells (· ≠ .condValue) e [.offer ⟨e, kind, startBlock, []⟩] (e.constant kind).2 :=
  (h.of_derives hn hkind hops hd).1.tells_offer (Kind.isFormula_of_constant? hc)
    (forall_mem_nil _) _

theorem Strict.tells_apply (hop : op.hasEffect = false) (ha : (a, fa) ∈ known)
    (hb : (b, fb) ∈ known) :
    Tells (· ≠ .condValue) e [.offer ⟨e, .binary op, d.graph.blockOf n, [a, b]⟩]
      (e.add (.binary op) (d.graph.blockOf n) [a, b]).2 := by
  obtain ⟨he, hk⟩ := h.of_derives hn hkind hops hd
  refine he.tells_offer (Kind.isFormula_binary hop) (fun c hc => ?_) _
  simp only [mem_cons, not_mem_nil, or_false] at hc
  rcases hc with rfl | rfl
  · exact hk _ ha
  · exact hk _ hb

end

/-- One operation on the parts of the choice. -/
theorem Strict.tells_connective (hop : op.hasEffect = false)
    (ha : (a, fa) ∈ choiceArgs cond ifTrue ifFalse)
    (hb : (b, fb) ∈ choiceArgs cond ifTrue ifFalse) :
    Tells (· ≠ .condValue) d
      (d.offering (.binary op) (d.graph.blockOf n) [a, b] fun _ _ => [])
      (d.add (.binary op) (d.graph.blockOf n) [a, b]).2 :=
  tells_offering (h.tells_apply hn hkind hops .start hop ha hb) (.refl _ _)

/-- The choice between the two truth values in reverse. -/
theorem Strict.tells_negated : Tells (· ≠ .condValue) d
      (d.offering (.constBool true) startBlock [] fun one d' =>
        d'.offering (.binary (.arith .bitXor)) (d.graph.blockOf n) [cond, one] fun _ _ => [])
      ((d.constant (.constBool true)).2.add (.binary (.arith .bitXor)) (d.graph.blockOf n)
        [cond, (d.constant (.constBool true)).1]).2 :=
  tells_offering (h.tells_load hn hkind hops .start rfl)
    (tells_offering (h.tells_apply hn hkind hops (.load .start rfl) rfl
      (.tail _ mem_cond) (.head _)) (.refl _ _))

/-- Any choice by masking the difference of the arms. -/
theorem Strict.tells_masked : Tells (· ≠ .condValue) d
      (d.offering (.constInt 0) startBlock [] fun nought d' =>
        d'.offering (.binary (.arith .bitXor)) (d.graph.blockOf n) [ifTrue, ifFalse]
          fun difference d' =>
            d'.offering (.binary (.arith .sub)) (d.graph.blockOf n) [nought, cond] fun mask d' =>
              d'.offering (.binary (.arith .bitAnd)) (d.graph.blockOf n) [difference, mask]
                fun picked d' =>
                  d'.offering (.binary (.arith .bitXor)) (d.graph.blockOf n) [ifFalse, picked]
                    fun _ _ => [])
      (let binary (d' : Draft) (op : BinOp) (lhs rhs : NodeId) :=
          d'.add (.binary op) (d.graph.blockOf n) [lhs, rhs]
        let (nought, d') := d.constant (.constInt 0)
        let (difference, d') := binary d' (.arith .bitXor) ifTrue ifFalse
        let (mask, d') := binary d' (.arith .sub) nought cond
        let (picked, d') := binary d' (.arith .bitAnd) difference mask
        binary d' (.arith .bitXor) ifFalse picked).2 := by
  have hnought := @Derives.load (d.graph.blockOf n) (choiceArgs cond ifTrue ifFalse) d _ _
    (.constInt 0) _ .start rfl
  have hdifference := @Derives.apply _ _ d _ _ (.arith .bitXor) _ _ _ _ hnought rfl
    (.tail _ mem_ifTrue) (.tail _ mem_ifFalse)
  have hm := @Derives.apply _ _ d _ _ (.arith .sub) _ _ _ _ hdifference rfl
    (.tail _ (.head _))
    (.tail _ (.tail _ mem_cond))
  have hp := @Derives.apply _ _ d _ _ (.arith .bitAnd) _ _ _ _ hm rfl
    (.tail _ (.head _)) (.head _)
  refine tells_offering (h.tells_load hn hkind hops .start rfl) (tells_offering
    (h.tells_apply hn hkind hops hnought rfl (.tail _ mem_ifTrue)
      (.tail _ mem_ifFalse)) (tells_offering
    (h.tells_apply hn hkind hops hdifference rfl (.tail _ (.head _))
      (.tail _ (.tail _ mem_cond))) (tells_offering
    (h.tells_apply hn hkind hops hm rfl (.tail _ (.head _)) (.head _)) (tells_offering
    (h.tells_apply hn hkind hops hp rfl (.tail _ (mem_cons_of_mem _
      (.tail _ (.tail _ mem_ifFalse)))) (.head _))
      (.refl _ _)))))

/-- **Every hit for a choice is current.** -/
theorem Strict.tells_choose :
    Tells (· ≠ .condValue) d (d.chooseHistory (d.graph.blockOf n) cond ifTrue ifFalse)
      (d.choose (d.graph.blockOf n) cond ifTrue ifFalse).2 := by
  have hm := h.tells_masked hn hkind hops
  unfold choose chooseHistory
  cases d.boolConst? cond with
  | some v => cases v <;> exact .refl _ _
  | none =>
    by_cases heq : ifTrue = ifFalse
    · simp only [if_pos heq]
      exact .refl _ _
    simp only [if_neg heq]
    cases d.boolConst? ifTrue with
    | none =>
      cases d.boolConst? ifFalse with
      | none => exact hm
      | some v =>
        cases v with
        | true => exact hm
        | false => exact h.tells_connective hn hkind hops rfl mem_cond mem_ifTrue
    | some v =>
      cases v with
      | true =>
        cases d.boolConst? ifFalse with
        | none => exact h.tells_connective hn hkind hops rfl mem_cond mem_ifFalse
        | some w =>
          cases w with
          | true => exact h.tells_connective hn hkind hops rfl mem_cond mem_ifFalse
          | false => exact .refl _ _
      | false =>
        cases d.boolConst? ifFalse with
        | none => exact hm
        | some w =>
          cases w with
          | true => exact h.tells_negated hn hkind hops
          | false => exact h.tells_connective hn hkind hops rfl mem_cond mem_ifTrue

end Choose

/-- A conditional value is detached, whether or not it was replaced. -/
theorem Strict.tells_detach (h : d.Strict flow dead) (hn : n < d.graph.size)
    (hkind : d.graph.kind n = .condValue) (hk : e.known = d.known)
    (hs : e.graph.size = d.graph.size) (hlog : Log.reuses e.log = Log.reuses d.log) :
    Tells (· ≠ .condValue) d [.detach n] e :=
  SsaCompiler.tells_detach hk hs.symm.le hlog hn fun x hx hne he =>
    hne ((h.table x hx).2.1.symm.trans (he ▸ hkind))

/-- **Lowering one conditional value.** -/
theorem Strict.tells_lowerConditional (h : d.Strict flow dead) (hn : n < d.graph.size)
    (hkind : d.graph.kind n = .condValue) (count : Nat) :
    Tells (· ≠ .condValue) d (d.lowerHistory n) (lowerConditional (count, d) n).2 := by
  unfold lowerHistory lowerConditional
  dsimp only
  match hops : d.graph.operands n with
  | [cond, ifTrue, ifFalse] =>
    by_cases hu : d.graph.users n = []
    · simp only [if_pos hu]
      exact h.tells_detach hn hkind rfl (Graph.sameNodes_detach d.graph n).size rfl
    · simp only [if_neg hu]
      obtain ⟨known, _, hd, -⟩ := chosen_choose d (d.graph.blockOf n) cond ifTrue ifFalse
      obtain ⟨he, -⟩ := h.of_derives hn hkind hops hd
      obtain ⟨hn', hkind', -⟩ := hd.old hn
      exact (h.tells_choose hn hkind hops).trans (he.tells_detach hn' (hkind'.trans hkind) rfl
        ((Graph.sameNodes_replaceUses _ _ _).trans (Graph.sameNodes_detach _ n)).size
        (Log.reuses_push _ rfl))
  | [] | [_] | [_, _] | _ :: _ :: _ :: _ :: _ => exact .refl _ _

/-- **Every hit of lowering is current.** -/
theorem Strict.tells_lowerConditionals (h : d.Strict flow dead)
    (he : (d.graph.kind startBlock).isBlock)
    (hh : ∀ n < d.graph.size, (d.graph.kind (d.graph.blockOf n)).isBlock) :
    Tells (· ≠ .condValue) d d.loweringHistory d.lowerConditionals.2 := by
  have hfold : ∀ (l done : List NodeId) (state : Nat × Draft),
      Lowering d.graph flow dead done state.2 →
      (∀ n ∈ l, n < d.graph.size ∧ d.graph.kind n = .condValue) →
      Tells (· ≠ .condValue) state.2 (lowerAllHistory state l)
        (l.foldl lowerConditional state).2 := by
    intro l
    induction l with
    | nil => exact fun _ _ _ _ => .refl _ _
    | cons n l ih =>
      intro done state hs hl
      obtain ⟨hn, hk⟩ := hl n (.head _)
      have hf := hs.strict.tells_lowerConditional
        (hn.trans_le hs.grown.size_le) ((hs.grown.kind n hn).trans hk) state.1
      have hnext := hs.lowers (lowers_lowerConditional state.1 state.2 n) hn hk he hh
      exact hf.trans (ih (n :: done) (lowerConditional state n) hnext fun m hm =>
        hl m (.tail _ hm))
  refine hfold _ [] (0, d) h.lowering fun n hn => ?_
  simpa [Graph.ids] using hn

end Draft

end SsaCompiler
