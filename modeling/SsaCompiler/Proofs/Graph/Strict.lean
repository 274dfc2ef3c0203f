import SsaCompiler.Proofs.Graph.Form
import SsaCompiler.Proofs.Graph.Lowering

/-!
# Strict graphs

A graph is **strict** along a control flow if every node is there, on every path,
before it is used: its block dominates the block that uses it, or the end of the
predecessor for an operand of a merge, and inside a block there is no circle of
nodes that use each other (`Graph.Strict`). What is used is alive and is what its
user asks for.

Lowering keeps a graph strict. The node that takes the place of a conditional
value is computed from the parts of the conditional value, so it does not depend
on it. A node that is found in the value table instead of being made has the
operands of its key as long as these are alive, and so the same holds of it
(`Draft.Strict.add`).
-/

namespace SsaCompiler

open List Graph Kind
open Graph (startBlock endBlock)

variable {a m : NodeId} {k : Kind} {op : BinOp} {w : Word}
  {start known : List (NodeId × Formula)}

namespace Graph

/-- **One node comes right before another in their block**: the other uses it. -/
structure Precedes (g : Graph) (a n : NodeId) : Prop where
  mem : a ∈ g.operands n
  block : g.blockOf a = g.blockOf n
  isPhi : (g.kind n).isPhi = false
  isBlock : (g.kind n).isBlock = false

/-- **A graph is strict along a control flow.** No operand is dead. -/
structure Strict (g flow : Graph) (dead : NodeId → Prop) : Prop where
  live : ∀ n, ∀ a ∈ g.operands n, ¬ dead a
  formed : ∀ n, g.Formed n
  typed : ∀ n (index : Nat) a, (g.operands n)[index]? = some a →
    ∀ channel ∈ (g.kind n).takes index, g.Fits channel a
  uses : ∀ n, (g.kind n).isPhi = false → (g.kind n).isBlock = false → ∀ a ∈ g.operands n,
    Dominates flow.preds (g.blockOf a) (g.blockOf n)
  merges : ∀ n, (g.kind n).isPhi = true → ∀ (index : Nat) a, (g.operands n)[index]? = some a →
    ∀ pred, (flow.preds (g.blockOf n))[index]? = some pred → Dominates flow.preds (g.blockOf a) pred
  order : ∀ n, flow.Reaches (g.blockOf n) → Acc g.Precedes n

variable {flow g g' : Graph} {dead : NodeId → Prop} {n m v : NodeId}

/-- **A conditional value is used as a value only.** -/
theorem Strict.isValue_of_mem (h : g.Strict flow dead) (hkind : g.kind n = .condValue)
    (hj : (g.kind m).isBlock → ∀ a ∈ g.operands m, (g.kind a).isTerminator)
    (hmem : n ∈ g.operands m) : g.IsValue n := by
  obtain ⟨index, hi⟩ := mem_iff_getElem?.1 hmem
  have hne : g.operands m ≠ [] := ne_nil_of_mem hmem
  have ht := h.typed m index n hi
  have hf : ∀ channel ∈ (g.kind m).takes index, g.IsValue n := fun channel hc => by
    cases channel with
    | value => exact ht .value hc
    | effect =>
      have he : (g.kind n).isEffect = true := ht .effect hc
      rw [hkind] at he
      cases he
  have hnil : ∀ count, (g.kind m).arity? = some count → count ≠ 0 := fun count hc h0 => by
    rcases (h.formed m).arity count hc with hl | ⟨-, hnil⟩
    · exact hne (length_eq_zero_iff.1 (hl.trans h0))
    · exact hne hnil
  cases hm : g.kind m <;> rw [hm] at hf hnil
  case block =>
    have := hj (by rw [hm]; rfl) n hmem
    rw [hkind] at this
    cases this
  case undefined => exact absurd ((h.formed m).bare hm) hne
  case proj =>
    rcases ((h.formed m).output _ hm n hmem).2 with htrap | ⟨-, hs⟩
    · rw [hkind] at htrap
      cases htrap
    · cases hkind.symm.trans hs
  case start | constInt | constBool | jump => exact absurd rfl (hnil 0 rfl)
  case compare | condValue | condJump => exact hf .value rfl
  case phi channel => exact hf channel rfl
  case binary op =>
    by_cases hlt : index < 2
    · exact hf .value (if_pos hlt)
    · exact hf .effect (if_neg hlt)
  case ret =>
    by_cases hlt : index = 0
    · exact hf .effect (if_pos hlt)
    · exact hf .value (if_neg hlt)

/-! ## Order -/

theorem not_transGen_self {r : NodeId → NodeId → Prop} (h : Acc r n) :
    ¬ Relation.TransGen r n n := by
  replace h := h.transGen
  induction h with
  | intro n _ ih => exact fun hn => ih n hn hn

theorem blockOf_of_reflTransGen (h : Relation.ReflTransGen g.Precedes n m) :
    g.blockOf n = g.blockOf m := by
  induction h with
  | refl => rfl
  | tail _ hstep ih => exact ih.trans hstep.block

theorem Strict.not_reflTransGen (h : g.Strict flow dead) (hreach : flow.Reaches (g.blockOf n))
    (hphi : (g.kind n).isPhi = false) (hb : (g.kind n).isBlock = false)
    (hm : m ∈ g.operands n) : ¬ Relation.ReflTransGen g.Precedes n m := fun hp =>
  have hstep : g.Precedes m n := ⟨hm, (blockOf_of_reflTransGen hp).symm, hphi, hb⟩
  not_transGen_self (h.order n hreach) (.tail' hp hstep)

/-! ## Replacing a conditional value -/

/-- **A node is replaced by another**: its users take the other, and it keeps no
operands. -/
structure Replaces (g g' : Graph) (n v : NodeId) : Prop where
  same : g.SameNodes g'
  operands : ∀ m, g'.operands m =
    if m = n then [] else (g.operands m).map fun a => if a = n then v else a

/-- **A node may take the place of a conditional value.** -/
structure MayReplace (g flow : Graph) (dead : NodeId → Prop) (n v : NodeId) : Prop where
  ne : v ≠ n
  live : ¬ dead v
  isValue : g.IsValue v
  dom : Dominates flow.preds (g.blockOf v) (g.blockOf n)
  /-- It does not depend on the conditional value. -/
  free : flow.Reaches (g.blockOf n) → ¬ Relation.ReflTransGen g.Precedes n v

section Replaces

variable (hr : Replaces g g' n v)
include hr

theorem Replaces.mem (ha : a ∈ g'.operands m) :
    m ≠ n ∧ (a ∈ g.operands m ∧ a ≠ n ∨ a = v ∧ n ∈ g.operands m) := by
  rw [hr.operands] at ha
  split at ha
  · cases ha
  · refine ⟨‹_›, ?_⟩
    obtain ⟨b, hb, rfl⟩ := mem_map.1 ha
    split
    · rename_i he
      exact .inr ⟨rfl, he ▸ hb⟩
    · exact .inl ⟨hb, ‹_›⟩

theorem Replaces.getElem? {index : Nat} (ha : (g'.operands m)[index]? = some a) :
    m ≠ n ∧ ((g.operands m)[index]? = some a ∧ a ≠ n ∨ a = v ∧ (g.operands m)[index]? = some n) := by
  rw [hr.operands] at ha
  split at ha
  · cases ha
  · refine ⟨‹_›, ?_⟩
    rw [getElem?_map] at ha
    obtain ⟨b, hb, rfl⟩ := Option.map_eq_some_iff.1 ha
    split
    · rename_i he
      exact .inr ⟨rfl, he ▸ hb⟩
    · exact .inl ⟨hb, ‹_›⟩

theorem Replaces.isValue (hm : g.IsValue m) (hne : m ≠ n) : g'.IsValue m := by
  refine ⟨(congrArg _ (hr.same.kind m)).trans hm.isValue, fun k hk => ?_⟩
  rw [hr.operands, if_neg hne, length_map]
  exact hm.arity k (hr.same.kind m ▸ hk)

theorem Replaces.formed (hkind : g.kind n = .condValue) (hm : g.Formed m) : g'.Formed m := by
  refine ⟨fun k hk => ?_, fun hk => ?_, fun channel hk a ha => ?_⟩
  · rw [hr.same.kind] at hk ⊢
    rw [hr.operands]
    split
    · rename_i he
      rw [he, hkind]
      exact .inr ⟨rfl, rfl⟩
    · rw [length_map, map_eq_nil_iff]
      exact hm.arity k hk
  · rw [hr.operands]
    split
    · rfl
    · rw [hm.bare (hr.same.kind m ▸ hk)]
      rfl
  · rw [hr.same.kind] at hk
    rw [hr.same.blockOf, hr.same.blockOf, hr.same.kind]
    rcases (hr.mem ha).2 with ⟨ha, -⟩ | ⟨rfl, hn⟩
    · exact hm.output channel hk a ha
    · -- An output is no output of a conditional value.
      rcases (hm.output channel hk n hn).2 with ht | ⟨-, hs⟩
      · rw [hkind] at ht
        cases ht
      · cases hkind.symm.trans hs

end Replaces

/-- What dominates an operand of a node is in the block of the node only if the
operand is. -/
theorem Strict.blockOf_eq (h : g.Strict flow dead)
    (hdom : Dominates flow.preds (g.blockOf v) (g.blockOf n)) (hn : n ∈ g.operands m)
    (hphi : (g.kind m).isPhi = false) (hb : (g.kind m).isBlock = false)
    (hreach : flow.Reaches (g.blockOf m)) (he : g.blockOf v = g.blockOf m) :
    g.blockOf n = g.blockOf m := by
  obtain ⟨path, hp, hl⟩ := hreach
  by_contra hne
  exact not_isPath_of_dominates (he ▸ hdom) (h.uses m hphi hb n hn) (Ne.symm hne) hp hl

section

variable (h : g.Strict flow dead) (hr : Replaces g g' n v)

include h hr

/-- Where one node precedes another after the replacement, it did before, or it
takes the place of a node that did. -/
theorem Strict.precedes_of_replaces
    (hdom : n ∈ g.operands m → Dominates flow.preds (g.blockOf v) (g.blockOf n))
    (hreach : flow.Reaches (g.blockOf m)) (ha : g'.Precedes a m) :
    g.Precedes a m ∨ a = v ∧ g.Precedes n m := by
  have hp := hr.same.kind m ▸ ha.isPhi
  have hb := hr.same.kind m ▸ ha.isBlock
  have he : g.blockOf a = g.blockOf m := by simpa only [hr.same.blockOf] using ha.block
  obtain ⟨-, ⟨hmem, -⟩ | ⟨rfl, hn⟩⟩ := hr.mem ha.mem
  · exact .inl ⟨hmem, he, hp, hb⟩
  · exact .inr ⟨rfl, hn, h.blockOf_eq (hdom hn) hn hp hb hreach he, hp, hb⟩

/-- **A strict graph stays in order** when a conditional value is replaced. -/
theorem Strict.acc_of_replaces (hm : (∃ m, n ∈ g.operands m) → g.MayReplace flow dead n v)
    (hreach : flow.Reaches (g.blockOf m)) : Acc g'.Precedes m := by
  have hstep : ∀ {a m}, flow.Reaches (g.blockOf m) → g'.Precedes a m →
      g.Precedes a m ∨ a = v ∧ g.Precedes n m := fun hreach =>
    h.precedes_of_replaces hr (fun hn => (hm ⟨_, hn⟩).dom) hreach
  have hb : ∀ {a m}, flow.Reaches (g.blockOf m) → g.Precedes a m → flow.Reaches (g.blockOf a) :=
    fun hreach ha => ha.block ▸ hreach
  -- Nodes that do not depend on the conditional value come after the same nodes as before.
  have hf : ∀ m, Acc g.Precedes m → flow.Reaches (g.blockOf m) →
      ¬ Relation.ReflTransGen g.Precedes n m → Acc g'.Precedes m := by
    intro m hacc
    induction hacc with
    | intro m _ ih =>
      refine fun hreach hf => ⟨m, fun a ha => ?_⟩
      rcases hstep hreach ha with ha | ⟨-, hn⟩
      · exact ih a ha (hb hreach ha) fun hp => hf (.tail hp ha)
      · exact absurd (.single hn) hf
  have hacc := h.order m hreach
  induction hacc with
  | intro m _ ih =>
    refine ⟨m, fun a ha => ?_⟩
    have hblock : g.blockOf a = g.blockOf m := by simpa only [hr.same.blockOf] using ha.block
    rcases hstep hreach ha with ha | ⟨rfl, hn⟩
    · exact ih a ha (hb hreach ha)
    · have hreach' : flow.Reaches (g.blockOf a) := hblock ▸ hreach
      exact hf a (h.order a hreach') hreach'
        ((hm ⟨m, hn.mem⟩).free (hb hreach hn))

/-- **A graph stays strict when a conditional value is replaced**; the conditional
value is dead from then on. -/
theorem Strict.replace (hkind : g.kind n = .condValue)
    (hm : (∃ m, n ∈ g.operands m) → g.MayReplace flow dead n v) :
    g'.Strict flow fun m => dead m ∨ m = n := by
  refine ⟨fun m a ha => ?_, fun m => hr.formed hkind (h.formed m), fun m index a ha channel hc => ?_,
    fun m hphi hb a ha => ?_, fun m hphi index a ha pred hp => ?_, fun m hreach => ?_⟩
  · obtain ⟨-, ⟨ha, hne⟩ | ⟨rfl, hn⟩⟩ := hr.mem ha
    · exact not_or.2 ⟨h.live m a ha, hne⟩
    · exact not_or.2 ⟨(hm ⟨m, hn⟩).live, (hm ⟨m, hn⟩).ne⟩
  · rw [hr.same.kind] at hc
    obtain ⟨-, ⟨ha, hne⟩ | ⟨rfl, hn⟩⟩ := hr.getElem? ha
    · have hf := h.typed m index a ha channel hc
      cases channel with
      | value => exact hr.isValue hf hne
      | effect => exact (congrArg _ (hr.same.kind a)).trans hf
    · have hm := hm ⟨m, mem_of_getElem? hn⟩
      have hf := h.typed m index n hn channel hc
      cases channel with
      | value => exact hr.isValue hm.isValue hm.ne
      | effect =>
        have he : (g.kind n).isEffect = true := hf
        rw [hkind] at he
        cases he
  · rw [hr.same.kind] at hphi hb
    rw [hr.same.blockOf, hr.same.blockOf]
    obtain ⟨-, ⟨ha, -⟩ | ⟨rfl, hn⟩⟩ := hr.mem ha
    · exact h.uses m hphi hb a ha
    · exact (hm ⟨m, hn⟩).dom.trans (h.uses m hphi hb n hn)
  · rw [hr.same.kind] at hphi
    rw [hr.same.blockOf] at hp ⊢
    obtain ⟨-, ⟨ha, -⟩ | ⟨rfl, hn⟩⟩ := hr.getElem? ha
    · exact h.merges m hphi index a ha pred hp
    · exact (hm ⟨m, mem_of_getElem? hn⟩).dom.trans (h.merges m hphi index n hn pred hp)
  · exact h.acc_of_replaces hr hm (hr.same.blockOf m ▸ hreach)

end

end Graph

/-! ## Making nodes -/

theorem Kind.isShareable_of_isFormula (h : k.isFormula) : k.isShareable := by
  cases k <;> first | rfl | exact h

theorem Kind.arity?_binary (h : op.hasEffect = false) : (binary op).arity? = some 2 := by
  show some (if op.hasEffect then 3 else 2) = some 2
  rw [h]
  rfl

theorem Kind.arity?_of_constant? {count : Nat} (h : k.constant? = some w)
    (hk : k.arity? = some count) : count = 0 := by
  cases k with
  | constInt | constBool => exact (Option.some.inj hk).symm
  | undefined => cases hk
  | _ => cases h

namespace Draft

/-- **A draft whose graph is strict**, with a value table that can be relied on as
long as the operands of a key are alive. -/
structure Strict (d : Draft) (flow : Graph) (dead : NodeId → Prop) : Prop
    extends d.graph.Strict flow dead where
  coherent : d.graph.Coherent
  jumps : ∀ n, (d.graph.kind n).isBlock = true →
    ∀ a ∈ d.graph.operands n, (d.graph.kind a).isTerminator = true
  gone : ∀ n, dead n → (d.graph.kind n).isPhi = true ∨ d.graph.kind n = .condValue
  reached : ∀ n, d.graph.kind n = .condValue → flow.Reaches (d.graph.blockOf n)
  table : ∀ e ∈ d.known, e.2 < d.graph.size ∧ d.graph.kind e.2 = e.1.kind ∧
    e.1.kind.isShareable = true
  shared : ∀ e ∈ d.known, e.1.kind ≠ .condValue → (∀ a ∈ e.1.operands, ¬ dead a) →
    d.graph.valueKey e.2 = e.1

variable {d e : Draft} {flow : Graph} {dead : NodeId → Prop} {block n v : NodeId} {kind : Kind}
  {operands : List NodeId}

/-- **A node that was asked for**: it computes what it should. -/
structure Made (d : Draft) (dead : NodeId → Prop) (kind : Kind) (block : NodeId)
    (operands : List NodeId) (n : NodeId) : Prop where
  lt : n < d.graph.size
  live : ¬ dead n
  key : d.graph.valueKey n = .of kind block operands

theorem Made.kind_eq (h : d.Made dead kind block operands n) : d.graph.kind n = kind :=
  congrArg ValueKey.kind h.key

theorem Made.blockOf_eq (h : d.Made dead kind block operands n) : d.graph.blockOf n = block :=
  congrArg ValueKey.block h.key

theorem Made.perm (h : d.Made dead kind block operands n) : (d.graph.operands n).Perm operands := by
  have hk : ValueKey.of (d.graph.kind n) (d.graph.blockOf n) (d.graph.operands n) = _ := h.key
  rw [h.kind_eq, h.blockOf_eq] at hk
  exact ValueKey.perm_of_of_eq hk

section Adds

variable (hadds : d.Adds kind block e)
include hadds

section

variable (hn : n < d.graph.size)

include hn

theorem Adds.lt_size : n < e.graph.size := (Nat.lt_succ_of_lt hn).trans_eq hadds.size.symm

theorem Adds.kind_of_lt : e.graph.kind n = d.graph.kind n := (hadds.kind n).trans (if_neg hn.ne)

theorem Adds.blockOf_of_lt : e.graph.blockOf n = d.graph.blockOf n :=
  (hadds.blockOf n).trans (if_neg hn.ne)

theorem Adds.valueKey : e.graph.valueKey n = d.graph.valueKey n := by
  unfold Graph.valueKey
  rw [hadds.kind_of_lt hn, hadds.blockOf_of_lt hn, hadds.operands n hn.ne]

theorem Adds.isValue (h : d.graph.IsValue n) : e.graph.IsValue n := by
  refine ⟨(congrArg _ (hadds.kind_of_lt hn)).trans h.isValue, fun k hk => ?_⟩
  rw [hadds.operands n hn.ne]
  exact h.arity k (hadds.kind_of_lt hn ▸ hk)

theorem Adds.fits {channel : Channel} (h : d.graph.Fits channel n) : e.graph.Fits channel n := by
  cases channel with
  | value => exact hadds.isValue hn h
  | effect => exact (congrArg _ (hadds.kind_of_lt hn)).trans h

end

theorem Adds.old (hne : n ≠ d.graph.size) : e.graph.kind n = d.graph.kind n ∧
    e.graph.blockOf n = d.graph.blockOf n ∧ e.graph.operands n = d.graph.operands n :=
  ⟨(hadds.kind n).trans (if_neg hne), (hadds.blockOf n).trans (if_neg hne), hadds.operands n hne⟩

theorem Adds.formed (hc : d.graph.Coherent) (hne : n ≠ d.graph.size)
    (h : d.graph.Formed n) : e.graph.Formed n := by
  obtain ⟨hkind, hb, ho⟩ := hadds.old hne
  refine ⟨fun k hk => ?_, fun hk => ?_, fun channel hk m hm => ?_⟩
  · rw [hkind] at hk ⊢
    rw [ho]
    exact h.arity k hk
  · rw [ho]
    exact h.bare (hkind ▸ hk)
  · rw [ho] at hm
    have hlt := hc.closed n m hm
    rw [hadds.blockOf_of_lt hlt, hb, hadds.kind_of_lt hlt]
    exact h.output channel (hkind ▸ hk) m hm

theorem Adds.precedes_iff (hc : d.graph.Coherent) (hne : n ≠ d.graph.size) :
    e.graph.Precedes a n ↔ d.graph.Precedes a n := by
  obtain ⟨hkind, hb, ho⟩ := hadds.old hne
  constructor <;> rintro ⟨hm, hhome, hp, hnot⟩
  · rw [ho] at hm
    rw [hadds.blockOf_of_lt (hc.closed n a hm), hb] at hhome
    exact ⟨hm, hhome, hkind ▸ hp, hkind ▸ hnot⟩
  · refine ⟨ho ▸ hm, ?_, hkind.symm ▸ hp, hkind.symm ▸ hnot⟩
    rw [hadds.blockOf_of_lt (hc.closed n a hm), hb]
    exact hhome

theorem Adds.acc (hc : d.graph.Coherent) (hlt : n < d.graph.size)
    (h : Acc d.graph.Precedes n) : Acc e.graph.Precedes n := by
  induction h with
  | intro n _ ih =>
    refine ⟨n, fun a ha => ?_⟩
    have ha := (hadds.precedes_iff hc hlt.ne).1 ha
    exact ih a ha (hc.closed n a ha.mem)

end Adds

theorem Strict.lt_of_dead (h : d.Strict flow dead) (hn : dead n) : n < d.graph.size := by
  by_contra hle
  have hkind := Builder.kind_of_size_le d.graph (not_lt.1 hle)
  rcases h.gone n hn with hp | hc
  · rw [hkind] at hp
    cases hp
  · cases hkind.symm.trans hc

theorem Strict.not_dead_of_isFormula (h : d.Strict flow dead) (hkind : (d.graph.kind n).isFormula) :
    ¬ dead n := fun hn => by
  rcases h.gone n hn with hphi | hc
  · exact absurd ((isPhi_eq_false_of_isFormula hkind).symm.trans hphi) nofun
  · rw [hc] at hkind
    cases hkind

/-- **A node is made in a strict draft**, or an equal one is found. -/
theorem Strict.add (h : d.Strict flow dead) (hkind : kind.isFormula)
    (harity : kind.arity? = some operands.length ∨ operands = [])
    (hops : ∀ a ∈ operands, a < d.graph.size ∧ ¬ dead a ∧ d.graph.IsValue a ∧
      Dominates flow.preds (d.graph.blockOf a) block) :
    (d.add kind block operands).2.Strict flow dead ∧
      (d.add kind block operands).2.Made dead kind block operands (d.add kind block operands).1 := by
  obtain ⟨hadds, hanswer⟩ := d.add_spec kind block operands
  have hcoherent := d.coherent_add kind block operands h.coherent fun a ha => (hops a ha).1
  generalize d.add kind block operands = r at hadds hanswer hcoherent
  obtain ⟨answer, e⟩ := r
  have hshare := isShareable_of_isFormula hkind
  have hcond : kind ≠ .condValue := fun he => by rw [he] at hkind; cases hkind
  have hnew : e.graph.kind d.graph.size = kind := (hadds.kind _).trans (if_pos rfl)
  have hhome : e.graph.blockOf d.graph.size = block := (hadds.blockOf _).trans (if_pos rfl)
  have hmem : ∀ a ∈ e.graph.operands d.graph.size, a ∈ operands := fun a ha => by
    rcases hanswer.operands_new with heq | heq <;> rw [heq] at ha
    · exact ha
    · cases ha
  have hclosed := h.coherent.closed
  have hf : e.graph.Formed d.graph.size := by
    refine ⟨fun k hk => ?_, fun hk => ?_, fun channel hk => ?_⟩
    · rw [hnew] at hk ⊢
      rcases hanswer.operands_new with heq | heq
      · rcases harity with harity | hnil
        · rw [heq]
          exact .inl (Option.some.inj (harity.symm.trans hk))
        · exact .inr ⟨hshare, heq.trans hnil⟩
      · exact .inr ⟨hshare, heq⟩
    · rw [hnew] at hk
      rcases harity with harity | hnil
      · rw [hk] at harity
        cases harity
      · exact hanswer.operands_new.elim (·.trans hnil) id
    · rw [hnew] at hk
      rw [hk] at hshare
      cases hshare
  have hstrict : e.Strict flow dead := by
    refine
      { live := fun m a ha => ?_, formed := fun m => ?_, typed := fun m index a ha channel hc => ?_,
        uses := fun m hphi hnot a ha => ?_, merges := fun m hphi index a ha pred hp => ?_,
        order := fun m hreach => ?_, coherent := hcoherent, jumps := fun m hm a ha => ?_,
        gone := fun m hm => ?_, reached := fun m hm => ?_, table := fun x hx => ?_, shared :=
          fun x hx hne hl => ?_ }
    · by_cases hm : m = d.graph.size
      · exact (hops a (hmem a (hm ▸ ha))).2.1
      · exact h.live m a ((hadds.old hm).2.2 ▸ ha)
    · by_cases hm : m = d.graph.size
      · exact hm ▸ hf
      · exact hadds.formed h.coherent hm (h.formed m)
    · by_cases hm : m = d.graph.size
      · rw [hm] at ha hc
        rw [hnew] at hc
        obtain ⟨hlt, -, hv, -⟩ := hops a (hmem a (mem_of_getElem? ha))
        have hi : index < operands.length := by
          rcases hanswer.operands_new with heq | heq <;> rw [heq] at ha
          · exact (List.getElem?_eq_some_iff.1 ha).1
          · cases ha
        rcases harity with harity | hnil
        · rw [eq_value_of_takes hshare harity hi hc]
          exact hadds.isValue hlt hv
        · rw [hnil] at hi
          exact absurd hi (Nat.not_lt_zero _)
      · obtain ⟨hk, -, ho⟩ := hadds.old hm
        rw [hk] at hc
        rw [ho] at ha
        exact hadds.fits (hclosed m a (mem_of_getElem? ha)) (h.typed m index a ha channel hc)
    · by_cases hm : m = d.graph.size
      · obtain ⟨hlt, -, -, hdom⟩ := hops a (hmem a (hm ▸ ha))
        rw [hm, hhome, hadds.blockOf_of_lt hlt]
        exact hdom
      · obtain ⟨hk, hb, ho⟩ := hadds.old hm
        rw [hk] at hphi hnot
        rw [ho] at ha
        rw [hb, hadds.blockOf_of_lt (hclosed m a ha)]
        exact h.uses m hphi hnot a ha
    · have hm : m ≠ d.graph.size := fun hm => by
        rw [hm, hnew, isPhi_eq_false_of_isFormula hkind] at hphi
        cases hphi
      obtain ⟨hk, hb, ho⟩ := hadds.old hm
      rw [hk] at hphi
      rw [ho] at ha
      rw [hb] at hp
      rw [hadds.blockOf_of_lt (hclosed m a (mem_of_getElem? ha))]
      exact h.merges m hphi index a ha pred hp
    · by_cases hm : m = d.graph.size
      · -- What the new node uses is old.
        refine ⟨m, fun a ha => ?_⟩
        obtain ⟨hlt, -⟩ := hops a (hmem a (hm ▸ ha.mem))
        refine hadds.acc h.coherent hlt (h.order a ?_)
        rw [← hadds.blockOf_of_lt hlt, ha.block]
        exact hreach
      · obtain ⟨hk, hb, ho⟩ := hadds.old hm
        rw [hb] at hreach
        refine ⟨m, fun a ha => ?_⟩
        have ha := (hadds.precedes_iff h.coherent hm).1 ha
        exact hadds.acc h.coherent (hclosed m a ha.mem) ((h.order m hreach).inv ha)
    · have hne : m ≠ d.graph.size := fun he => by
        rw [he, hnew, isBlock_eq_false_of_isShareable hshare] at hm
        cases hm
      obtain ⟨hk, -, ho⟩ := hadds.old hne
      rw [hk] at hm
      rw [ho] at ha
      rw [hadds.kind_of_lt (hclosed m a ha)]
      exact h.jumps m hm a ha
    · rw [hadds.kind_of_lt (h.lt_of_dead hm)]
      exact h.gone m hm
    · obtain ⟨hk, hb, -⟩ := hadds.old fun he => hcond (hnew.symm.trans (he ▸ hm))
      rw [hb]
      exact h.reached m (hk ▸ hm)
    · rcases hanswer.mem_known hx with hx | ⟨rfl, -⟩
      · obtain ⟨hlt, hk, hs⟩ := h.table x hx
        exact ⟨hadds.lt_size hlt, (hadds.kind_of_lt hlt).trans hk, hs⟩
      · exact ⟨hadds.size ▸ Nat.lt_succ_self _, hnew, hshare⟩
    · rcases hanswer.mem_known hx with hx | ⟨rfl, heq⟩
      · rw [hadds.valueKey (h.table x hx).1]
        exact h.shared x hx hne hl
      · show ValueKey.of (e.graph.kind d.graph.size) (e.graph.blockOf d.graph.size) _ = _
        rw [hnew, hhome, heq]
  refine ⟨hstrict, ?_⟩
  have hown : e.graph.operands d.graph.size = operands →
      e.Made dead kind block operands d.graph.size := fun heq => by
    refine ⟨hadds.size ▸ Nat.lt_succ_self _, hstrict.not_dead_of_isFormula (hnew ▸ hkind), ?_⟩
    show ValueKey.of (e.graph.kind d.graph.size) (e.graph.blockOf d.graph.size) _ = _
    rw [hnew, hhome, heq]
  cases hanswer with
  | unshared heq | first _ heq => exact hown heq
  | again _ hknown =>
    obtain ⟨hlt, hk, -⟩ := h.table _ hknown
    have hkey := h.shared _ hknown hcond fun a ha =>
      (hops a ((ValueKey.perm_operands_of kind block operands).mem_iff.1 ha)).2.1
    refine ⟨hadds.lt_size hlt, hstrict.not_dead_of_isFormula ?_, (hadds.valueKey hlt).trans hkey⟩
    rw [hadds.kind_of_lt hlt]
    exact hk ▸ hkind

/-! ## Lowering -/

/-- A node that is no merge depends on another through one of its operands. -/
theorem Made.free (h : d.Made dead kind block operands n) (hne : n ≠ m)
    (hops : ∀ a ∈ operands, ¬ Relation.ReflTransGen d.graph.Precedes m a) :
    ¬ Relation.ReflTransGen d.graph.Precedes m n := fun hp => by
  rcases Relation.ReflTransGen.cases_tail hp with he | ⟨a, ha, hstep⟩
  · exact hne he
  · exact hops a (h.perm.mem_iff.1 hstep.mem) ha

theorem Made.isValue (h : d.Made dead kind block operands n) (hkind : kind.isFormula)
    (ha : ∀ k, kind.arity? = some k → operands.length = k) : d.graph.IsValue n := by
  refine ⟨?_, fun k hk => ?_⟩
  · rw [h.kind_eq]
    exact isValue_of_isShareable (isShareable_of_isFormula hkind)
  · rw [h.kind_eq] at hk
    exact h.perm.length_eq.trans (ha k hk)

theorem Made.ne (h : d.Made dead kind block operands n) (hkind : kind.isFormula)
    (hm : d.graph.kind m = .condValue) : n ≠ m := fun he => by
  rw [← h.kind_eq, he, hm] at hkind
  cases hkind

/-- What depends on a node still does, and nothing else, after another node is
made. -/
theorem Adds.mayReplace (hadds : d.Adds kind block e) (hc : d.graph.Coherent)
    (hn : n < d.graph.size) (hv : v < d.graph.size) (h : d.graph.MayReplace flow dead n v) :
    e.graph.MayReplace flow dead n v := by
  refine ⟨h.ne, h.live, hadds.isValue hv h.isValue, ?_, fun hreach hp => ?_⟩
  · rw [hadds.blockOf_of_lt hn, hadds.blockOf_of_lt hv]
    exact h.dom
  · refine h.free (hadds.blockOf_of_lt hn ▸ hreach) ?_
    clear h
    induction hp with
    | refl => exact .refl
    | tail _ hstep ih =>
      have hstep := (hadds.precedes_iff hc hv.ne).1 hstep
      exact .tail (ih (hc.closed _ _ hstep.mem)) hstep

theorem Derives.old (hd : Derives block start d known e) (hn : n < d.graph.size) :
    n < e.graph.size ∧ e.graph.kind n = d.graph.kind n ∧
      e.graph.operands n = d.graph.operands n := by
  induction hd with
  | start => exact ⟨hn, rfl, rfl⟩
  | @load _ e kind _ _ _ ih =>
    have hadds := (e.add_spec kind startBlock []).1
    exact ⟨hadds.lt_size ih.1, (hadds.kind_of_lt ih.1).trans ih.2.1,
      (hadds.operands n ih.1.ne).trans ih.2.2⟩
  | @apply _ e op a b _ _ _ _ _ _ ih =>
    have hadds := (e.add_spec (.binary op) block [a, b]).1
    exact ⟨hadds.lt_size ih.1, (hadds.kind_of_lt ih.1).trans ih.2.1,
      (hadds.operands n ih.1.ne).trans ih.2.2⟩

theorem Strict.add_constant (h : d.Strict flow dead) (hc : kind.constant? = some w) :
    (d.constant kind).2.Strict flow dead ∧
      (d.constant kind).2.Made dead kind startBlock [] (d.constant kind).1 :=
  h.add (isFormula_of_constant? hc) (.inr rfl) fun _ ha => absurd ha not_mem_nil

/-- An operation on nodes that may take the place of a conditional value, in its
block. -/
theorem Strict.add_binary {b : NodeId} (h : d.Strict flow dead) (hop : op.hasEffect = false)
    (hblock : d.graph.blockOf n = block)
    (ha : a < d.graph.size ∧ d.graph.MayReplace flow dead n a)
    (hb : b < d.graph.size ∧ d.graph.MayReplace flow dead n b) :
    (d.add (.binary op) block [a, b]).2.Strict flow dead ∧
      (d.add (.binary op) block [a, b]).2.Made dead (.binary op) block [a, b]
        (d.add (.binary op) block [a, b]).1 := by
  refine h.add (isFormula_binary hop) (.inl (arity?_binary hop)) fun c hc => ?_
  simp only [mem_cons, not_mem_nil, or_false] at hc
  rcases hc with rfl | rfl
  · exact ⟨ha.1, ha.2.live, ha.2.isValue, hblock ▸ ha.2.dom⟩
  · exact ⟨hb.1, hb.2.live, hb.2.isValue, hblock ▸ hb.2.dom⟩

/-- **What is derived for a conditional value may take its place.** -/
theorem Strict.derives (hd : Derives block start d known e) (h : d.Strict flow dead)
    (hn : n < d.graph.size) (hkind : d.graph.kind n = .condValue) (hblock : d.graph.blockOf n = block)
    (hs : ∀ p ∈ start, p.1 < d.graph.size ∧ d.graph.MayReplace flow dead n p.1) :
    e.Strict flow dead ∧ (n < e.graph.size ∧ e.graph.kind n = .condValue ∧
      e.graph.blockOf n = block) ∧
      ∀ p ∈ known, p.1 < e.graph.size ∧ e.graph.MayReplace flow dead n p.1 := by
  induction hd with
  | start => exact ⟨h, ⟨hn, hkind, hblock⟩, hs⟩
  | @load known e kind w _ hconst ih =>
    obtain ⟨he, ⟨hn, hk, hb⟩, hknown⟩ := ih
    have hf := isFormula_of_constant? hconst
    obtain ⟨he', hm⟩ := he.add_constant hconst
    have hadds := (e.add_spec kind startBlock []).1
    have hk' := (hadds.kind_of_lt hn).trans hk
    refine ⟨he', ⟨hadds.lt_size hn, hk', (hadds.blockOf_of_lt hn).trans hb⟩, fun p hp => ?_⟩
    rcases mem_cons.1 hp with rfl | hp
    · refine ⟨hm.lt, hm.ne hf hk', hm.live, hm.isValue hf fun k hk => ?_,
        ?_, fun _ => hm.free (hm.ne hf hk') fun a ha => absurd ha not_mem_nil⟩
      · exact (arity?_of_constant? hconst hk).symm
      · rw [hm.blockOf_eq]
        exact startBlock_dominates _ _
    · obtain ⟨hlt, hmay⟩ := hknown p hp
      exact ⟨hadds.lt_size hlt, hadds.mayReplace he.coherent hn hlt hmay⟩
  | @apply known e op a b fa fb _ hop ha hb' ih =>
    obtain ⟨he, ⟨hn, hk, hb⟩, hknown⟩ := ih
    have hf := isFormula_binary hop
    obtain ⟨he', hm⟩ := he.add_binary hop hb (hknown _ ha) (hknown _ hb')
    have hadds := (e.add_spec (.binary op) block [a, b]).1
    have hk' := (hadds.kind_of_lt hn).trans hk
    have hb'' := (hadds.blockOf_of_lt hn).trans hb
    have hg : ∀ p ∈ known, p.1 < (e.add (.binary op) block [a, b]).2.graph.size ∧
        (e.add (.binary op) block [a, b]).2.graph.MayReplace flow dead n p.1 := fun p hp =>
      ⟨hadds.lt_size (hknown p hp).1, hadds.mayReplace he.coherent hn (hknown p hp).1 (hknown p hp).2⟩
    refine ⟨he', ⟨hadds.lt_size hn, hk', hb''⟩, fun p hp => ?_⟩
    rcases mem_cons.1 hp with rfl | hp
    · refine ⟨hm.lt, hm.ne hf hk', hm.live, hm.isValue hf fun k hk => ?_,
        ?_, fun hreach => hm.free (hm.ne hf hk') fun c hc => ?_⟩
      · exact Option.some.inj ((arity?_binary hop).symm.trans hk)
      · rw [hm.blockOf_eq, hb'']
        exact .refl _ _
      · simp only [mem_cons, not_mem_nil, or_false] at hc
        rcases hc with rfl | rfl
        · exact (hg _ ha).2.free hreach
        · exact (hg _ hb').2.free hreach
    · exact hg p hp

/-- **A draft stays strict** when one of its conditional values is replaced by a
node that may take its place. -/
theorem Strict.replace (h : d.Strict flow dead) (hr : d.graph.Replaces e.graph n v)
    (hc : e.graph.Coherent) (hk : e.known = d.known)
    (hkind : d.graph.kind n = .condValue)
    (hmay : (∃ m, n ∈ d.graph.operands m) → d.graph.MayReplace flow dead n v) :
    e.Strict flow fun m => dead m ∨ m = n := by
  refine ⟨h.toStrict.replace hr hkind hmay, hc, fun m hm a ha => ?_, fun m hm => ?_,
    fun m hm => ?_, fun x hx => ?_, fun x hx hne hl => ?_⟩
  · rw [hr.same.kind] at hm ⊢
    obtain ⟨-, ⟨ha, -⟩ | ⟨-, hn⟩⟩ := hr.mem ha
    · exact h.jumps m hm a ha
    · have ht := h.jumps m hm n hn
      rw [hkind] at ht
      cases ht
  · rw [hr.same.kind]
    rcases hm with hm | rfl
    · exact h.gone m hm
    · exact .inr hkind
  · rw [hr.same.kind] at hm
    rw [hr.same.blockOf]
    exact h.reached m hm
  · rw [hk] at hx
    rw [hr.same.size, hr.same.kind]
    exact h.table x hx
  · rw [hk] at hx
    have hkey := h.shared x hx hne fun a ha => (not_or.1 (hl a ha)).1
    have hx2 : x.2 ≠ n := fun he => hne (by rw [← (h.table x hx).2.1, he, hkind])
    -- The key does not mention the conditional value, so neither does the node.
    have hmem : ∀ a ∈ d.graph.operands x.2, a ≠ n := fun a ha => by
      refine (not_or.1 (hl a ?_)).2
      rw [← hkey]
      exact (ValueKey.perm_operands_of _ _ _).mem_iff.2 ha
    rw [← hkey]
    unfold Graph.valueKey
    rw [hr.same.kind, hr.same.blockOf, hr.operands, if_neg hx2,
      map_congr_left fun a ha => if_neg (hmem a ha), map_id']

theorem Strict.congr {dead' : NodeId → Prop} (h : d.Strict flow dead)
    (hiff : ∀ n, dead n ↔ dead' n) : d.Strict flow dead' :=
  funext (fun n => propext (hiff n)) ▸ h

theorem Strict.of_unused (h : d.Strict flow dead) (hkind : d.graph.kind n = .condValue)
    (hu : ∀ m, n ∉ d.graph.operands m) : d.Strict flow fun m => dead m ∨ m = n :=
  { h with
    live := fun m a ha => not_or.2 ⟨h.live m a ha, fun he => hu m (he ▸ ha)⟩
    gone := fun m hm => hm.elim (h.gone m) fun he => .inr (he ▸ hkind)
    shared := fun x hx hne hl => h.shared x hx hne fun a ha => (not_or.1 (hl a ha)).1 }

theorem replaces_drop (d : Draft) (n : NodeId) : d.graph.Replaces (d.drop n).graph n n := by
  refine ⟨sameNodes_detach d.graph n, fun m => ?_⟩
  refine (operands_detach d.graph n m).trans ?_
  rw [map_congr_left fun a _ => (show (if a = n then n else a) = a by split <;> simp_all),
    map_id']

theorem replaces_substitute (hc : d.graph.Coherent) (n value : NodeId) :
    d.graph.Replaces (d.substitute n value).graph n value := by
  refine ⟨(sameNodes_replaceUses d.graph n value).trans (sameNodes_detach _ n),
    fun m => (operands_detach _ n m).trans ?_⟩
  rw [hc.operands_replaceUses]

/-- **The parts of a conditional value may take its place.** -/
theorem Strict.mayReplace_of_mem (h : d.Strict flow dead) (hkind : d.graph.kind n = .condValue)
    (ha : a ∈ d.graph.operands n) :
    a < d.graph.size ∧ d.graph.MayReplace flow dead n a := by
  have hp : (d.graph.kind n).isPhi = false := by rw [hkind]; rfl
  have hb : (d.graph.kind n).isBlock = false := by rw [hkind]; rfl
  obtain ⟨index, hi⟩ := mem_iff_getElem?.1 ha
  have hf : ¬ Relation.ReflTransGen d.graph.Precedes n a :=
    h.not_reflTransGen (h.reached n hkind) hp hb ha
  exact ⟨h.coherent.closed n a ha, fun he => hf (he ▸ .refl), h.live n a ha,
    h.typed n index a hi .value (by rw [hkind]; rfl), h.uses n hp hb a ha, fun _ => hf⟩

section

variable (h : d.Strict flow dead) (hstep : Lowers d n e) (hn : n < d.graph.size)
  (hkind : d.graph.kind n = .condValue)

include h hstep hn hkind

/-- **Lowering one conditional value keeps a draft strict.** -/
theorem Strict.lowers : e.Strict flow fun m => dead m ∨ m = n := by
  have hv : ∀ m, n ∈ d.graph.operands m → d.graph.IsValue n := fun m hm =>
    h.isValue_of_mem hkind (h.jumps m) hm
  cases hstep with
  | keep ho =>
    refine h.of_unused hkind fun m hm => ?_
    have hl : (d.graph.operands n).length = 3 := (hv m hm).arity 3 (by rw [hkind]; rfl)
    match ht : d.graph.operands n, hl with
    | [cond, ifTrue, ifFalse], _ => exact ho cond ifTrue ifFalse ht
  | drop hu =>
    have hu : ∀ m, n ∉ d.graph.operands m := fun m hm => by
      have := (h.coherent.mem_users).2 hm
      rw [hu] at this
      cases this
    exact h.replace (d.replaces_drop n) (h.coherent.detach n) rfl hkind fun ⟨m, hm⟩ =>
      absurd hm (hu m)
  | @choose cond ifTrue ifFalse value e event ho hc =>
    obtain ⟨known, f, hd, hmem, -⟩ := hc
    obtain ⟨he, ⟨hn', hk, -⟩, hknown⟩ := Strict.derives hd h hn hkind rfl fun p hp =>
      h.mayReplace_of_mem hkind (ho ▸ mem_of_mem_choiceArgs hp)
    obtain ⟨hlt, hmay⟩ := hknown _ hmem
    exact he.replace (e := (e.report event).substitute n value)
      (replaces_substitute (d := e.report event) he.coherent n value)
      ((he.coherent.replaceUses hn' hlt).detach n) rfl hk fun _ => hmay

/-- A conditional value loses its operands when it is lowered, unless it has none. -/
theorem Strict.operands_lowers : e.graph.operands n = [] ∧
      ∀ m < d.graph.size, d.graph.operands m = [] → e.graph.operands m = [] := by
  cases hstep with
  | keep ho =>
    refine ⟨?_, fun _ _ => id⟩
    rcases (h.formed n).arity 3 (by rw [hkind]; rfl) with hl | ⟨-, hnil⟩
    · match ht : d.graph.operands n, hl with
      | [cond, ifTrue, ifFalse], _ => exact absurd ht (ho cond ifTrue ifFalse)
    · exact hnil
  | drop hunused =>
    have hr := d.replaces_drop n
    refine ⟨(hr.operands n).trans (if_pos rfl), fun m _ hm => ?_⟩
    rw [hr.operands, hm]
    exact ite_self _
  | @choose cond ifTrue ifFalse value e event ho hc =>
    obtain ⟨known, f, hd, hmem, -⟩ := hc
    obtain ⟨he, -⟩ := Strict.derives hd h hn hkind rfl fun p hp =>
      h.mayReplace_of_mem hkind (ho ▸ mem_of_mem_choiceArgs hp)
    have hr := replaces_substitute (d := e.report event) he.coherent n value
    refine ⟨(hr.operands n).trans (if_pos rfl), fun m hlt hm => ?_⟩
    rw [hr.operands, show (e.report event).graph.operands m = [] from (hd.old hlt).2.2.trans hm]
    exact ite_self _

end

/-- **How far lowering has come**: the conditional values that are done are dead and
have no operands. -/
structure Lowering (g flow : Graph) (dead : NodeId → Prop) (done : List NodeId) (d : Draft) :
    Prop where
  grown : Extends g d
  strict : d.Strict flow fun n => dead n ∨ n ∈ done
  lt : ∀ n ∈ done, n < g.size
  bare : ∀ n ∈ done, d.graph.operands n = []

theorem Strict.lowering (h : d.Strict flow dead) : Lowering d.graph flow dead [] d where
  grown := .refl h.coherent fun x hx => (h.table x hx).1
  strict := h.congr fun m => by simp
  lt := forall_mem_nil _
  bare := forall_mem_nil _

/-- **One step of lowering.** -/
theorem Lowering.lowers {g : Graph} {done : List NodeId} (h : Lowering g flow dead done d)
    (hstep : Lowers d n e) (hn : n < g.size) (hkind : g.kind n = .condValue)
    (hentry : (g.kind Graph.startBlock).isBlock)
    (hhome : ∀ n < g.size, (g.kind (g.blockOf n)).isBlock) :
    Lowering g flow dead (n :: done) e := by
  have hlt := hn.trans_le h.grown.size_le
  have hk := (h.grown.kind n hn).trans hkind
  obtain ⟨hnil, hb⟩ := h.strict.operands_lowers hstep hlt hk
  refine ⟨h.grown.lowers hstep hn hkind hentry (hhome n hn),
    (h.strict.lowers hstep hlt hk).congr fun m => by
      rw [mem_cons, or_assoc, or_comm (a := m ∈ done)], fun m hm => ?_, fun m hm => ?_⟩
  · rcases mem_cons.1 hm with rfl | hm
    · exact hn
    · exact h.lt m hm
  · rcases mem_cons.1 hm with rfl | hm
    · exact hnil
    · exact hb m ((h.lt m hm).trans_le h.grown.size_le) (h.bare m hm)

section

variable (h : d.Strict flow dead) (hentry : (d.graph.kind startBlock).isBlock)
  (hhome : ∀ n < d.graph.size, (d.graph.kind (d.graph.blockOf n)).isBlock)

include h hentry hhome

theorem Strict.exists_lowering : ∃ done, (∀ n, n ∈ done ↔ d.graph.kind n = .condValue) ∧
      Lowering d.graph flow dead done d.lowerConditionals.2 :=
  exists_done_lowerConditionals h.lowering fun _ _ _ _ hn hk he hstep =>
    he.lowers hstep hn hk hentry hhome

/-- Lowering all conditional values keeps a draft strict, and puts all of them
out of use. -/
theorem Strict.lowerConditionals :
    d.lowerConditionals.2.Strict flow fun n => dead n ∨ d.graph.kind n = .condValue := by
  obtain ⟨done, hd, hl⟩ := h.exists_lowering hentry hhome
  exact hl.strict.congr fun n => by rw [hd]

end

end Draft

end SsaCompiler
