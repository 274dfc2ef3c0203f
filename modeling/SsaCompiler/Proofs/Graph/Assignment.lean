import Mathlib.Data.List.Permutation
import SsaCompiler.Program
import SsaCompiler.Proofs.Graph.Strict

/-!
# Assignments of words to nodes

An **assignment** gives every node of a graph a word. It is a solution if the
equation of every node holds (`Graph.Solves`): a constant is itself, an operation
is what it computes from its operands, and a conditional value is the arm that its
condition selects. A node that was made and then shared has lost its operands, and
no equation either.

Lowering keeps solutions. What takes the place of a conditional value is derived
from its parts, one node after the other, and the word of a derived node is what
its formula says, whether the node is new or was found in the value table
(`Draft.exists_solves_derives`). That formula is the choice only if truth values
are where they should be, which is what a marking of the nodes as integers and
truth values is for (`Graph.Marks`).
-/

namespace SsaCompiler

open List

variable {k : Kind} {w x y z : Word} {b : Bool} {cond ifTrue ifFalse : NodeId}
  {start : List (NodeId × Formula)} {f : Formula} {W' : NodeId → Word}

/-- **The word of a node** of a kind, from the words of its operands. There is none
where an operation traps or its operands are gone. -/
def Kind.word? : Kind → List Word → Option Word
  | constInt w, _ => some w
  | constBool b, _ => some (.ofBool b)
  | undefined, _ => some 0
  | binary op, a :: b :: _ => op.eval a b
  | compare op, [a, b] => some (.ofBool (op.eval a b))
  | condValue, [c, t, f] => some (if c ≠ 0 then t else f)
  | _, _ => none

/-- The type of a node, where its kind says it. -/
def Kind.ty? : Kind → Option Ty
  | constInt _ | binary _ => some .int
  | constBool _ | compare _ => some .bool
  | _ => none

theorem Kind.word?_of_constant? (h : k.constant? = some w) (args : List Word) :
    k.word? args = some w := by
  cases k <;> first | exact h | cases h

namespace Graph

/-- **The equation of a node**: its word is the one that its operands give, if they
give one. -/
def Holds (g : Graph) (V : NodeId → Word) (n : NodeId) : Prop :=
  ∀ w ∈ (g.kind n).word? ((g.operands n).map V), V n = w

/-- **An assignment solves the equations** of all nodes. -/
def Solves (g : Graph) (V : NodeId → Word) : Prop :=
  ∀ n < g.size, g.Holds V n

instance (g : Graph) (V : NodeId → Word) : DecidablePred (g.Holds V) := fun _ =>
  Option.decidableForallMem _

instance (g : Graph) (V : NodeId → Word) : Decidable (g.Solves V) :=
  inferInstanceAs (Decidable (∀ n < g.size, g.Holds V n))

/-- Whether a node is marked as a type. An undefined value counts as either. -/
def IsOf (g : Graph) (mark : NodeId → Ty) (t : Ty) (n : NodeId) : Prop :=
  mark n = t ∨ g.kind n = .undefined

/-- **A marking of the nodes** as integers and truth values: constants, operations
and comparisons are what they are, a condition is a truth value, and a conditional
value is what its arms are. -/
def Marks (g : Graph) (mark : NodeId → Ty) : Prop :=
  ∀ n < g.size, (∀ t ∈ (g.kind n).ty?, mark n = t) ∧ (g.kind n = .condValue →
    ∀ p ∈ (g.operands n).zip [.bool, mark n, mark n], g.IsOf mark p.2 p.1)

/-- **An assignment fits a marking** if truth values are zero or one. -/
def FitsMarks (g : Graph) (mark : NodeId → Ty) (V : NodeId → Word) : Prop :=
  ∀ n < g.size, mark n = .bool → V n = 0 ∨ V n = 1

instance (g : Graph) (mark : NodeId → Ty) (t : Ty) (n : NodeId) : Decidable (g.IsOf mark t n) :=
  inferInstanceAs (Decidable (mark n = t ∨ g.kind n = .undefined))

instance (g : Graph) (mark : NodeId → Ty) : Decidable (g.Marks mark) :=
  inferInstanceAs (Decidable (∀ n < g.size, (∀ t ∈ (g.kind n).ty?, mark n = t) ∧
    (g.kind n = .condValue → ∀ p ∈ (g.operands n).zip [.bool, mark n, mark n],
      g.IsOf mark p.2 p.1)))

instance (g : Graph) (mark : NodeId → Ty) (V : NodeId → Word) : Decidable (g.FitsMarks mark V) :=
  inferInstanceAs (Decidable (∀ n < g.size, mark n = .bool → V n = 0 ∨ V n = 1))

variable {g : Graph} {mark : NodeId → Ty} {V W : NodeId → Word} {n : NodeId}

theorem Solves.eq (h : g.Solves V) (hn : n < g.size) (hk : g.kind n = k)
    (hw : k.word? ((g.operands n).map V) = some w) : V n = w :=
  h n hn w (hk.symm ▸ hw)

theorem Holds.congr (h : g.Holds V n) (hops : ∀ a ∈ g.operands n, W a = V a) (hn : W n = V n) :
    g.Holds W n := by
  unfold Holds
  rw [map_congr_left hops, hn]
  exact h

theorem Marks.constBool (h : g.Marks mark) (hn : n < g.size) (hk : g.kind n = .constBool b) :
    mark n = .bool :=
  (h n hn).1 .bool (by rw [hk]; rfl)

theorem Marks.condValue (h : g.Marks mark) (hn : n < g.size) (hk : g.kind n = .condValue)
    (hops : g.operands n = [cond, ifTrue, ifFalse]) :
    g.IsOf mark .bool cond ∧ g.IsOf mark (mark n) ifTrue ∧ g.IsOf mark (mark n) ifFalse := by
  have hp := (h n hn).2 hk
  rw [hops] at hp
  exact ⟨hp (cond, .bool) (by simp), hp (ifTrue, mark n) (by simp),
    hp (ifFalse, mark n) (by simp)⟩

theorem eq_zero_or_one_of_isOf (hf : g.FitsMarks mark V) (hV : g.Solves V) (hn : n < g.size)
    (hof : g.IsOf mark .bool n) : V n = 0 ∨ V n = 1 := by
  rcases hof with hb | hu
  · exact hf n hn hb
  · exact .inl (hV.eq hn hu rfl)

end Graph

namespace Draft

variable {d e : Draft} {flow : Graph} {dead : NodeId → Prop} {kind : Kind} {block n : NodeId}
  {operands : List NodeId} {V : NodeId → Word}

/-! ## Derivations -/

/-- A node that exchanges its operands is the only one that may have them in
another order. -/
theorem Made.operands_eq (h : d.Made dead kind block operands n)
    (hk : kind.isCommutative = false) : d.graph.operands n = operands := by
  have hkey : (ValueKey.of (d.graph.kind n) (d.graph.blockOf n) (d.graph.operands n)).operands = _ :=
    congrArg ValueKey.operands h.key
  simpa [ValueKey.of, h.kind_eq, hk] using hkey

/-- **A node that was asked for has the word that was asked for.** -/
theorem Made.value_eq {op : BinOp} {a b : NodeId} (h : d.Made dead (.binary op) block [a, b] n)
    (hop : op.hasEffect = false) (hV : d.graph.Solves V) : V n = op.value (V a) (V b) := by
  obtain ⟨w, hw⟩ := Option.isSome_iff_exists.1 (BinOp.eval_isSome hop (V a) (V b))
  rw [BinOp.value, hw]
  refine hV.eq h.lt h.kind_eq ?_
  by_cases hc : op.isCommutative = true
  · rcases perm_pair.1 h.perm with ho | ho <;> rw [ho]
    · exact hw
    · exact (BinOp.eval_comm hc _ _).trans hw
  · rw [h.operands_eq (Bool.eq_false_iff.2 hc)]
    exact hw

/-- **A new node gets a word.** -/
theorem Adds.solves_update (hadds : d.Adds kind block e) (hc : d.graph.Coherent)
    (hV : d.graph.Solves V) (hops : ∀ a ∈ e.graph.operands d.graph.size, a < d.graph.size)
    (hw : ∀ v ∈ kind.word? ((e.graph.operands d.graph.size).map V), w = v) :
    e.graph.Solves (Function.update V d.graph.size w) := by
  intro n hn
  have ho : ∀ a < d.graph.size, Function.update V d.graph.size w a = V a := fun a ha =>
    Function.update_of_ne ha.ne _ _
  by_cases hne : n = d.graph.size
  · unfold Graph.Holds
    rw [hne, hadds.kind, if_pos rfl, map_congr_left fun a ha => ho a (hops a ha),
      Function.update_self]
    exact hw
  · rw [hadds.size] at hn
    have hlt : n < d.graph.size := Nat.lt_of_le_of_ne (Nat.le_of_lt_succ hn) hne
    have hh : e.graph.Holds V n := by
      unfold Graph.Holds
      rw [hadds.kind_of_lt hlt, hadds.operands n hne]
      exact hV n hlt
    refine hh.congr (fun a ha => ho a ?_) (ho n hlt)
    rw [hadds.operands n hne] at ha
    exact hc.closed n a ha

/-- **What is known of a node at hand in a derivation**: its word, and where it
comes from. -/
structure Derived (start : List (NodeId × Formula)) (e : Draft) (W : NodeId → Word) (x y z : Word)
    (p : NodeId × Formula) : Prop where
  value : W p.1 = p.2 x y z
  origin : p ∈ start ∨ (∃ w, p.2 = fun _ _ _ => w) ∨ ∃ op, e.graph.kind p.1 = .binary op

theorem Derived.of_adds {p : NodeId × Formula} (h : Derived start d V x y z p)
    (ha : d.Adds kind block e) (hp : p.1 < d.graph.size) :
    Derived start e (Function.update V d.graph.size w) x y z p where
  value := (Function.update_of_ne hp.ne _ _).trans h.value
  origin := h.origin.imp_right <| Or.imp_right fun ⟨op, hop⟩ =>
    ⟨op, (ha.kind_of_lt hp).trans hop⟩

/-- **A solution extends along a derivation**: every node at hand has the word that
its formula gives. -/
theorem exists_solves_derives {known : List (NodeId × Formula)}
    (hd : Derives block start d known e) (h : d.Strict flow dead) (hn : n < d.graph.size)
    (hkind : d.graph.kind n = .condValue) (hblock : d.graph.blockOf n = block)
    (hstart : ∀ p ∈ start, p.1 < d.graph.size ∧ d.graph.MayReplace flow dead n p.1)
    (hV : d.graph.Solves V) (hvalue : ∀ p ∈ start, V p.1 = p.2 x y z) :
    ∃ W, (∀ m < d.graph.size, W m = V m) ∧ e.graph.Solves W ∧
      ∀ p ∈ known, Derived start e W x y z p := by
  induction hd with
  | start => exact ⟨V, fun _ _ => rfl, hV, fun p hp => ⟨hvalue p hp, .inl hp⟩⟩
  | @load known e kind w hd hconst ih =>
    obtain ⟨W, ho, hW, hk⟩ := ih
    obtain ⟨he, -, hargs⟩ := Strict.derives hd h hn hkind hblock hstart
    obtain ⟨-, hmade⟩ := he.add_constant hconst
    obtain ⟨hadds, hanswer⟩ := e.add_spec kind Graph.startBlock []
    have hnil : (e.add kind Graph.startBlock []).2.graph.operands e.graph.size = [] :=
      hanswer.operands_new.elim id id
    have hs : (e.constant kind).2.graph.Solves (Function.update W e.graph.size w) :=
      hadds.solves_update he.coherent hW (fun a ha => absurd (hnil ▸ ha) not_mem_nil)
        fun v hv => Option.some.inj ((Kind.word?_of_constant? hconst _).symm.trans hv)
    refine ⟨_, fun m hm => ?_, hs, fun p hp => ?_⟩
    · exact (Function.update_of_ne (hd.old hm).1.ne _ _).trans (ho m hm)
    rcases mem_cons.1 hp with rfl | hp
    · exact ⟨hs.eq hmade.lt hmade.kind_eq (Kind.word?_of_constant? hconst _), .inr (.inl ⟨w, rfl⟩)⟩
    · exact (hk p hp).of_adds hadds (hargs p hp).1
  | @apply known e op a b fa fb hd hop ha hb ih =>
    obtain ⟨W, ho, hW, hk⟩ := ih
    obtain ⟨he, ⟨-, -, hb'⟩, hargs⟩ := Strict.derives hd h hn hkind hblock hstart
    obtain ⟨-, hmade⟩ := he.add_binary hop hb' (hargs _ ha) (hargs _ hb)
    obtain ⟨hadds, hanswer⟩ := e.add_spec (.binary op) block [a, b]
    -- The new node means the formula even where it is not the answer.
    have hs : (e.add (.binary op) block [a, b]).2.graph.Solves
        (Function.update W e.graph.size (op.value (W a) (W b))) := by
      refine hadds.solves_update he.coherent hW (fun c hc => ?_) ?_
      · have hc : c ∈ [a, b] := hanswer.operands_new.elim (fun heq => heq ▸ hc) fun heq =>
          absurd (heq ▸ hc) not_mem_nil
        simp only [mem_cons, not_mem_nil, or_false] at hc
        rcases hc with rfl | rfl
        · exact (hargs _ ha).1
        · exact (hargs _ hb).1
      · intro v hv
        rcases hanswer.operands_new with heq | heq <;> rw [heq] at hv
        · rw [BinOp.value, show op.eval (W a) (W b) = some v from hv]
          rfl
        · cases hv
    have hsame : ∀ c < e.graph.size,
        Function.update W e.graph.size (op.value (W a) (W b)) c = W c := fun c hc =>
      Function.update_of_ne hc.ne _ _
    refine ⟨_, fun m hm => (hsame m (hd.old hm).1).trans (ho m hm), hs, fun p hp => ?_⟩
    rcases mem_cons.1 hp with rfl | hp
    · refine ⟨(hmade.value_eq hop hs).trans ?_, .inr (.inr ⟨op, hmade.kind_eq⟩)⟩
      rw [hsame a (hargs _ ha).1, hsame b (hargs _ hb).1, (hk _ ha).value, (hk _ hb).value]
    · exact (hk p hp).of_adds hadds (hargs p hp).1

/-! ## Lowering -/

/-- A choice between arms that may be any words gives back a word that both arms
have. -/
theorem IsChoice.diagonal (h : d.IsChoice cond ifTrue ifFalse f)
    (ht : d.boolConst? ifTrue = none) (hf : d.boolConst? ifFalse = none) :
    ∃ x, ∀ w, f x w w = w := by
  have hs : ∀ v, d.boolConst? ifTrue ≠ some v ∧ d.boolConst? ifFalse ≠ some v := fun v => by
    rw [ht, hf]
    exact ⟨nofun, nofun⟩
  have hchoice : ∀ x, (x = 0 ∨ x = 1) → (∀ v, d.boolConst? cond = some v → x = .ofBool v) →
      ∀ w, f x w w = w := fun x hx hc w => by
    refine (h x w w hx hc (fun v hv => absurd hv (hs v).1) (fun v hv => absurd hv (hs v).2)
      (fun _ => rfl) fun hb => ?_).trans (ite_self w)
    rw [ht, hf] at hb
    exact absurd hb (by decide)
  cases hc : d.boolConst? cond with
  | none => exact ⟨0, hchoice 0 (.inl rfl) fun v hv => absurd (hc.symm.trans hv) nofun⟩
  | some v =>
    exact ⟨.ofBool v, hchoice _ (Word.ofBool_eq v) fun u hu =>
      congrArg _ (Option.some.inj (hc.symm.trans hu))⟩

/-- A node that is a truth value whatever it is used for: a constant, or a
conditional value that is marked so. -/
def IsTruth (d : Draft) (mark : NodeId → Ty) (n : NodeId) : Prop :=
  (d.boolConst? n).isSome = true ∨ d.graph.kind n = .condValue ∧ mark n = .bool

/-- **How far lowering has come**: the assignment `V` of the graph `g` extends to the
assignment `W`, and every operand that was `a` is `σ a` now and has the same word. -/
structure Tracks (g : Graph) (mark : NodeId → Ty) (V : NodeId → Word) (done : List NodeId)
    (d : Draft) (W : NodeId → Word) (σ : NodeId → NodeId) : Prop where
  old : ∀ n < g.size, W n = V n
  solves : d.graph.Solves W
  fixed : ∀ a, g.kind a ≠ .condValue → σ a = a
  lt : ∀ a < g.size, σ a < d.graph.size
  value : ∀ a < g.size, W (σ a) = V a
  /-- What stands for an integer is no truth value. -/
  truth : ∀ a < g.size, d.IsTruth mark (σ a) → mark a = .bool
  operands : ∀ n < g.size, n ∉ done → d.graph.operands n = (g.operands n).map σ

variable {g : Graph} {mark : NodeId → Ty} {W : NodeId → Word} {σ : NodeId → NodeId}
  {done : List NodeId} {value : NodeId} {known : List (NodeId × Formula)}

theorem boolConst?_eq_some : d.boolConst? n = some b ↔ d.graph.kind n = .constBool b := by
  unfold boolConst?
  cases d.graph.kind n <;> simp

theorem tracks_refl (hm : d.graph.Marks mark) (hV : d.graph.Solves V) :
    Tracks d.graph mark V [] d V id where
  old := fun _ _ => rfl
  solves := hV
  fixed := fun _ _ => rfl
  lt := fun _ ha => ha
  value := fun _ _ => rfl
  truth := fun a hlt ha => by
    rcases ha with ha | ha
    · obtain ⟨b, hb⟩ := Option.isSome_iff_exists.1 ha
      exact hm.constBool hlt (boolConst?_eq_some.1 hb)
    · exact ha.2
  operands := fun n _ _ => (map_id _).symm

theorem Tracks.keep (h : Tracks g mark V done d W σ) (n : NodeId) :
    Tracks g mark V (n :: done) d W σ :=
  { h with
    operands := fun m hm hd => h.operands m hm fun hmem => hd (.tail _ hmem) }

/-- **A conditional value is replaced by a node that has its word.** -/
theorem Tracks.replace (h : Tracks g mark V done d W σ) (hr : d.graph.Replaces e.graph n value)
    (hk : g.kind n = .condValue) (hs : d.graph.kind n = g.kind n)
    (hlt : value < d.graph.size) (hv : W value = W n)
    (ht : d.IsTruth mark value → mark n = .bool) :
    Tracks g mark V (n :: done) e W fun a => if σ a = n then value else σ a := by
  have ht' : ∀ a, e.IsTruth mark a ↔ d.IsTruth mark a := fun a => by
    unfold IsTruth boolConst?
    rw [hr.same.kind]
  have hbare : e.graph.operands n = [] := (hr.operands n).trans (if_pos rfl)
  refine ⟨h.old, fun m hm => ?_, fun a ha => ?_, fun a ha => ?_, fun a ha => ?_,
    fun a ha hb => ?_, fun m hm hd => ?_⟩
  · by_cases hmn : m = n
    · unfold Graph.Holds
      rw [hmn, hbare, hr.same.kind, hs, hk]
      exact fun w hw => absurd hw nofun
    · have hh := h.solves m (hr.same.size ▸ hm)
      unfold Graph.Holds at hh ⊢
      rw [hr.same.kind, hr.operands, if_neg hmn, map_map]
      rw [map_congr_left (g := W ∘ _) fun a _ => ?_] at hh
      · exact hh
      · show W a = W (if a = n then value else a)
        split
        · rename_i he
          rw [he, hv]
        · rfl
  · have hne : σ a ≠ n := fun he => ha (by rw [h.fixed a ha] at he; rw [he, hk])
    exact (if_neg hne).trans (h.fixed a ha)
  · rw [hr.same.size]
    split
    · exact hlt
    · exact h.lt a ha
  · split
    · rename_i he
      rw [hv, ← he, h.value a ha]
    · exact h.value a ha
  · rw [ht'] at hb
    split at hb
    · rename_i he
      exact h.truth a ha (.inr ⟨by rw [he, hs, hk], he ▸ ht hb⟩)
    · exact h.truth a ha hb
  · have hmn : m ≠ n := fun he => hd (he ▸ mem_cons_self)
    rw [hr.operands, if_neg hmn, h.operands m hm fun hmem => hd (.tail _ hmem), map_map]
    rfl

theorem Tracks.derives (h : Tracks g mark V done d W σ) (hd : Derives block start d known e)
    (hs : g.size ≤ d.graph.size) (hW : ∀ m < d.graph.size, W' m = W m)
    (hsolves : e.graph.Solves W') : Tracks g mark V done e W' σ where
  old := fun n hn => (hW n (hn.trans_le hs)).trans (h.old n hn)
  solves := hsolves
  fixed := h.fixed
  lt := fun a ha => (hd.old (h.lt a ha)).1
  value := fun a ha => (hW _ (h.lt a ha)).trans (h.value a ha)
  truth := fun a ha hb => h.truth a ha <| by
    unfold IsTruth boolConst? at hb ⊢
    rw [(hd.old (h.lt a ha)).2.1] at hb
    exact hb
  operands := fun n hn hnot => (hd.old (hn.trans_le hs)).2.2.trans (h.operands n hn hnot)

section Choice

variable {cond ifTrue ifFalse : NodeId}

/-- An arm that is a truth value makes the conditional value one. -/
theorem Tracks.mark_of_arm (h : Tracks g mark V done d W σ) {arm : NodeId} (ha : arm < g.size)
    (hext : Extends g d) (hof : g.IsOf mark (mark n) arm) (ht : d.IsTruth mark (σ arm)) :
    mark n = .bool := by
  rcases hof with hof | hu
  · exact hof.symm.trans (h.truth arm ha ht)
  · -- An undefined arm still stands for itself, and it is no truth value.
    rw [h.fixed arm (by rw [hu]; exact nofun)] at ht
    unfold IsTruth boolConst? at ht
    rw [hext.kind arm ha, hu] at ht
    rcases ht with ht | ⟨ht, -⟩ <;> cases ht

/-- **What takes the place of an integer is no truth value.** -/
theorem Tracks.mark_of_derived (h : Tracks g mark V done d W σ) (he : Extends g d)
    (hd : Derives block (choiceArgs (σ cond) (σ ifTrue) (σ ifFalse)) d known e)
    (hlt : ifTrue < g.size ∧ ifFalse < g.size)
    (hof : g.IsOf mark (mark n) ifTrue ∧ g.IsOf mark (mark n) ifFalse)
    (hv : Derived (choiceArgs (σ cond) (σ ifTrue) (σ ifFalse)) e W' x y z (value, f))
    (hchoice : d.IsChoice (σ cond) (σ ifTrue) (σ ifFalse) f) (htruth : e.IsTruth mark value) :
    mark n = .bool := by
  by_contra hi
  have htrue : ¬ d.IsTruth mark (σ ifTrue) := fun ht => hi (h.mark_of_arm hlt.1 he hof.1 ht)
  have hfalse : ¬ d.IsTruth mark (σ ifFalse) := fun hf => hi (h.mark_of_arm hlt.2 he hof.2 hf)
  have hn : ∀ m, ¬ d.IsTruth mark m → d.boolConst? m = none := fun m hm =>
    Option.not_isSome_iff_eq_none.1 fun hs => hm (.inl hs)
  obtain ⟨c, hc⟩ := hchoice.diagonal (hn _ htrue) (hn _ hfalse)
  have ho : ∀ m < d.graph.size, e.IsTruth mark m → d.IsTruth mark m := fun m hm ht => by
    unfold IsTruth boolConst? at ht ⊢
    rw [(hd.old hm).2.1] at ht
    exact ht
  rcases hv.origin with hmem | ⟨w, hw⟩ | ⟨op, hop⟩
  · simp only [choiceArgs, mem_cons, not_mem_nil, or_false] at hmem
    rcases hmem with ⟨-, rfl⟩ | ⟨rfl, -⟩ | ⟨rfl, -⟩
    · exact absurd ((hc 0).symm.trans (hc 1)) (by decide)
    · exact htrue (ho _ (h.lt _ hlt.1) htruth)
    · exact hfalse (ho _ (h.lt _ hlt.2) htruth)
  · rw [show f = fun _ _ _ => w from hw] at hc
    exact absurd ((hc 0).symm.trans (hc 1)) (by decide)
  · unfold IsTruth boolConst? at htruth
    rw [hop] at htruth
    rcases htruth with htruth | ⟨htruth, -⟩ <;> cases htruth

/-- **The word of a conditional value is its choice.** -/
theorem Tracks.choice_eq (h : Tracks g mark V done d W σ) (hext : Extends g d)
    (hfits : g.FitsMarks mark V) (hV : g.Solves V) (hlt : ∀ a ∈ [cond, ifTrue, ifFalse], a < g.size)
    (hops : d.graph.operands n = [σ cond, σ ifTrue, σ ifFalse]) (hk : d.graph.kind n = .condValue)
    (hn : n < d.graph.size) (hcond : g.IsOf mark .bool cond) (ht : g.IsOf mark (mark n) ifTrue)
    (hf : g.IsOf mark (mark n) ifFalse)
    (hchoice : d.IsChoice (σ cond) (σ ifTrue) (σ ifFalse) f) :
    f (W (σ cond)) (W (σ ifTrue)) (W (σ ifFalse)) = W n := by
  simp only [mem_cons, not_mem_nil, or_false, forall_eq_or_imp, forall_eq] at hlt
  obtain ⟨hlt, hlt', hlt''⟩ := hlt
  have hw : ∀ a < g.size, g.IsOf mark .bool a → W (σ a) = 0 ∨ W (σ a) = 1 := fun a ha hof => by
    rw [h.value a ha]
    exact Graph.eq_zero_or_one_of_isOf hfits hV ha hof
  have hc : ∀ a < g.size, ∀ v, d.boolConst? (σ a) = some v → W (σ a) = .ofBool v := by
    exact fun a ha v hv => h.solves.eq (h.lt a ha) (boolConst?_eq_some.1 hv) rfl
  have hx := hw cond hlt hcond
  rw [hchoice _ _ _ hx (hc cond hlt) (hc ifTrue hlt') (hc ifFalse hlt'')
    (fun he => by rw [he]) fun hb => ?_]
  · exact (h.solves.eq hn hk (by rw [hops]; rfl)).symm
  · have hm : mark n = .bool := hb.elim
      (fun hs => h.mark_of_arm hlt' hext ht (.inl hs))
      fun hs => h.mark_of_arm hlt'' hext hf (.inl hs)
    exact ⟨hw ifTrue hlt' (hm ▸ ht), hw ifFalse hlt'' (hm ▸ hf)⟩

end Choice

/-- **What lowering does to a conditional value keeps every word.** -/
theorem Tracks.lowers (h : Tracks g mark V done d W σ) (hstep : Lowers d n e)
    (hl : Lowering g flow dead done d) (hcoherent : g.Coherent) (hm : g.Marks mark)
    (hfits : g.FitsMarks mark V) (hV : g.Solves V) (hkind : g.kind n = .condValue) :
    ∃ W σ, Tracks g mark V (n :: done) e W σ := by
  have hext := hl.grown
  have hs := hl.strict
  have hn := lt_size_of_condValue hkind
  have hlt := hn.trans_le hext.size_le
  have hk : d.graph.kind n = .condValue := (hext.kind n hn).trans hkind
  cases hstep with
  | keep ho => exact ⟨W, σ, h.keep n⟩
  | drop hunused =>
    refine ⟨W, _, h.replace (d.replaces_drop n) hkind (hext.kind n hn) hlt rfl fun hb => ?_⟩
    rcases hb with hb | hb
    · rw [boolConst?, hk] at hb
      cases hb
    · exact hb.2
  | @choose x y z value e event ho hchosen =>
    obtain ⟨known, f, hd, hmem, hchoice⟩ := hchosen
    have hnot : n ∉ done := fun hmem => absurd (ho.symm.trans (hl.bare n hmem)) nofun
    -- The operands were a condition and two arms from the start.
    obtain ⟨cond, ifTrue, ifFalse, hold, rfl, rfl, rfl⟩ : ∃ cond ifTrue ifFalse,
        g.operands n = [cond, ifTrue, ifFalse] ∧ σ cond = x ∧ σ ifTrue = y ∧ σ ifFalse = z := by
      have hmap := (h.operands n hn hnot).symm.trans ho
      match hthree : g.operands n with
      | [cond, ifTrue, ifFalse] =>
        rw [hthree] at hmap
        simpa using hmap
      | [] | [_] | [_, _] | _ :: _ :: _ :: _ :: _ =>
        rw [hthree] at hmap
        simp at hmap
    obtain ⟨hcond, htrue, hf⟩ := hm.condValue hn hkind hold
    have hc : ∀ a ∈ [cond, ifTrue, ifFalse], a < g.size := fun a ha =>
      hcoherent.closed n a (hold ▸ ha)
    have hmay : ∀ p ∈ choiceArgs (σ cond) (σ ifTrue) (σ ifFalse), p.1 < d.graph.size ∧
        d.graph.MayReplace flow (fun m => dead m ∨ m ∈ done) n p.1 := fun p hp =>
      hs.mayReplace_of_mem hk (ho ▸ mem_of_mem_choiceArgs hp)
    obtain ⟨W', hW', hsolves, hknown⟩ := exists_solves_derives hd hs hlt hk rfl hmay h.solves
      (x := W (σ cond)) (y := W (σ ifTrue)) (z := W (σ ifFalse)) fun p hp => by
        simp only [choiceArgs, mem_cons, not_mem_nil, or_false] at hp
        rcases hp with rfl | rfl | rfl <;> rfl
    obtain ⟨he, ⟨hlt', hk', -⟩, hargs⟩ := Strict.derives hd hs hlt hk rfl hmay
    have htracks := h.derives hd hext.size_le hW' hsolves
    refine ⟨W', _, htracks.replace (replaces_substitute (d := e.report event) he.coherent n value)
      hkind (hk'.trans hkind.symm) (hargs _ hmem).1 ?_ fun ht => ?_⟩
    · rw [(hknown _ hmem).value, hW' n hlt]
      exact h.choice_eq hext hfits hV hc ho hk hlt hcond htrue hf hchoice
    · exact h.mark_of_derived hext hd ⟨hc _ (by simp), hc _ (by simp)⟩
        ⟨htrue, hf⟩ (hknown _ hmem) hchoice ht

/-- **Every solution of the equations of a graph extends to the lowered graph.** -/
theorem Strict.exists_tracks (h : d.Strict flow dead)
    (he : (d.graph.kind Graph.startBlock).isBlock)
    (hh : ∀ n < d.graph.size, (d.graph.kind (d.graph.blockOf n)).isBlock)
    (hm : d.graph.Marks mark) (hf : d.graph.FitsMarks mark V) (hV : d.graph.Solves V) :
    ∃ done W σ, (∀ n, n ∈ done ↔ d.graph.kind n = .condValue) ∧
      Tracks d.graph mark V done d.lowerConditionals.2 W σ := by
  obtain ⟨done, hd, -, W, σ, ht⟩ := exists_done_lowerConditionals
    (P := fun done e => Lowering d.graph flow dead done e ∧ ∃ W σ, Tracks d.graph mark V done e W σ)
    ⟨h.lowering, V, id, tracks_refl hm hV⟩
    fun _ _ _ _ hn hk ⟨hl, _, _, ht⟩ hs =>
      ⟨hl.lowers hs hn hk he hh, ht.lowers hs hl h.coherent hm hf hV hk⟩
  exact ⟨done, W, σ, hd, ht⟩

end Draft

end SsaCompiler
