import SsaCompiler.Proofs.Graph.Evaluation

/-!
# Outcomes along a path

The **outcome** of a node at the end of a control path is a word, or a trap
(`none`). Most operations need all their operands, so they trap where an operand
does. A choice needs its condition and the value that the condition chooses, and
nothing else. As with words, a merge hands on what the operand for the edge has,
and a node of another block keeps what it had (`Graph.Evaluates`).

There is one outcome at most (`Graph.Evaluates.unique`), and it is that of the
node which a merge comes from (`Graph.evaluates_iff_of_chase`).
-/

namespace SsaCompiler

open List Option

variable {k : Kind} {words : List (Option Word)}

namespace Kind

/-- The kinds of nodes that are computed from all their arguments. -/
def isEager : Kind → Bool
  | constInt _ | constBool _ | undefined | binary _ | compare _ | proj .value => true
  | _ => false

/-- **The outcome of a computation**, from those of its arguments. -/
def outcome (k : Kind) (words : List (Option Word)) : Option Word :=
  (words.mapM id).bind k.result?

theorem outcome_swap (h : k.isCommutative) (x y : Option Word) :
    k.outcome [x, y] = k.outcome [y, x] := by
  cases x with
  | none => cases y <;> rfl
  | some x =>
    cases y with
    | none => rfl
    | some y => exact result?_swap h x y

theorem outcome_value (x : Option Word) : (proj .value).outcome [x] = x := by
  cases x <;> rfl

theorem argumentCount_of_isCommutative (h : k.isCommutative) : k.argumentCount = 2 := by
  cases k <;> first | rfl | cases h

/-- **Exchanging arguments** where that does not matter keeps the outcome. -/
theorem exists_outcome_of_perm {α : Type} {R : α → Option Word → Prop} {as bs : List α}
    (hp : bs.Perm as) (hs : k.isCommutative = false → bs = as)
    (hcount : as.length = k.argumentCount) (h : List.Forall₂ R as words) :
    ∃ words', List.Forall₂ R bs words' ∧ k.outcome words' = k.outcome words := by
  cases hc : k.isCommutative with
  | false => exact ⟨words, hs hc ▸ h, rfl⟩
  | true =>
    rw [argumentCount_of_isCommutative hc] at hcount
    obtain ⟨a, b, rfl⟩ := length_eq_two.1 hcount
    cases h with
    | cons ha hb =>
    cases hb with
    | cons hb hnil =>
    cases hnil
    rcases perm_pair.1 hp with rfl | rfl
    · exact ⟨_, .cons ha (.cons hb .nil), rfl⟩
    · exact ⟨_, .cons hb (.cons ha .nil), outcome_swap hc _ _⟩

theorem isPhi_eq_false_of_isEager (h : k.isEager) : k.isPhi = false := by
  cases k <;> first | rfl | cases h

end Kind

/-- **A node has an outcome at the end of a path.** -/
inductive Graph.Evaluates (g : Graph) : Path → NodeId → Option Word → Prop
  | pass {edge : NodeId × Nat} {path : Path} {n : NodeId} {r : Option Word}
      (hne : g.blockOf n ≠ edge.1) (h : Evaluates g path n r) : Evaluates g (edge :: path) n r
  | merge {edge : NodeId × Nat} {path : Path} {n a : NodeId} {r : Option Word}
      (hblock : g.blockOf n = edge.1) (hphi : (g.kind n).isPhi = true)
      (ha : (g.operands n)[edge.2]? = some a) (h : Evaluates g path a r) :
      Evaluates g (edge :: path) n r
  | here {path : Path} {n : NodeId} {V : NodeId → Option Word}
      (hblock : g.blockOf n = Path.last path) (hkind : (g.kind n).isEager = true)
      (hcount : (g.arguments n).length = (g.kind n).argumentCount)
      (hargs : ∀ a ∈ g.arguments n, Evaluates g path a (V a)) :
      Evaluates g path n ((g.kind n).outcome ((g.arguments n).map V))
  | choose {path : Path} {n cond a b : NodeId} {c : Word} {r : Option Word}
      (hblock : g.blockOf n = Path.last path) (hkind : g.kind n = .condValue)
      (hops : g.operands n = [cond, a, b]) (hcond : Evaluates g path cond (some c))
      (h : Evaluates g path (if c ≠ 0 then a else b) r) : Evaluates g path n r
  | stuck {path : Path} {n cond a b : NodeId}
      (hblock : g.blockOf n = Path.last path) (hkind : g.kind n = .condValue)
      (hops : g.operands n = [cond, a, b]) (hcond : Evaluates g path cond none) :
      Evaluates g path n none

namespace Graph

variable {g : Graph} {path : Path} {edge : NodeId × Nat} {n a : NodeId} {r r' : Option Word}

/-- **A node has one outcome at most.** -/
theorem Evaluates.unique (h : g.Evaluates path n r) (h' : g.Evaluates path n r') : r = r' := by
  induction h generalizing r' with
  | pass hne h ih =>
    cases h' with
    | pass _ h' => exact ih h'
    | merge hb | here hb | choose hb | stuck hb => exact absurd hb hne
  | merge hb hp ha h ih =>
    cases h' with
    | pass hne => exact absurd hb hne
    | merge _ _ ha' h' =>
      cases ha.symm.trans ha'
      exact ih h'
    | here _ hk => cases (Kind.isPhi_eq_false_of_isEager hk).symm.trans hp
    | choose _ hk | stuck _ hk => rw [hk] at hp; cases hp
  | here hb hk _ hargs ih =>
    cases h' with
    | pass hne => exact absurd hb hne
    | merge _ hp => cases (Kind.isPhi_eq_false_of_isEager hk).symm.trans hp
    | here _ _ _ hargs' => rw [map_congr_left fun a ha => ih a ha (hargs' a ha)]
    | choose _ hk' | stuck _ hk' => rw [hk'] at hk; cases hk
  | choose hb hk ho hc h ihcond ih =>
    cases h' with
    | pass hne => exact absurd hb hne
    | merge _ hp => rw [hk] at hp; cases hp
    | here _ hk' => rw [hk] at hk'; cases hk'
    | choose _ _ hops' hc' h' =>
      obtain ⟨rfl, rfl, rfl⟩ : _ ∧ _ ∧ _ := by simpa using ho.symm.trans hops'
      cases ihcond hc'
      exact ih h'
    | stuck _ _ hops' hc' =>
      obtain ⟨rfl, rfl, rfl⟩ : _ ∧ _ ∧ _ := by simpa using ho.symm.trans hops'
      cases ihcond hc'
  | stuck hb hk ho hc ih =>
    cases h' with
    | pass hne => exact absurd hb hne
    | merge _ hp => rw [hk] at hp; cases hp
    | here _ hk' => rw [hk] at hk'; cases hk'
    | choose _ _ hops' hc' =>
      obtain ⟨rfl, rfl, rfl⟩ : _ ∧ _ ∧ _ := by simpa using ho.symm.trans hops'
      cases ih hc'
    | stuck => rfl

/-- A node is computed from the outcomes of its arguments. -/
theorem evaluates_of_forall₂ (hb : g.blockOf n = Path.last path) (hk : (g.kind n).isEager)
    (hc : (g.arguments n).length = (g.kind n).argumentCount)
    (ha : List.Forall₂ (g.Evaluates path) (g.arguments n) words) :
    g.Evaluates path n ((g.kind n).outcome words) := by
  obtain ⟨V, rfl, hV⟩ := exists_assignment (fun _ _ _ hx hy => hx.unique hy) ha
  exact .here hb hk hc hV

theorem evaluates_cons_iff (hne : g.blockOf n ≠ edge.1) :
    g.Evaluates (edge :: path) n r ↔ g.Evaluates path n r := by
  refine ⟨fun h => ?_, .pass hne⟩
  cases h with
  | pass _ h => exact h
  | merge hb | here hb | choose hb | stuck hb => exact absurd hb hne

theorem evaluates_merge_iff (hb : g.blockOf n = edge.1) (hp : (g.kind n).isPhi)
    (ha : (g.operands n)[edge.2]? = some a) :
    g.Evaluates (edge :: path) n r ↔ g.Evaluates path a r := by
  refine ⟨fun h => ?_, .merge hb hp ha⟩
  cases h with
  | pass hne => exact absurd hb hne
  | merge _ _ ha' h =>
    cases ha.symm.trans ha'
    exact h
  | here _ hk => cases (Kind.isPhi_eq_false_of_isEager hk).symm.trans hp
  | choose _ hk | stuck _ hk => rw [hk] at hp; cases hp

/-- **A node has the outcome of what it comes from.** -/
theorem evaluates_iff_of_chase {origin : Origin} (h : g.chase path n = some origin) :
    g.Evaluates path n r ↔ g.Evaluates (path.upTo origin.2) origin.1 r := by
  induction path generalizing n with
  | nil =>
    unfold chase at h
    split at h
    · cases h
    · cases h
      exact Iff.rfl
  | cons edge path ih =>
    unfold chase at h
    split at h
    · rw [Path.upTo_cons (le_length_of_chase h), evaluates_cons_iff ‹_›]
      exact ih h
    rename_i hb
    split at h
    · obtain ⟨a, ha, hc⟩ := bind_eq_some_iff.1 h
      rw [Path.upTo_cons (le_length_of_chase hc), evaluates_merge_iff (not_not.1 hb) ‹_› ha]
      exact ih hc
    · cases h
      rw [show Path.upTo (edge :: path) (path.length + 1) = edge :: path from
        Path.upTo_length (edge :: path)]

end Graph

end SsaCompiler
