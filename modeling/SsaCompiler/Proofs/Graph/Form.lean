import SsaCompiler.Proofs.Builder.Sound
import SsaCompiler.Proofs.Builder.Move

/-!
# The form of nodes

A node of a kind asks for a number of operands and for what flows along them
(`Kind.arity?`, `Kind.takes`). **A node is a value** if it stands for a word and
has all it asks for (`Graph.IsValue`). A node that was made and then shared has
lost its operands; nothing uses it, and apart from such nodes every node of a
graph is *formed* (`Graph.Formed`).
-/

namespace SsaCompiler

open Option Graph

variable {k : Kind} {count : Nat} {g : Graph} {n : NodeId}

/-! ## What nodes stand for -/

/-- Whether a node may trap. -/
def Kind.mayTrap : Kind → Bool
  | binary op => op.hasEffect
  | _ => false

theorem Kind.mayTrap_eq_false_of_isTerminator (h : k.isTerminator) : k.mayTrap = false := by
  cases k <;> first | rfl | cases h

theorem Kind.mayTrap_eq_false_of_isPhi (h : k.isPhi) : k.mayTrap = false := by
  cases k <;> first | rfl | cases h

/-- Whether a node stands for a word. -/
def Kind.isValue : Kind → Bool
  | constInt _ | constBool _ | undefined | binary _ | compare _ | condValue => true
  | phi .value | proj .value => true
  | _ => false

/-- Whether a node stands for the order of effects. -/
def Kind.isEffect : Kind → Bool
  | undefined | phi .effect | proj .effect => true
  | _ => false

/-- Whether a node computes a word from others. -/
def Kind.isComputation : Kind → Bool
  | binary _ | compare _ | condValue => true
  | _ => false

/-- **The number of operands** that a node of a kind asks for. Blocks and merges
have as many as there are edges, and an undefined value needs none. -/
def Kind.arity? : Kind → Option Nat
  | start | constInt _ | constBool _ | jump _ => some 0
  | proj _ | condJump _ _ => some 1
  | compare _ | ret => some 2
  | binary op => some (if op.hasEffect then 3 else 2)
  | condValue => some 3
  | block _ | phi _ | undefined => none

/-- **A node is a value**: it stands for a word, and it has the operands to
compute it from. -/
structure Graph.IsValue (g : Graph) (n : NodeId) : Prop where
  isValue : (g.kind n).isValue = true
  arity : ∀ k, (g.kind n).arity? = some k → (g.operands n).length = k

theorem Kind.isComputation_of_mayTrap (h : k.mayTrap) : k.isComputation := by
  cases k <;> first | rfl | cases h

theorem Kind.isPhi_eq_false_of_arity? (h : k.arity? = some count) : k.isPhi = false := by
  cases k <;> first | rfl | cases h

theorem Kind.isBlock_eq_false_of_arity? (h : k.arity? = some count) : k.isBlock = false := by
  cases k <;> first | rfl | cases h

theorem Graph.isValue_of_arity?_eq_none (h : (g.kind n).arity? = none)
    (hv : (g.kind n).isValue) : g.IsValue n :=
  ⟨hv, fun _ hk => absurd (h.symm.trans hk) nofun⟩

/-- **A node has the form of its kind.** A node that was made and then shared has
lost its operands. The outputs of an operation are next to it. -/
structure Graph.Formed (g : Graph) (n : NodeId) : Prop where
  arity : ∀ k, (g.kind n).arity? = some k → (g.operands n).length = k ∨
    (g.kind n).isShareable = true ∧ g.operands n = []
  bare : g.kind n = .undefined → g.operands n = []
  output : ∀ channel, g.kind n = .proj channel → ∀ m ∈ g.operands n,
    g.blockOf m = g.blockOf n ∧ ((g.kind m).mayTrap = true ∨ channel = .effect ∧ g.kind m = .start)

theorem Graph.formed_of_arity (hkind : (g.kind n).arity? = some count)
    (ha : (g.operands n).length = count) (hp : (g.kind n).isProj = false) :
    g.Formed n where
  arity := fun _ hk => .inl (ha.trans (some.inj (hkind.symm.trans hk)))
  bare := fun hk => by rw [hk] at hkind; cases hkind
  output := fun channel hk => by rw [hk] at hp; cases hp

theorem Graph.formed_of_operands_eq_nil (hkind : (g.kind n).arity? = none)
    (hn : g.operands n = []) : g.Formed n where
  arity := fun _ hk => absurd (hkind.symm.trans hk) nofun
  bare := fun _ => hn
  output := fun _ _ _ hm => absurd (hn ▸ hm) List.not_mem_nil

theorem Graph.formed_of_ne_undefined (hkind : (g.kind n).arity? = none)
    (hne : g.kind n ≠ .undefined) : g.Formed n where
  arity := fun _ hk => absurd (hkind.symm.trans hk) nofun
  bare := fun hk => absurd hk hne
  output := fun channel hk => by rw [hk] at hkind; cases hkind

theorem Graph.formed_of_isPhi (h : (g.kind n).isPhi) : g.Formed n := by
  refine formed_of_ne_undefined ?_ fun hk => by rw [hk] at h; cases h
  cases hk : g.kind n <;> rw [hk] at h <;> first | rfl | cases h

theorem Graph.formed_of_isBlock (h : (g.kind n).isBlock) : g.Formed n := by
  refine formed_of_ne_undefined ?_ fun hk => by rw [hk] at h; cases h
  cases hk : g.kind n <;> rw [hk] at h <;> first | rfl | cases h

theorem Kind.isPhi_eq_false_of_mayTrap (h : k.mayTrap) : k.isPhi = false := by
  cases k <;> first | rfl | cases h

theorem Kind.isValue_of_isShareable (h : k.isShareable) : k.isValue := by
  cases k <;> first | rfl | cases h

theorem Kind.isProj_eq_false_of_isShareable (h : k.isShareable) : k.isProj = false := by
  cases k <;> first | rfl | cases h

theorem Kind.eq_value_of_takes (h : k.isShareable) {index : Nat} (ha : k.arity? = some count)
    (hi : index < count) {channel : Channel} (hc : channel ∈ k.takes index) :
    channel = .value := by
  cases k with
  | binary op =>
    have hop : (!op.hasEffect) = true := h
    have hcount : some (if op.hasEffect then 3 else 2) = some count := ha
    have hc : (if index < 2 then some Channel.value else some .effect) = some channel := hc
    rw [Bool.not_eq_true'] at hop
    rw [hop] at hcount
    obtain rfl : 2 = count := some.inj hcount
    rw [if_pos hi] at hc
    exact (some.inj hc).symm
  | compare | condValue => exact (some.inj hc).symm
  | constInt | constBool | undefined => cases show none = some channel from hc
  | _ => cases show false = true from h

theorem Kind.isComputation_eq_false_of_isPhi (h : k.isPhi) : k.isComputation = false := by
  cases k <;> first | rfl | cases h

theorem Kind.isComputation_eq_false_of_isBlock (h : k.isBlock) : k.isComputation = false := by
  cases k <;> first | rfl | cases h

theorem Kind.isComputation_eq_false_of_isTerminator (h : k.isTerminator) :
    k.isComputation = false := by
  cases k <;> first | rfl | cases h

theorem Kind.exists_eq_proj (h : k.isProj) : ∃ channel, k = .proj channel := by
  cases k with
  | proj channel => exact ⟨channel, rfl⟩
  | _ => cases h

theorem Kind.isProj_eq_false_of_isTerminator (h : k.isTerminator) : k.isProj = false := by
  cases k <;> first | rfl | cases h

/-- What flows along an edge of a channel. -/
def Graph.Fits (g : Graph) : Channel → NodeId → Prop
  | .value => g.IsValue
  | .effect => fun n => (g.kind n).isEffect = true

end SsaCompiler
