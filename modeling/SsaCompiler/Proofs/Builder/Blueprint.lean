import SsaCompiler.Builder
import SsaCompiler.Proofs.Graph.Path

/-!
# Where values come from

A blueprint says what is needed of a finished construction to tell what
every node stands for along a control path: the predecessors of every block,
the block of every node, the slot of every merge, what the caller wrote last
in every block, and the node for a slot that was never written. It is fixed
before the construction is looked at, and the states of the builder are
measured by it. **So what holds at one point of a construction is not put
in doubt by edges that come later.**

Along a path, a node stands for an **origin**: a node that is not a merge,
and the number of edges after which the path came to its block. A merge
stands for what reached its block. What reaches the end of a block is what
was written there last, or else what reached its start.

The main result is about a merge all of whose operands are itself or one
other node. Such a merge and that node stand for the same origin wherever
the merge may be used (`same_of_trivial`), so retiring it is sound.
-/

namespace SsaCompiler

open Graph (startBlock endBlock)

variable {edge : NodeId × Nat} {m phi : NodeId}

/-- **What a construction comes to.** -/
structure Blueprint where
  /-- The predecessors of a block, one for each edge into it. -/
  preds : NodeId → List NodeId
  block : NodeId → NodeId
  /-- The slot a merge was made for; none if the node is not a merge. -/
  slot : NodeId → Option Slot
  /-- What the caller wrote last in a block. -/
  written : NodeId → Slot → Option NodeId
  /-- What a slot holds before it is written. -/
  unset : Slot → NodeId
  /-- The nodes that a variable may hold. -/
  value : NodeId → Prop
  /-- The nodes that the effect chain may hold. -/
  effect : NodeId → Prop
  /-- The nodes that depend on nothing. -/
  leaf : NodeId → Prop

/-- A node, and the number of edges after which a path came to it. -/
abbrev Origin := NodeId × Nat

namespace Blueprint

variable (F : Blueprint)

/-- The nodes that a slot of a channel may hold. -/
def Fits : Channel → NodeId → Prop
  | .value => F.value
  | .effect => F.effect

/-- One block on: what nodes and slots stand for at its end, from what they
stood for at its start. -/
def through (block : NodeId) (steps : Nat)
    (start : (NodeId → Origin) × (Slot → Origin)) : (NodeId → Origin) × (Slot → Origin) :=
  let here := fun n =>
    if F.block n = block then (F.slot n).elim (n, steps) start.2 else start.1 n
  (here, fun slot => (F.written block slot).elim (start.2 slot) here)

/-- What nodes and slots stand for before anything was done. -/
def initial : (NodeId → Origin) × (Slot → Origin) :=
  (fun n => (n, 0), fun slot => (F.unset slot, 0))

/-- What nodes and slots stand for at the end of a path. -/
def meaning : Path → (NodeId → Origin) × (Slot → Origin)
  | [] => F.through startBlock 0 F.initial
  | edge :: path => F.through edge.1 (path.length + 1) (meaning path)

/-- What they stand for at the start of its last block. -/
def meaningBefore : Path → (NodeId → Origin) × (Slot → Origin)
  | [] => F.initial
  | _ :: path => F.meaning path

/-- **What a node stands for** at the end of a path. -/
def origin (path : Path) (n : NodeId) : Origin :=
  (F.meaning path).1 n

/-- **What a slot holds** at the end of a path. -/
def reaching (path : Path) (slot : Slot) : Origin :=
  (F.meaning path).2 slot

/-- What a slot holds at the start of the last block of a path. -/
def incoming (path : Path) (slot : Slot) : Origin :=
  (F.meaningBefore path).2 slot

theorem meaning_eq (path : Path) :
    F.meaning path = F.through (Path.last path) path.length (F.meaningBefore path) := by
  cases path <;> rfl

variable {F} {path : Path} {n : NodeId} {slot : Slot}

theorem origin_merge (hb : F.block n = Path.last path) (hs : F.slot n = some slot) :
    F.origin path n = F.incoming path slot := by
  unfold origin incoming
  rw [meaning_eq]
  show (if _ then _ else _) = _
  rw [if_pos hb, hs]
  rfl

theorem origin_self (hb : F.block n = Path.last path) (hs : F.slot n = none) :
    F.origin path n = (n, path.length) := by
  unfold origin
  rw [meaning_eq]
  show (if _ then _ else _) = _
  rw [if_pos hb, hs]
  rfl

theorem origin_cons (hb : F.block n ≠ edge.1) :
    F.origin (edge :: path) n = F.origin path n := by
  show (if F.block n = edge.1 then _ else _) = _
  rw [if_neg hb]
  rfl

theorem incoming_cons : F.incoming (edge :: path) slot = F.reaching path slot := rfl

theorem reaching_eq : F.reaching path slot =
      (F.written (Path.last path) slot).elim (F.incoming path slot) (F.origin path) := by
  unfold reaching origin incoming
  rw [meaning_eq]
  rfl

/-! ## What the builder has to get right -/

/-- One block dominates another in the finished construction. -/
abbrev Dom (F : Blueprint) (block block' : NodeId) : Prop :=
  Dominates F.preds block block'

/-- A path leads to the block. -/
def Reachable (F : Blueprint) (block : NodeId) : Prop :=
  ∃ path, IsPath F.preds path ∧ Path.last path = block

/-- A node comes before another of its block: it is a merge, depends on
nothing, or was made earlier. -/
def Before (F : Blueprint) (n m : NodeId) : Prop :=
  F.slot n ≠ none ∨ F.leaf n ∨ n < m

/-- **A node may use another**: the other is there on every path, and where
both are in one block it comes before. -/
structure MayUse (F : Blueprint) (n m : NodeId) : Prop where
  dom : F.Dom (F.block m) (F.block n)
  before : F.Reachable (F.block n) → F.block m = F.block n → F.Before m n

/-- **One node may take the place of another** wherever the other may be
used. -/
structure Same (F : Blueprint) (n m : NodeId) : Prop where
  dom : F.Dom (F.block m) (F.block n)
  fits : ∀ {channel}, F.Fits channel n → F.Fits channel m
  origin : ∀ path, IsPath F.preds path → F.Dom (F.block n) (Path.last path) →
    F.origin path n = F.origin path m

/-- **A node is the right operand of a merge** for the edge with an index: it
stands for what reaches the end of the predecessor. -/
def Feeds (F : Blueprint) (phi : NodeId) (index : Nat) (n : NodeId) : Prop :=
  ∀ pred, (F.preds (F.block phi))[index]? = some pred → F.Dom (F.block n) pred ∧
    ∀ slot, F.slot phi = some slot → F.Fits slot.channel n ∧
      ∀ path, IsPath F.preds path → Path.last path = pred → F.origin path n = F.reaching path slot

/-- What a slot holds at the end of what has been built of a block, if
`written` are the caller's writes so far. -/
def current (F : Blueprint) (written : NodeId → Slot → Option NodeId) (path : Path)
    (slot : Slot) : Origin :=
  (written (Path.last path) slot).elim (F.incoming path slot) (F.origin path)

/-- **A node is the right definition of a slot** at the end of what has been
built of a block. -/
structure Holds (F : Blueprint) (written : NodeId → Slot → Option NodeId) (slot : Slot)
    (block n : NodeId) : Prop where
  dom : F.Dom (F.block n) block
  fits : F.Fits slot.channel n
  origin : ∀ path, IsPath F.preds path → Path.last path = block →
    F.origin path n = F.current written path slot

theorem Same.refl (n : NodeId) : F.Same n n := ⟨.refl _ _, id, fun _ _ _ => rfl⟩

theorem Same.trans {k : NodeId} (h : F.Same n m) (h' : F.Same m k) : F.Same n k :=
  ⟨h'.dom.trans h.dom, fun hn => h'.fits (h.fits hn), fun path hp hd =>
    (h.origin path hp hd).trans (h'.origin path hp (h.dom.trans hd))⟩

/-- What takes the place of a merge may be used where the merge was. -/
theorem MayUse.of_same {value : NodeId} (h : F.MayUse n phi) (hs : F.Same phi value)
    (hstrict : F.Reachable (F.block phi) → F.block value = F.block phi → F.leaf value) :
    F.MayUse n value := by
  refine ⟨hs.dom.trans h.dom, fun hr he => ?_⟩
  obtain ⟨path, hp, hl⟩ := hr
  -- The merge is in the same block too, or the block would not be reached.
  have hphi : F.block phi = F.block n := by
    by_contra hne
    exact not_isPath_of_dominates (he ▸ hs.dom) h.dom (Ne.symm hne) hp hl
  exact .inr (.inl (hstrict ⟨path, hp, hl.trans hphi.symm⟩ (he.trans hphi.symm)))

theorem Feeds.of_same {index : Nat} (h : F.Feeds phi index n) (hs : F.Same n m) :
    F.Feeds phi index m := by
  intro pred hpred
  obtain ⟨hd, hr⟩ := h pred hpred
  refine ⟨hs.dom.trans hd, fun slot hslot => ?_⟩
  obtain ⟨hf, ho⟩ := hr slot hslot
  refine ⟨hs.fits hf, fun path hp hl => ?_⟩
  rw [← hs.origin path hp (hl.symm ▸ hd)]
  exact ho path hp hl

theorem Holds.of_same {written : NodeId → Slot → Option NodeId} {block : NodeId}
    (h : F.Holds written slot block n) (hs : F.Same n m) :
    F.Holds written slot block m := by
  refine ⟨hs.dom.trans h.dom, hs.fits h.fits, fun path hp hl => ?_⟩
  rw [← hs.origin path hp (hl.symm ▸ h.dom)]
  exact h.origin path hp hl

/-! ## Trivial merges -/

section Trivial

variable {phi value : NodeId}

section

variable (hstart : F.block phi ≠ startBlock)

include hstart

theorem dom_of_trivial
    (h : ∀ (index : Nat) pred, (F.preds (F.block phi))[index]? = some pred →
      ∃ a, (a = phi ∨ a = value) ∧ F.Dom (F.block a) pred) :
    F.Dom (F.block value) (F.block phi) := by
  intro path hp
  induction hn : path.length using Nat.strongRecOn generalizing path with
  | ind n ih =>
    intro hl
    cases hp with
    | nil => exact absurd hl.symm hstart
    | @cons path block index hp he =>
      obtain rfl : block = F.block phi := hl
      obtain ⟨a, rfl | rfl, hd⟩ := h index _ he
      · -- Around a loop: the path has been at the merge before.
        obtain ⟨path', hs, hl'⟩ := (hd path hp rfl).exists_suffix
        have hlt : path'.length < n := by
          rw [← hn]
          exact Nat.lt_succ_of_le hs.length_le
        exact .inr ((ih _ hlt path' (hp.of_suffix hs) rfl hl').of_suffix hs)
      · exact .inr (hd path hp rfl)

/-- If a trivial merge can be reached, it is not in the block of its value. -/
theorem ne_of_trivial
    (h : ∀ (index : Nat) pred, (F.preds (F.block phi))[index]? = some pred →
      ∃ a, (a = phi ∨ a = value) ∧ F.Dom (F.block a) pred)
    (hr : F.Reachable (F.block phi)) : F.block value ≠ F.block phi := by
  obtain ⟨path, hp, hl⟩ := hr
  intro he
  refine not_isPath_of_edges hstart (fun index pred hpred => ?_) hp hl
  obtain ⟨a, rfl | rfl, hedge⟩ := h index pred hpred
  · exact hedge
  · exact he ▸ hedge

/-- **A trivial merge and its only other operand stand for the same.** -/
theorem same_of_trivial (hslot : F.slot phi = some slot)
    (hfits : ∀ {channel}, F.Fits channel phi → F.Fits channel value)
    (h : ∀ (index : Nat) pred, (F.preds (F.block phi))[index]? = some pred →
      ∃ a, (a = phi ∨ a = value) ∧ F.Feeds phi index a) : F.Same phi value := by
  have hd : ∀ (index : Nat) pred, (F.preds (F.block phi))[index]? = some pred →
      ∃ a, (a = phi ∨ a = value) ∧ F.Dom (F.block a) pred := fun index pred hpred => by
    obtain ⟨a, ha, hf⟩ := h index pred hpred
    exact ⟨a, ha, (hf pred hpred).1⟩
  have hdom := dom_of_trivial hstart hd
  refine ⟨hdom, hfits, fun path hp => ?_⟩
  induction hn : path.length using Nat.strongRecOn generalizing path with
  | ind n ih =>
    intro hphi
    obtain ⟨path₀, hs₀, hl₀⟩ := (hphi path hp rfl).exists_suffix
    have hne := ne_of_trivial hstart hd ⟨path₀, hp.of_suffix hs₀, hl₀⟩
    cases hp with
    | nil => exact absurd (hphi [] .nil rfl) hstart
    | @cons path block index hp hedge =>
      have hlt : path.length < n := by
        rw [← hn]
        exact Nat.lt_succ_self _
      by_cases hb : F.block phi = block
      · subst hb
        obtain ⟨a, ha, hf⟩ := h index _ hedge
        obtain ⟨hdoma, hr⟩ := hf _ hedge
        rw [origin_merge rfl hslot, incoming_cons, origin_cons hne, ← (hr slot hslot).2 path hp rfl]
        rcases ha with rfl | rfl
        · exact ih _ hlt path hp rfl hdoma
        · rfl
      · have hv : F.block value ≠ block := fun he =>
          not_isPath_of_dominates hdom (he ▸ hphi) hne (hp.cons hedge) he.symm
        rw [origin_cons hb, origin_cons hv]
        exact ih _ hlt path hp rfl (hphi.of_edge hb hedge)

/-- A merge of nothing but itself is never reached, so any node will do, if
only it dominates the merge. -/
theorem same_of_unreachable
    (h : ∀ (index : Nat) pred, (F.preds (F.block phi))[index]? = some pred → F.Feeds phi index phi)
    (hdom : F.Dom (F.block value) (F.block phi)) (hf : ∀ channel, F.Fits channel value) :
    F.Same phi value := by
  refine ⟨hdom, fun _ => hf _, fun path hp hphi => ?_⟩
  obtain ⟨path₀, hs₀, hl₀⟩ := (hphi path hp rfl).exists_suffix
  refine absurd hl₀ (not_isPath_of_edges hstart (fun index pred hpred => ?_) (hp.of_suffix hs₀))
  exact (h index pred hpred pred hpred).1

end

/-- In the start block, a merge stands for what a slot holds before it is
written. -/
theorem same_of_start (hpreds : F.preds startBlock = [])
    (hphi : F.block phi = startBlock) (hs : F.slot phi = some slot)
    (hv : F.block value = startBlock) (hn : F.slot value = none)
    (hu : F.unset slot = value) (hf : ∀ channel, F.Fits channel value) :
    F.Same phi value := by
  refine ⟨hphi ▸ hv ▸ .refl _ _, fun _ => hf _, fun path hp _ => ?_⟩
  induction hp with
  | nil =>
    rw [origin_merge hphi hs, origin_self hv hn, ← hu]
    rfl
  | @cons path block index hp hedge ih =>
    have hb : startBlock ≠ block := fun he => by
      rw [← he, hpreds] at hedge
      cases hedge
    rw [origin_cons (hphi ▸ hb), origin_cons (hv ▸ hb)]
    exact ih (hphi ▸ startBlock_dominates _ _)

end Trivial

end Blueprint

end SsaCompiler
