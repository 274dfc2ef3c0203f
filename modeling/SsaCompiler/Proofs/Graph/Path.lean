import Mathlib.Data.List.Basic
import SsaCompiler.Graph.Basic

/-!
# Control paths and dominance

A control path starts at the start block and is the list of the edges it
takes, **the latest first**. An edge is told by the block it enters and by
its place among the edges into that block, so two edges between the same
blocks are different. What a path is depends only on the predecessors of
every block, which are a parameter here.

A block dominates another if every path to the other visits it. Nothing is
asked of blocks that no path leads to: they are dominated by every block.
-/

namespace SsaCompiler

open List
open Graph (startBlock endBlock)

/-- **A list of edges**, the latest first: the block that is entered, and
which of the edges into it is taken. -/
abbrev Path := List (NodeId × Nat)

variable {path path' : Path} {block : NodeId}

namespace Path

/-- The block where a path ends. -/
def last : Path → NodeId
  | [] => startBlock
  | edge :: _ => edge.1

/-- Whether a path comes through a block. -/
def Visits : Path → NodeId → Prop
  | [], block => block = startBlock
  | edge :: path, block => block = edge.1 ∨ Path.Visits path block

theorem visits_last (path : Path) : Path.Visits path (Path.last path) := by
  cases path with
  | nil => rfl
  | cons => exact .inl rfl

theorem visits_startBlock (path : Path) : Path.Visits path startBlock := by
  induction path with
  | nil => rfl
  | cons _ _ ih => exact .inr ih

theorem Visits.of_suffix (hs : path <:+ path') (h : Path.Visits path block) :
    Path.Visits path' block := by
  obtain ⟨new, rfl⟩ := hs
  induction new with
  | nil => exact h
  | cons _ _ ih => exact .inr ih

/-- A path that visits a block has come to it. -/
theorem Visits.exists_suffix (h : Path.Visits path block) :
    ∃ path', path' <:+ path ∧ Path.last path' = block := by
  induction path with
  | nil => exact ⟨[], suffix_refl _, h.symm⟩
  | cons edge path ih =>
    rcases h with rfl | h
    · exact ⟨edge :: path, suffix_refl _, rfl⟩
    · obtain ⟨path', hs, hl⟩ := ih h
      exact ⟨path', hs.trans (suffix_cons _ _), hl⟩

end Path

/-- **The paths of a control flow**, given by the predecessors of every
block. -/
inductive IsPath (preds : NodeId → List NodeId) : Path → Prop
  | nil : IsPath preds []
  | cons {path : Path} {block : NodeId} {index : Nat} (h : IsPath preds path)
      (hedge : (preds block)[index]? = some (Path.last path)) : IsPath preds ((block, index) :: path)

/-- The predecessors of a block, one for each edge into it. -/
def Graph.preds (g : Graph) (block : NodeId) : List NodeId :=
  (g.operands block).map g.blockOf

/-- **A path leads to the block.** -/
def Graph.Reaches (g : Graph) (block : NodeId) : Prop :=
  ∃ path, IsPath g.preds path ∧ Path.last path = block

/-- **One block dominates another**: no path to the other avoids it. -/
def Dominates (preds : NodeId → List NodeId) (block block' : NodeId) : Prop :=
  ∀ path, IsPath preds path → Path.last path = block' → Path.Visits path block

section

variable {preds : NodeId → List NodeId} {path : Path} {a b c : NodeId}

theorem IsPath.of_suffix (h : IsPath preds path') (hs : path <:+ path') : IsPath preds path := by
  obtain ⟨new, rfl⟩ := hs
  induction new with
  | nil => exact h
  | cons _ _ ih =>
    cases h with
    | cons h => exact ih h

/-- A path is one wherever the blocks it enters have these predecessors, and
perhaps more after them. -/
theorem IsPath.mono {preds' : NodeId → List NodeId} (h : IsPath preds path)
    (hle : ∀ edge ∈ path, preds edge.1 <+: preds' edge.1) : IsPath preds' path := by
  induction h with
  | nil => exact .nil
  | @cons path block index h hedge ih =>
    refine .cons (ih fun edge he => hle edge (.tail _ he)) ?_
    obtain ⟨rest, hr⟩ := hle (block, index) (.head _)
    rw [← hr, List.getElem?_append_left (List.getElem?_eq_some_iff.1 hedge).1]
    exact hedge

theorem Dominates.refl (preds : NodeId → List NodeId) (a : NodeId) : Dominates preds a a :=
  fun path _ hl => hl ▸ Path.visits_last path

theorem startBlock_dominates (preds : NodeId → List NodeId) (a : NodeId) :
    Dominates preds startBlock a :=
  fun path _ _ => Path.visits_startBlock path

theorem Dominates.trans (h : Dominates preds a b) (h' : Dominates preds b c) :
    Dominates preds a c := by
  intro path hp hl
  obtain ⟨path', hs, hl'⟩ := (h' path hp hl).exists_suffix
  exact (h path' (hp.of_suffix hs) hl').of_suffix hs

theorem Dominates.of_edge (h : Dominates preds a b) (hne : a ≠ b) {index : Nat}
    (hedge : (preds b)[index]? = some c) : Dominates preds a c := by
  intro path hp hl
  rcases h ((b, index) :: path) (hp.cons (hl.symm ▸ hedge)) rfl with he | hv
  · exact absurd he hne
  · exact hv

theorem dominates_of_edges (hb : b ≠ startBlock)
    (h : ∀ (index : Nat) c, (preds b)[index]? = some c → Dominates preds a c) :
    Dominates preds a b := by
  intro path hp hl
  cases hp with
  | nil => exact absurd hl.symm hb
  | @cons path block index hp he =>
    obtain rfl : block = b := hl
    exact .inr (h index _ he path hp rfl)

/-- **A block that dominates its own predecessors cannot be reached.** -/
theorem not_isPath_of_edges (hb : b ≠ startBlock)
    (h : ∀ (index : Nat) c, (preds b)[index]? = some c → Dominates preds b c)
    (hp : IsPath preds path) : Path.last path ≠ b := by
  induction hn : path.length using Nat.strongRecOn generalizing path with
  | ind n ih =>
    intro hl
    cases hp with
    | nil => exact hb hl.symm
    | @cons path block index hp he =>
      obtain rfl : block = b := hl
      obtain ⟨path', hs, hl'⟩ := (h index _ he path hp rfl).exists_suffix
      have hlt : path'.length < n := by
        rw [← hn, length_cons]
        exact Nat.lt_succ_of_le hs.length_le
      exact ih _ hlt (hp.of_suffix hs) rfl hl'

theorem not_isPath_of_dominates (h : Dominates preds a b) (h' : Dominates preds b a)
    (hne : a ≠ b) (hp : IsPath preds path) : Path.last path ≠ a := by
  induction hn : path.length using Nat.strongRecOn generalizing path with
  | ind n ih =>
    intro hl
    obtain ⟨path₁, hs₁, hlast₁⟩ := (h' path hp hl).exists_suffix
    obtain ⟨path₂, hs₂, hlast₂⟩ := (h path₁ (hp.of_suffix hs₁) hlast₁).exists_suffix
    have hlt : path₂.length < n := by
      rw [← hn]
      refine Nat.lt_of_le_of_ne (hs₂.trans hs₁).length_le fun he => hne ?_
      have hle : path₁.length ≤ path₂.length := he.symm ▸ hs₁.length_le
      rw [← hlast₂, ← hlast₁, hs₂.eq_of_length_le hle]
    exact ih _ hlt ((hp.of_suffix hs₁).of_suffix hs₂) rfl hlast₂

end

end SsaCompiler
