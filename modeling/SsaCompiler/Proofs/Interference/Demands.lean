import Mathlib.Data.List.Induction
import SsaCompiler.Proofs.Interference

/-!
# Interference graphs built step by step

An interference graph need not come from a program: vertices, edges and move
pairs can be asked for in any order and any number of times
(`Interference.ofDemands`). Whatever is asked for, an edge is recorded at both
its ends, **no register is listed twice as a neighbour**, and the graph shows
exactly what was asked for. So the length of a row is the degree of a vertex.

A move pair changes neither vertices nor edges, and its registers need not
be vertices.
-/

namespace SsaCompiler

open List

variable {l : List Nat}

/-! ## Ascending rows -/

namespace Ascending

/-- A merge keeps a set ascending if what `rest` adds is greater than the merged
number. -/
theorem pairwise_mergeFrom {a : Nat} {rest : List Nat → List Nat}
    (hm : ∀ x m, x ∈ rest m ↔ x ∈ rest [] ∨ x ∈ m) (hlt : ∀ x ∈ rest [], a < x)
    (hr : ∀ m, m.Pairwise (· < ·) → (rest m).Pairwise (· < ·)) (h : l.Pairwise (· < ·)) :
    (mergeFrom a rest l).Pairwise (· < ·) := by
  induction l with
  | nil => exact pairwise_cons.2 ⟨hlt, hr [] .nil⟩
  | cons b set ih =>
    obtain ⟨hb, hs⟩ := pairwise_cons.1 h
    rw [mergeFrom]
    split
    case isTrue hab =>
      refine pairwise_cons.2 ⟨fun x hx => ?_, hr _ h⟩
      rcases (hm x _).1 hx with hx | hx
      · exact hlt x hx
      · rcases mem_cons.1 hx with rfl | hx
        · exact hab
        · exact Nat.lt_trans hab (hb x hx)
    case isFalse hab =>
      split
      case isTrue e =>
        subst e
        refine pairwise_cons.2 ⟨fun x hx => ?_, hr _ hs⟩
        exact ((hm x _).1 hx).elim (hlt x) (hb x)
      case isFalse hne =>
        refine pairwise_cons.2 ⟨fun x hx => ?_, ih hs⟩
        have hba : b < a := by omega
        rcases (mem_mergeFrom (hm x)).1 hx with rfl | hx | hx
        · exact hba
        · exact Nat.lt_trans hba (hlt x hx)
        · exact hb x hx

/-- The union of two sets is ascending. -/
theorem pairwise_union {m : List Nat} (hl : l.Pairwise (· < ·)) (hm : m.Pairwise (· < ·)) :
    (union l m).Pairwise (· < ·) := by
  induction l generalizing m with
  | nil => exact hm
  | cons a rest ih =>
    obtain ⟨ha, hr⟩ := pairwise_cons.1 hl
    exact pairwise_mergeFrom (fun x m => by simp) (fun x hx => ha x (by simpa using hx))
      (fun m hm => ih hr hm) hm

end Ascending

namespace Relation

variable {r : Relation} {a b x : Nat} {set : List Nat}

theorem mem_domain_relate :
    x ∈ (r.relate set a).domain ↔ x ∈ r.domain ∨ x = a ∧ ∃ y ∈ set, y ≠ a := by
  rw [relate_eq]
  by_cases h : ∃ y ∈ set, y ≠ a
  · rw [if_neg (by simpa using h), mem_domain_update, or_comm, and_iff_left h]
  · rw [if_pos (by simpa using h)]
    simp [h]

theorem mem_domain_join :
    x ∈ (r.join a b).domain ↔ x ∈ r.domain ∨ a ≠ b ∧ (x = a ∨ x = b) := by
  rw [join, mem_domain_relate, mem_domain_relate]
  simp only [mem_singleton, exists_eq_left]
  tauto

theorem pairwise_row_relate (h : r.Sorted) (hset : set.Pairwise (· < ·))
    (hr : ∀ x, (r.row x).Pairwise (· < ·)) : ((r.relate set a).row x).Pairwise (· < ·) := by
  rw [relate_eq]
  split
  · exact hr x
  · rw [row_update h]
    split
    · exact Ascending.pairwise_union (hset.filter _) (hr a)
    · exact hr x

theorem pairwise_row_join (h : r.Sorted) (hrow : ∀ x, (r.row x).Pairwise (· < ·)) :
    ((r.join a b).row x).Pairwise (· < ·) :=
  pairwise_row_relate h.relate (pairwise_singleton _ _) fun _ =>
    pairwise_row_relate h (pairwise_singleton _ _) hrow

end Relation

/-! ## Demands -/

/-- **One step in building an interference graph.** -/
inductive Demand where
  /-- A register is to be a vertex. -/
  | vertex (a : VReg)
  /-- Two registers interfere. -/
  | edge (a b : VReg)
  /-- Two registers are joined by a copy. -/
  | move (a b : VReg)
deriving DecidableEq

namespace Interference

variable {g : Interference} {demands : List Demand} {x y : VReg}

/-- Meet one demand. -/
def meet (g : Interference) : Demand → Interference
  | .vertex a => g.addVertex a
  | .edge a b => g.addEdge a b
  | .move a b => g.addMove a b

/-- **The interference graph that demands lead to**, met one after the
other. -/
def ofDemands (demands : List Demand) : Interference :=
  demands.foldl meet {}

/-- The number of registers a register interferes with. -/
def degree (g : Interference) (x : VReg) : Nat :=
  (g.neighbors x).length

/-- **The greatest degree of a vertex.** -/
def maxDegree (g : Interference) : Nat :=
  (g.vertices.map g.degree).foldr max 0

theorem degree_le_maxDegree (hx : x ∈ g.vertices) : g.degree x ≤ g.maxDegree := by
  have bound : ∀ l : List VReg, x ∈ l → g.degree x ≤ (l.map g.degree).foldr max 0 := by
    intro l hx
    induction l with
    | nil => cases hx
    | cons a rest ih =>
      rcases mem_cons.1 hx with rfl | hx
      · exact Nat.le_max_left _ _
      · exact Nat.le_trans (ih hx) (Nat.le_max_right _ _)
  exact bound _ hx

/-- **What a graph shows of the demands met so far.** -/
structure Shows (g : Interference) (demands : List Demand) : Prop where
  sorted : g.edges.Sorted
  ascending : ∀ x, (g.neighbors x).Pairwise (· < ·)
  mem_vertices : ∀ x, x ∈ g.vertices ↔ .vertex x ∈ demands
    ∨ ∃ y, y ≠ x ∧ (.edge x y ∈ demands ∨ .edge y x ∈ demands)
  mem_neighbors : ∀ x y, y ∈ g.neighbors x
    ↔ y ≠ x ∧ (.edge x y ∈ demands ∨ .edge y x ∈ demands)

/-- **Meeting one more demand.** -/
theorem Shows.meet (h : g.Shows demands) (d : Demand) : (g.meet d).Shows (demands ++ [d]) := by
  cases d with
  | vertex a =>
    refine ⟨h.sorted.update, fun x => ?_, fun x => ?_, fun x y => ?_⟩
    · show ((g.edges.update a id).row x).Pairwise (· < ·)
      rw [Relation.row_update h.sorted]
      split
      · exact h.ascending a
      · exact h.ascending x
    · have : x ∈ (g.addVertex a).vertices ↔ x = a ∨ x ∈ g.vertices := Relation.mem_domain_update
      rw [Interference.meet, this, h.mem_vertices]
      simp [or_assoc, or_comm]
    · rw [Interference.meet, mem_neighbors_addVertex h.sorted, h.mem_neighbors]
      simp
  | edge a b =>
    refine ⟨h.sorted.join, fun x => Relation.pairwise_row_join h.sorted h.ascending,
      fun x => ?_, fun x y => ?_⟩
    · have : x ∈ (g.addEdge a b).vertices ↔ x ∈ g.vertices ∨ a ≠ b ∧ (x = a ∨ x = b) :=
        Relation.mem_domain_join
      rw [Interference.meet, this, h.mem_vertices]
      simp only [mem_append, mem_singleton, Demand.edge.injEq, reduceCtorEq, or_false]
      constructor
      · rintro ((hx | ⟨y, hne, hy⟩) | ⟨hne, rfl | rfl⟩)
        · exact .inl hx
        · exact .inr ⟨y, hne, hy.imp .inl .inl⟩
        · exact .inr ⟨b, hne.symm, .inl (.inr ⟨rfl, rfl⟩)⟩
        · exact .inr ⟨a, hne, .inr (.inr ⟨rfl, rfl⟩)⟩
      · rintro (hx | ⟨y, hne, (hy | ⟨rfl, rfl⟩) | (hy | ⟨rfl, rfl⟩)⟩)
        · exact .inl (.inl hx)
        · exact .inl (.inr ⟨y, hne, .inl hy⟩)
        · exact .inr ⟨hne.symm, .inl rfl⟩
        · exact .inl (.inr ⟨y, hne, .inr hy⟩)
        · exact .inr ⟨hne, .inr rfl⟩
    · have : y ∈ (g.addEdge a b).neighbors x
          ↔ y ∈ g.neighbors x ∨ (y ≠ x ∧ (x = a ∧ y = b ∨ x = b ∧ y = a)) :=
        Relation.mem_row_join h.sorted
      rw [Interference.meet, this, h.mem_neighbors]
      simp only [mem_append, mem_singleton, Demand.edge.injEq]
      tauto
  | move a b =>
    exact ⟨h.sorted, h.ascending, fun x => (h.mem_vertices x).trans (by simp),
      fun x y => (h.mem_neighbors x y).trans (by simp)⟩

/-- **A graph shows the demands it was built from.** -/
theorem shows_ofDemands (demands : List Demand) : (ofDemands demands).Shows demands := by
  induction demands using List.reverseRecOn with
  | nil =>
    refine ⟨sorted_empty, fun x => .nil, fun x => ?_, fun x y => ?_⟩
    · simp [ofDemands, vertices, Relation.domain]
    · simp [ofDemands, neighbors, Relation.row]
  | append_singleton demands d ih =>
    have := ih.meet d
    rwa [show (ofDemands demands).meet d = ofDemands (demands ++ [d]) by simp [ofDemands]]
      at this

/-- Whatever is demanded, the graph is well formed. -/
theorem wellFormed_ofDemands (demands : List Demand) : (ofDemands demands).WellFormed where
  sorted := (shows_ofDemands demands).sorted
  symm := fun hy => by
    rw [(shows_ofDemands demands).mem_neighbors] at hy ⊢
    exact ⟨hy.1.symm, hy.2.symm⟩
  irrefl := fun hx => ((shows_ofDemands demands).mem_neighbors _ _).1 hx |>.1 rfl

end Interference

end SsaCompiler
