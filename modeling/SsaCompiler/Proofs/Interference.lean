import SsaCompiler.Interference
import SsaCompiler.Proofs.Liveness

/-!
# What interferes

A relation keeps its rows ascending, and every operation on it is described
by the pairs it adds. From this follows which registers of a program
interfere: **exactly those that some line keeps apart**
(`Interference.mem_neighbors_ofLiveness`).

An interference graph is **well formed** when its rows are ascending, an
edge is seen from both its ends, and the ends are vertices. The operations
that build one keep it so.
-/

namespace SsaCompiler

open List

open Liveness (lineAt)

variable {x y : VReg} {i : Nat}

/-! ## Relations -/

namespace Relation

variable {r : Relation} {a b x y : Nat} {f : List Nat → List Nat} {set : List Nat}

/-- The rows of a relation are ascending. -/
def Sorted (r : Relation) : Prop :=
  r.domain.Pairwise (· < ·)

theorem row_cons (b : Nat) (row : List Nat) (rest : Relation) :
    Relation.row ((b, row) :: rest) x = if x = b then row else rest.row x := by
  unfold Relation.row
  by_cases h : x = b
  · rw [if_pos h, h, lookup_cons_self]
    rfl
  · have : (x == b) = false := by simpa using h
    rw [if_neg h, lookup_cons, this]

theorem row_of_not_mem_domain (h : x ∉ r.domain) : r.row x = [] := by
  induction r with
  | nil => rfl
  | cons p rest ih =>
    rw [domain, map_cons, mem_cons, not_or] at h
    rw [row_cons, if_neg h.1, ih h.2]

theorem mem_domain_of_mem_row (h : y ∈ r.row x) : x ∈ r.domain := by
  by_contra hx
  rw [row_of_not_mem_domain hx] at h
  exact not_mem_nil h

/-- An update adds its number to the domain. -/
@[simp] theorem mem_domain_update : x ∈ (r.update a f).domain ↔ x = a ∨ x ∈ r.domain := by
  induction r with
  | nil => simp [update, domain]
  | cons p rest ih =>
    obtain ⟨b, row⟩ := p
    rw [update]
    split
    · simp [domain]
    · split
      · subst a
        simp [domain]
      · simp only [domain, map_cons, mem_cons] at ih ⊢
        rw [ih]
        exact or_left_comm

theorem Sorted.update (h : r.Sorted) : (r.update a f).Sorted := by
  induction r with
  | nil => exact pairwise_singleton _ _
  | cons p rest ih =>
    obtain ⟨b, row⟩ := p
    have hp : (b :: Relation.domain rest).Pairwise (· < ·) := h
    obtain ⟨hb, hr⟩ := pairwise_cons.1 hp
    rw [Relation.update]
    split
    case isTrue hab =>
      refine pairwise_cons.2 ⟨fun c hc => ?_, hp⟩
      rcases mem_cons.1 hc with rfl | hc
      · exact hab
      · exact Nat.lt_trans hab (hb c hc)
    case isFalse hab =>
      split
      · exact hp
      · refine pairwise_cons.2 ⟨fun c hc => ?_, ih hr⟩
        rcases mem_domain_update.1 hc with rfl | hc
        · show b < c
          omega
        · exact hb c hc

/-- **An update changes one row.** -/
theorem row_update (h : r.Sorted) :
    (r.update a f).row x = if x = a then f (r.row a) else r.row x := by
  induction r with
  | nil => rw [update, row_cons]; rfl
  | cons p rest ih =>
    obtain ⟨b, row⟩ := p
    obtain ⟨hb, hr⟩ := pairwise_cons.1 (show (b :: domain rest).Pairwise (· < ·) from h)
    rw [update]
    split
    case isTrue hab =>
      -- the row is new, since the rows that follow are those of greater numbers
      have : a ∉ domain ((b, row) :: rest) := by
        intro ha
        rcases mem_cons.1 ha with rfl | ha
        · omega
        · have := hb a ha
          omega
      rw [row_cons, row_of_not_mem_domain this]
    case isFalse hab =>
      split
      · rw [row_cons, row_cons, row_cons]
        split <;> simp_all
      · rw [row_cons, row_cons, row_cons, ih hr]
        split <;> split <;> simp_all

/-! ### Pairs that are added -/

theorem relate_eq : r.relate set a = if set.filter (· ≠ a) = [] then r
    else r.update a (Ascending.union (set.filter (· ≠ a))) := by
  unfold relate
  cases set.filter (· ≠ a) <;> rfl

theorem Sorted.relate (h : r.Sorted) : (r.relate set a).Sorted := by
  rw [relate_eq]
  split
  · exact h
  · exact h.update

/-- **What a number is related to** afterwards. -/
theorem mem_row_relate (h : r.Sorted) :
    y ∈ (r.relate set a).row x ↔ y ∈ r.row x ∨ (x = a ∧ y ∈ set ∧ y ≠ x) := by
  rw [relate_eq]
  by_cases hx : x = a
  · subst x
    split
    case isTrue he =>
      have none : ¬ (y ∈ set ∧ y ≠ a) := by
        intro hy
        have : y ∈ set.filter (· ≠ a) := by simpa using hy
        rw [he] at this
        exact not_mem_nil this
      simp [none]
    case isFalse he =>
      rw [row_update h, if_pos rfl]
      simp [or_comm]
  · split
    · simp [hx]
    · rw [row_update h]
      simp [hx]

theorem Sorted.foldl_relate (h : r.Sorted) (sets : Nat → List Nat) (l : List Nat) :
    (l.foldl (fun r a => r.relate (sets a) a) r).Sorted := by
  induction l generalizing r with
  | nil => exact h
  | cons a rest ih => exact ih h.relate

/-- Relating the numbers of a list one after the other, each to its own
set. -/
theorem mem_row_foldl_relate (sets : Nat → List Nat) (h : r.Sorted) (l : List Nat) :
    y ∈ (l.foldl (fun r a => r.relate (sets a) a) r).row x
      ↔ y ∈ r.row x ∨ (x ∈ l ∧ y ∈ sets x ∧ y ≠ x) := by
  induction l generalizing r with
  | nil => simp
  | cons a rest ih =>
    have own : (x = a ∧ y ∈ sets a ∧ y ≠ x) ↔ (x = a ∧ y ∈ sets x ∧ y ≠ x) :=
      and_congr_right fun e => by rw [e]
    rw [foldl_cons, ih h.relate, mem_row_relate h, own, or_assoc, ← or_and_right, mem_cons]

theorem domain_subset_relate : r.domain ⊆ (r.relate set a).domain := by
  intro x hx
  rw [relate_eq]
  split
  · exact hx
  · exact mem_domain_update.2 (.inr hx)

theorem domain_subset_foldl_relate (sets : Nat → List Nat) (l : List Nat) :
    r.domain ⊆ (l.foldl (fun r a => r.relate (sets a) a) r).domain := by
  induction l generalizing r with
  | nil => exact List.Subset.refl _
  | cons a rest ih => exact List.Subset.trans domain_subset_relate ih

theorem Sorted.join (h : r.Sorted) : (r.join a b).Sorted := h.relate.relate

theorem Sorted.joinTo (h : r.Sorted) : (r.joinTo a set).Sorted :=
  h.relate.foldl_relate (fun _ => [a]) set

theorem Sorted.joinAll (h : r.Sorted) : (r.joinAll set).Sorted := h.foldl_relate (fun _ => set) set

/-- Joining two numbers relates them both ways. -/
theorem mem_row_join (h : r.Sorted) : y ∈ (r.join a b).row x
    ↔ y ∈ r.row x ∨ (y ≠ x ∧ (x = a ∧ y = b ∨ x = b ∧ y = a)) := by
  rw [join, mem_row_relate h.relate, mem_row_relate h]
  simp only [mem_singleton]
  tauto

/-- Joining a number to a set relates it to the members both ways. -/
theorem mem_row_joinTo (h : r.Sorted) : y ∈ (r.joinTo a set).row x
    ↔ y ∈ r.row x ∨ (y ≠ x ∧ (x = a ∧ y ∈ set ∨ x ∈ set ∧ y = a)) := by
  rw [joinTo, mem_row_foldl_relate (fun _ => [a]) h.relate, mem_row_relate h]
  simp only [mem_singleton]
  tauto

/-- Joining all members of a set relates any two of them. -/
theorem mem_row_joinAll (h : r.Sorted) : y ∈ (r.joinAll set).row x
    ↔ y ∈ r.row x ∨ (y ≠ x ∧ x ∈ set ∧ y ∈ set) := by
  rw [joinAll, mem_row_foldl_relate (fun _ => set) h]
  tauto

end Relation

/-! ## The demands of a line -/

/-- **The registers an operation keeps apart** besides those live around
it: the result and the right operand, or two registers assigned at the same
time. -/
def Line.Separates (l : Line) (x y : VReg) : Prop :=
  match l.op, l.defs, l.uses with
  | .binary _, d :: _, _ :: rhs :: _ => x = d ∧ y = rhs ∨ x = rhs ∧ y = d
  | .compare _, d :: _, _ :: rhs :: _ => x = d ∧ y = rhs ∨ x = rhs ∧ y = d
  | .phiAssign, defs, _ => x ∈ defs ∧ y ∈ defs
  | _, _, _ => False

/-- **A line keeps two registers apart** if both are live into it, if it sets
one and the other is live behind it, or if its operation demands it. -/
def Liveness.KeepsApart (v : Liveness) (i : Nat) (x y : VReg) : Prop :=
  (x ∈ v.liveInAt i ∧ y ∈ v.liveInAt i)
    ∨ (x ∈ (lineAt v.lines i).defs ∧ y ∈ v.liveOutAt i)
    ∨ (x ∈ v.liveOutAt i ∧ y ∈ (lineAt v.lines i).defs)
    ∨ (lineAt v.lines i).Separates x y

namespace Line

theorem Separates.symm {l : Line} (h : l.Separates x y) : l.Separates y x := by
  unfold Separates at h ⊢
  split at h
  · exact h.symm.imp And.symm And.symm
  · exact h.symm.imp And.symm And.symm
  · exact h.symm
  · exact h

end Line

theorem Liveness.KeepsApart.symm {v : Liveness} (h : v.KeepsApart i x y) : v.KeepsApart i y x := by
  rcases h with h | h | h | h
  · exact .inl h.symm
  · exact .inr (.inr (.inl h.symm))
  · exact .inr (.inl h.symm)
  · exact .inr (.inr (.inr h.symm))

namespace Interference

variable {g : Interference} {v : Liveness} {x y : VReg}

/-- **A well-formed interference graph**: ascending rows, and no edge that is
seen from one end only or joins a register to itself. -/
structure WellFormed (g : Interference) : Prop where
  sorted : g.edges.Sorted
  symm : ∀ {x y}, y ∈ g.neighbors x → x ∈ g.neighbors y
  irrefl : ∀ {x}, x ∉ g.neighbors x

theorem WellFormed.mem_vertices (h : g.WellFormed) (hy : y ∈ g.neighbors x) :
    x ∈ g.vertices ∧ y ∈ g.vertices :=
  ⟨Relation.mem_domain_of_mem_row hy, Relation.mem_domain_of_mem_row (h.symm hy)⟩

/-! ### Vertices and edges of the operations -/

theorem mem_neighbors_addVertex (h : g.edges.Sorted) (a : VReg) :
    y ∈ (g.addVertex a).neighbors x ↔ y ∈ g.neighbors x := by
  show y ∈ (g.edges.update a id).row x ↔ _
  rw [Relation.row_update h]
  split
  case isTrue e => rw [e]; rfl
  case isFalse => rfl

theorem foldl_addVertex (l : List VReg) (h : g.edges.Sorted) : (l.foldl addVertex g).edges.Sorted
      ∧ (∀ x y, y ∈ (l.foldl addVertex g).neighbors x ↔ y ∈ g.neighbors x)
      ∧ ∀ x, x ∈ (l.foldl addVertex g).vertices ↔ x ∈ l ∨ x ∈ g.vertices := by
  induction l generalizing g with
  | nil => simpa using h
  | cons a rest ih =>
    obtain ⟨sorted, edges, vertices⟩ := ih (g := g.addVertex a) h.update
    refine ⟨sorted, fun x y => (edges x y).trans (mem_neighbors_addVertex h a), fun x => ?_⟩
    have : x ∈ (g.addVertex a).vertices ↔ x = a ∨ x ∈ g.vertices := Relation.mem_domain_update
    rw [foldl_cons, vertices, this, mem_cons, or_left_comm, or_assoc]

theorem mem_neighbors_addClique (h : g.edges.Sorted) (set : List VReg) :
    y ∈ (g.addClique set).neighbors x
      ↔ y ∈ g.neighbors x ∨ (y ≠ x ∧ x ∈ set ∧ y ∈ set) :=
  Relation.mem_row_joinAll h

theorem foldl_addStar (l set : List VReg) (h : g.edges.Sorted) :
    (l.foldl (·.addStar · set) g).edges.Sorted
      ∧ (∀ x y, y ∈ (l.foldl (·.addStar · set) g).neighbors x
          ↔ y ∈ g.neighbors x ∨ (y ≠ x ∧ (x ∈ l ∧ y ∈ set ∨ x ∈ set ∧ y ∈ l)))
      ∧ g.vertices ⊆ (l.foldl (·.addStar · set) g).vertices := by
  induction l generalizing g with
  | nil => simpa using h
  | cons a rest ih =>
    obtain ⟨sorted, edges, vertices⟩ := ih (g := g.addStar a set) h.joinTo
    refine ⟨sorted, fun x y => (edges x y).trans ?_, List.Subset.trans ?_ vertices⟩
    rotate_left
    · exact List.Subset.trans Relation.domain_subset_relate
        (Relation.domain_subset_foldl_relate _ set)
    have : y ∈ (g.addStar a set).neighbors x
        ↔ y ∈ g.neighbors x ∨ (y ≠ x ∧ (x = a ∧ y ∈ set ∨ x ∈ set ∧ y = a)) :=
      Relation.mem_row_joinTo h
    rw [this, mem_cons, mem_cons, or_assoc, ← and_or_left, or_and_right,
      and_or_left (a := x ∈ set), or_or_or_comm]

theorem edges_foldl_addMove (l : List (VReg × VReg)) :
    (l.foldl (fun g (d, u) => g.addMove d u) g).edges = g.edges := by
  induction l generalizing g with
  | nil => rfl
  | cons p rest ih => exact ih

theorem addOperation_spec (l : Line) (h : g.edges.Sorted) : (g.addOperation l).edges.Sorted
      ∧ (∀ x y, y ∈ (g.addOperation l).neighbors x ↔ y ∈ g.neighbors x ∨ (y ≠ x ∧ l.Separates x y))
      ∧ g.vertices ⊆ (g.addOperation l).vertices := by
  unfold addOperation Line.Separates
  generalize l.op = op
  generalize l.defs = defs
  generalize l.uses = uses
  have edge : ∀ a b, g.vertices ⊆ (g.addEdge a b).vertices := fun _ _ =>
    List.Subset.trans Relation.domain_subset_relate Relation.domain_subset_relate
  split
  · exact ⟨h.join, fun x y => Relation.mem_row_join h, edge _ _⟩
  · exact ⟨h.join, fun x y => Relation.mem_row_join h, edge _ _⟩
  · unfold neighbors vertices
    rw [edges_foldl_addMove]
    refine ⟨h.joinAll, fun x y => ?_, Relation.domain_subset_foldl_relate _ _⟩
    rw [addClique, Relation.mem_row_joinAll h, Ascending.mem_ofList, Ascending.mem_ofList]
  · simpa using h

/-! ### The graph of a program -/

/-- **What one line adds**: the pairs it keeps apart, and the registers it
names as vertices. -/
theorem addLine_spec (v : Liveness) (i : Nat) (h : g.edges.Sorted) : (g.addLine v i).edges.Sorted
      ∧ (∀ x y, y ∈ (g.addLine v i).neighbors x ↔ y ∈ g.neighbors x ∨ (y ≠ x ∧ v.KeepsApart i x y))
      ∧ g.vertices ⊆ (g.addLine v i).vertices
      ∧ (lineAt v.lines i).defs ++ (lineAt v.lines i).uses ⊆ (g.addLine v i).vertices := by
  let l := lineAt v.lines i
  obtain ⟨h₁, e₁, v₁⟩ := foldl_addVertex (l.defs ++ l.uses) h
  obtain ⟨h₃, e₃, v₃⟩ := foldl_addStar l.defs (v.liveOutAt i)
    (g := ((l.defs ++ l.uses).foldl addVertex g).addClique (v.liveInAt i)) h₁.joinAll
  obtain ⟨h₄, e₄, v₄⟩ := addOperation_spec l h₃
  have later : ((l.defs ++ l.uses).foldl addVertex g).vertices ⊆ (g.addLine v i).vertices :=
    List.Subset.trans (Relation.domain_subset_foldl_relate _ _) (List.Subset.trans v₃ v₄)
  refine ⟨h₄, fun x y => (e₄ x y).trans ?_, fun x hx => later ((v₁ x).2 (.inr hx)),
    fun x hx => later ((v₁ x).2 (.inl hx))⟩
  rw [e₃, mem_neighbors_addClique h₁, e₁]
  unfold Liveness.KeepsApart
  simp only [and_or_left, or_assoc, l]

theorem foldl_addLine_spec (v : Liveness) (indices : List Nat) (h : g.edges.Sorted) :
    (indices.foldl (addLine v) g).edges.Sorted
      ∧ (∀ x y, y ∈ (indices.foldl (addLine v) g).neighbors x
          ↔ y ∈ g.neighbors x ∨ (y ≠ x ∧ ∃ i ∈ indices, v.KeepsApart i x y))
      ∧ g.vertices ⊆ (indices.foldl (addLine v) g).vertices
      ∧ ∀ i ∈ indices, (lineAt v.lines i).defs ++ (lineAt v.lines i).uses
          ⊆ (indices.foldl (addLine v) g).vertices := by
  induction indices generalizing g with
  | nil => simpa using h
  | cons i rest ih =>
    obtain ⟨h₁, e₁, v₁, r₁⟩ := addLine_spec v i h
    obtain ⟨h₂, e₂, v₂, r₂⟩ := ih h₁
    refine ⟨h₂, fun x y => (e₂ x y).trans ?_, List.Subset.trans v₁ v₂, fun j hj => ?_⟩
    · rw [e₁, or_assoc, ← and_or_left, exists_mem_cons_iff]
    · rcases mem_cons.1 hj with rfl | hj
      · exact List.Subset.trans r₁ v₂
      · exact r₂ j hj

theorem sorted_empty : Relation.Sorted ({} : Interference).edges := List.Pairwise.nil

/-- Registers interfere if and only if some line keeps them apart. -/
theorem mem_neighbors_ofLiveness : y ∈ (ofLiveness v).neighbors x
    ↔ y ≠ x ∧ ∃ i < v.lines.size, v.KeepsApart i x y := by
  have := (foldl_addLine_spec v (List.range v.lines.size) sorted_empty).2.1 x y
  simpa [ofLiveness, neighbors, Relation.row] using this

/-- The interference of a program is well formed. -/
theorem wellFormed_ofLiveness (v : Liveness) : (ofLiveness v).WellFormed where
  sorted := (foldl_addLine_spec v _ sorted_empty).1
  symm h := by
    obtain ⟨hne, i, hi, apart⟩ := mem_neighbors_ofLiveness.1 h
    exact mem_neighbors_ofLiveness.2 ⟨hne.symm, i, hi, apart.symm⟩
  irrefl h := (mem_neighbors_ofLiveness.1 h).1 rfl

theorem mem_vertices_ofLiveness (hi : i < v.lines.size)
    (h : x ∈ (lineAt v.lines i).defs ∨ x ∈ (lineAt v.lines i).uses) :
    x ∈ (ofLiveness v).vertices :=
  (foldl_addLine_spec v _ sorted_empty).2.2.2 i (mem_range.2 hi)
    (mem_append.2 h)

end Interference

end SsaCompiler
