import SsaCompiler.Proofs.Allocation
import SsaCompiler.Proofs.Interference.Demands

/-!
# Colours without gaps

A vertex may be given the colour of a move partner, and that colour can be
far above the number of its neighbours. Nevertheless **the colours in use are
always the first ones** (`Coloring.Compact`): a partner's colour is in use
already, and the least free colour is at most the first unused one. A new
colour is taken only if every colour in use is taken by a neighbour, so
there are no more colours than the greatest degree allows, and one.

Places follow the colours. The registers are used up before the first stack
slot is, and the slots in use have no gaps either
(`Allocation.coloring_proper_and_compact`).
-/

namespace SsaCompiler

open List

namespace Coloring

variable {g : Interference} {c : Coloring} {order : List VReg} {a x : VReg} {i k : Nat}

/-- The colours of the coloured neighbours of a vertex. -/
def taken (g : Interference) (c : Coloring) (a : VReg) : List Nat :=
  (g.neighbors a).filterMap fun n => c.lookup n

/-- **The colours in use are those below `k`.** -/
def Compact (c : Coloring) (k : Nat) : Prop :=
  ∀ i, (∃ x, c.lookup x = some i) ↔ i < k

/-- **The least free colour**: there are not more colours below it than are
taken, and all of them are. -/
theorem leastFree_spec (taken : List Nat) :
    leastFree taken ≤ taken.length ∧ ∀ i < leastFree taken, i ∈ taken := by
  unfold leastFree
  cases h : (List.range (taken.length + 1)).find? (!taken.contains ·) with
  | some k =>
    obtain ⟨-, hk, least⟩ := find?_range_eq_some.1 h
    refine ⟨Nat.le_of_lt_succ (mem_range.1 hk), fun i hi => ?_⟩
    simpa using least i hi
  | none =>
    refine ⟨le_rfl, fun i (hi : i < taken.length) => ?_⟩
    simpa using find?_eq_none.1 h i (mem_range.2 (Nat.lt_succ_of_lt hi))

/-- **The chosen colour** is in use already, or it is the least free one. -/
theorem choose_cases (g : Interference) (c : Coloring) (a : VReg) :
    (∃ x, c.lookup x = some (c.choose g a)) ∨ c.choose g a = leastFree (taken g c a) := by
  have chosen : c.choose g a = (((g.partners a).filterMap fun p => c.lookup p).find?
      (!(taken g c a).contains ·)).getD (leastFree (taken g c a)) := rfl
  rw [chosen]
  cases h : ((g.partners a).filterMap fun p => c.lookup p).find? (!(taken g c a).contains ·) with
  | some k =>
    obtain ⟨p, -, hp⟩ := mem_filterMap.1 (mem_of_find?_eq_some h)
    exact .inl ⟨p, hp⟩
  | none => exact .inr rfl

/-- A vertex is given a colour in use or the first unused one, and an unused
one only if it has as many neighbours. -/
theorem Compact.choose_le (h : Compact c k) (a : VReg) :
    c.choose g a ≤ k ∧ (c.choose g a < k ∨ c.choose g a ≤ g.degree a) := by
  rcases choose_cases g c a with used | e
  · have := (h _).1 used
    exact ⟨this.le, .inl this⟩
  · obtain ⟨few, below⟩ := leastFree_spec (taken g c a)
    rw [e]
    constructor
    · -- otherwise the first unused colour would be taken
      refine not_lt.1 fun hk => ?_
      obtain ⟨n, -, hn⟩ := mem_filterMap.1 (below k hk)
      exact absurd ((h k).1 ⟨n, hn⟩) (Nat.lt_irrefl k)
    · exact .inr (few.trans (length_filterMap_le _ _))

/-- Giving a fresh vertex a colour in use or the first unused one. -/
theorem Compact.cons (h : Compact c k) (fresh : c.lookup a = none) (hi : i ≤ k) :
    Compact ((a, i) :: c) (max k (i + 1)) := by
  intro j
  have used : (∃ x, List.lookup x ((a, i) :: c) = some j) ↔ j = i ∨ ∃ x, c.lookup x = some j := by
    constructor
    · rintro ⟨x, hx⟩
      rw [lookup_cons] at hx
      split at hx
      · exact .inl (Option.some.inj hx).symm
      · exact .inr ⟨x, hx⟩
    · rintro (rfl | ⟨x, hx⟩)
      · exact ⟨a, by rw [lookup_cons, if_pos rfl]⟩
      · have hne : x ≠ a := fun e => by rw [e, fresh] at hx; cases hx
        exact ⟨x, by rw [lookup_cons, if_neg hne, hx]⟩
  rw [used, h j]
  omega

/-- **Colouring vertices one after the other leaves no gap.** -/
theorem Compact.extend (h : Compact c k) (nodup : order.Nodup)
    (fresh : ∀ x ∈ order, c.lookup x = none) {d : Nat} (hd : ∀ x ∈ order, g.degree x ≤ d)
    (hk : k ≤ d + 1) : ∃ k' ≤ d + 1, Compact (extend g c order) k' := by
  induction order generalizing c k with
  | nil => exact ⟨k, hk, h⟩
  | cons a rest ih =>
    obtain ⟨ha, hr⟩ := nodup_cons.1 nodup
    obtain ⟨hle, hlt⟩ := h.choose_le (g := g) a
    have bound := hd a (.head _)
    refine ih (h.cons (fresh a (.head _)) hle) hr (fun x hx => ?_)
      (fun x hx => hd x (.tail _ hx)) (by omega)
    have hne : x ≠ a := fun e => ha (e ▸ hx)
    rw [lookup_cons, if_neg hne]
    exact fresh x (.tail _ hx)

/-- **An interference graph is coloured without gaps**, with no more colours
than its greatest degree and one. -/
theorem exists_compact (hg : g.WellFormed) :
    ∃ k ≤ g.maxDegree + 1, Compact (ofInterference g) k := by
  have perm := Interference.searchOrder_perm hg.sorted
  have nodup : g.vertices.Nodup := hg.sorted.imp Nat.ne_of_lt
  refine Compact.extend (k := 0) (c := []) (fun i => by simp) ?_ (fun _ _ => rfl) (fun x hx => ?_)
    (Nat.zero_le _)
  · exact nodup_reverse.2 (perm.nodup_iff.2 nodup)
  · exact Interference.degree_le_maxDegree (perm.mem_iff.1 (mem_reverse.1 hx))

end Coloring

namespace Allocation

variable {registers : List Register} {g : Interference} {a : Allocation} {x y : VReg} {k c : Nat}

theorem place_of_lt (h : c < registers.length) : place registers c = .reg registers[c] := by
  rw [place, getElem?_eq_getElem h]

theorem place_of_le (h : registers.length ≤ c) :
    place registers c = .stack ((c - registers.length) * slotSize : Nat) := by
  rw [place, getElem?_eq_none h]

theorem colorCount_le (h : ∀ p ∈ a.colors, p.2 < k) : a.colorCount ≤ k := by
  have bound : ∀ (l : List (VReg × Nat)) (most : Nat), most ≤ k → (∀ p ∈ l, p.2 < k) →
      l.foldl (fun most x => max most (x.2 + 1)) most ≤ k := by
    intro l
    induction l with
    | nil => exact fun most hm _ => hm
    | cons p rest ih =>
      intro most hm hl
      exact ih _ (Nat.max_le.2 ⟨hm, hl p (.head _)⟩) fun q hq => hl q (.tail _ hq)
  exact bound a.colors 0 (Nat.zero_le k) h

/-- **The colour count of an allocation without gaps.** -/
theorem colorCount_eq (hg : g.WellFormed) (h : Coloring.Compact (Coloring.ofInterference g) k) :
    (ofInterference registers g).colorCount = k := by
  refine (colorCount_le fun p hp => ?_).antisymm (not_lt.1 fun hlt => ?_)
  · obtain ⟨v, -, hv⟩ := mem_filterMap.1 hp
    obtain ⟨i, hi, rfl⟩ := Option.map_eq_some_iff.1 hv
    exact (h i).1 ⟨v, hi⟩
  · obtain ⟨x, hx⟩ := (h _).2 hlt
    have color : (ofInterference registers g).color? x = _ := color?_ofInterference hg x
    exact absurd (lt_colorCount (color.trans hx)) (Nat.lt_irrefl _)

/-- **Places without gaps**: a stack slot is used only if every register is, and
the slots in use are the first ones. -/
theorem location?_of_compact (h : ∀ c, (∃ x, a.color? x = some c) ↔ c < k) :
    (∀ x offset, a.location? x = some (.stack offset) →
        ∀ r ∈ a.registers, ∃ y, a.location? y = some (.reg r))
      ∧ ∀ offset, (∃ x, a.location? x = some (.stack offset))
          ↔ ∃ slot < k - a.registers.length, offset = (slotSize * slot : Nat) := by
  have spilled : ∀ {x offset}, a.location? x = some (.stack offset) →
      ∃ c, a.registers.length ≤ c ∧ c < k
        ∧ offset = ((c - a.registers.length) * slotSize : Nat) := by
    intro x offset hx
    obtain ⟨c, hc, e⟩ := Option.map_eq_some_iff.1 hx
    rcases Nat.lt_or_ge c a.registers.length with hlt | hle
    · rw [place_of_lt hlt] at e
      cases e
    · rw [place_of_le hle] at e
      exact ⟨c, hle, (h c).1 ⟨x, hc⟩, (Location.stack.inj e).symm⟩
  have placed : ∀ {c}, c < k → ∃ y, a.location? y = some (place a.registers c) := fun hc => by
    obtain ⟨y, hy⟩ := (h _).2 hc
    exact ⟨y, by rw [location?, hy]; rfl⟩
  refine ⟨fun x offset hx r hr => ?_, fun offset => ⟨?_, ?_⟩⟩
  · obtain ⟨c, hle, hk, -⟩ := spilled hx
    obtain ⟨i, hi, rfl⟩ := getElem_of_mem hr
    rw [← place_of_lt hi]
    exact placed (by omega)
  · rintro ⟨x, hx⟩
    obtain ⟨c, hle, hk, rfl⟩ := spilled hx
    exact ⟨c - a.registers.length, by omega, by rw [Nat.mul_comm]⟩
  · rintro ⟨slot, hs, e⟩
    obtain ⟨y, hy⟩ := placed (c := a.registers.length + slot) (by omega)
    rw [place_of_le (Nat.le_add_right _ _), Nat.add_sub_cancel_left, Nat.mul_comm, ← e] at hy
    exact ⟨y, hy⟩

/-- **The colouring is proper and compact.** Of every interference graph, built
from whatever demands, and every list of machine registers: exactly the
vertices are coloured, and registers that interfere have different colours,
and different places if no machine register stands twice. The colours in
use are the first `k`, where `k` is at most the greatest degree and one. So
a stack slot is used only if every machine register is, and the slots in
use fill the frame, which has one slot for every colour beyond the machine
registers. -/
theorem coloring_proper_and_compact (demands : List Demand) (registers : List Register) :
    let g := Interference.ofDemands demands
    let a := ofInterference registers g
    (∀ x, (a.color? x).isSome ↔ x ∈ g.vertices)
      ∧ (∀ x y, g.interferes x y = true → a.color? x ≠ a.color? y
          ∧ (registers.Nodup → a.location? x ≠ a.location? y))
      ∧ (∃ k ≤ g.maxDegree + 1, (∀ c, (∃ x, a.color? x = some c) ↔ c < k)
          ∧ a.spillSlots = k - registers.length)
      ∧ (∀ x offset, a.location? x = some (.stack offset) →
          ∀ r ∈ registers, ∃ y, a.location? y = some (.reg r))
      ∧ (∀ offset, (∃ x, a.location? x = some (.stack offset))
          ↔ ∃ slot < a.spillSlots, offset = (4 * slot : Nat))
      ∧ a.frameSize = 4 * a.spillSlots := by
  intro g a
  have hg : g.WellFormed := Interference.wellFormed_ofDemands demands
  have color : ∀ x, a.color? x = (Coloring.ofInterference g).lookup x := color?_ofInterference hg
  obtain ⟨proper, colored⟩ := Coloring.proper_ofInterference hg
  obtain ⟨k, hk, compact⟩ := Coloring.exists_compact hg
  have used : ∀ c, (∃ x, a.color? x = some c) ↔ c < k := fun c => by
    simp only [color]
    exact compact c
  have slots : a.spillSlots = k - registers.length := by
    rw [spillSlots, colorCount_eq hg compact]
    rfl
  have ne : ∀ {x y}, g.interferes x y = true → a.color? x ≠ a.color? y := by
    intro x y hxy e
    have hy : y ∈ g.neighbors x := List.contains_iff_mem.1 hxy
    obtain ⟨i, hi⟩ := Option.isSome_iff_exists.1 ((colored x).2 (hg.mem_vertices hy).1)
    rw [color, color] at e
    exact proper hy hi (e ▸ hi) rfl
  obtain ⟨full, offsets⟩ := location?_of_compact used
  refine ⟨fun x => by rw [color]; exact colored x, fun x y hxy => ⟨ne hxy, fun nodup e => ?_⟩,
    ⟨k, hk, used, slots⟩, full, fun offset => ?_, Nat.mul_comm _ _⟩
  · exact ne hxy (Option.map_injective (place_injective nodup) e)
  · rw [slots]
    exact offsets offset

end Allocation

end SsaCompiler
