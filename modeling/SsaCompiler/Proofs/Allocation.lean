import SsaCompiler.Allocation
import SsaCompiler.Proofs.Interference
import SsaCompiler.Proofs.Machine.Frame

/-!
# Registers that interfere have different places

The search order is a permutation of the vertices, so every vertex is
coloured once. A colour is chosen among those that no coloured neighbour
has, and an edge is seen from both its ends; hence the colouring is
**proper** whatever the order (`Coloring.proper_ofInterference`).

Colours become places one by one, so registers that a line keeps apart are
given different places (`Allocation.location?_ne`), and every place is an
allocatable register or a slot within the frame
(`Allocation.assignable_of_location?`).
-/

namespace SsaCompiler

open List Interference Coloring

variable {weights : Weights} {l' : Location} {a : Allocation}

/-! ## The search order -/

namespace Interference

theorem heaviest?_mem {x : VReg × Nat} (h : heaviest? weights = some x) : x ∈ weights := by
  induction weights generalizing x with
  | nil => simp [heaviest?] at h
  | cons y rest ih =>
    rw [heaviest?] at h
    cases hr : heaviest? rest with
    | none =>
      rw [hr] at h
      cases h
      exact .head _
    | some z =>
      simp only [hr] at h
      split at h
      · cases h
        exact .tail _ (ih hr)
      · cases h
        exact .head _

theorem eq_nil_of_heaviest?_eq_none (h : heaviest? weights = none) : weights = [] := by
  cases weights with
  | nil => rfl
  | cons y rest =>
    rw [heaviest?] at h
    cases hr : heaviest? rest with
    | none => simp [hr] at h
    | some z =>
      simp only [hr] at h
      split at h <;> simp at h

theorem map_fst_take (g : Interference) (a : VReg) (weights : Weights) :
    (g.take a weights).map (·.1) = (weights.map (·.1)).filter (· != a) := by
  rw [take, map_map, filter_map]
  congr 1
  exact filter_congr fun x _ => by by_cases e : x.1 = a <;> simp [e]

/-- **A search takes every vertex once.** -/
theorem searchFrom_perm (g : Interference) (count : Nat) (weights : Weights)
    (hn : (weights.map (·.1)).Nodup) (hc : weights.length ≤ count) :
    (g.searchFrom count weights).Perm (weights.map (·.1)) := by
  induction count generalizing weights with
  | zero =>
    obtain rfl : weights = [] := length_eq_zero_iff.1 (by omega)
    exact .refl _
  | succ count ih =>
    rw [searchFrom]
    cases h : heaviest? weights with
    | none =>
      obtain rfl := eq_nil_of_heaviest?_eq_none h
      exact .refl _
    | some x =>
      have mem : x.1 ∈ weights.map (·.1) := mem_map_of_mem (heaviest?_mem h)
      have keys := map_fst_take g x.1 weights
      rw [← hn.erase_eq_filter] at keys
      have shorter : (g.take x.1 weights).length ≤ count := by
        have := congrArg List.length keys
        rw [length_map, length_erase_of_mem mem, length_map] at this
        omega
      have rest := ih (g.take x.1 weights) (keys ▸ hn.erase _) shorter
      rw [keys] at rest
      exact (rest.cons _).trans (perm_cons_erase mem).symm

/-- The search order is a permutation of the vertices. -/
theorem searchOrder_perm {g : Interference} (h : g.edges.Sorted) :
    g.searchOrder.Perm g.vertices := by
  have keys : (g.vertices.map (·, 0)).map (·.1) = g.vertices := by
    rw [map_map]
    exact map_id _
  have := g.searchFrom_perm g.vertices.length (g.vertices.map (·, 0))
    (keys.symm ▸ List.Pairwise.imp Nat.ne_of_lt h) (by rw [List.length_map])
  rwa [keys] at this

end Interference

/-! ## Colours -/

namespace Coloring

variable {g : Interference} {c : Coloring} {order : List VReg} {x y a : VReg}

theorem leastFree_not_mem (taken : List Nat) : leastFree taken ∉ taken := by
  unfold leastFree
  cases h : (List.range (taken.length + 1)).find? (!taken.contains ·) with
  | some k => simpa using find?_some h
  | none =>
    -- more numbers than are taken cannot all be taken
    have all : List.range (taken.length + 1) ⊆ taken := fun k hk => by
      simpa using find?_eq_none.1 h k hk
    have := (subperm_of_subset nodup_range all).length_le
    rw [length_range] at this
    omega

/-- **The colour chosen for a vertex** is that of no coloured neighbour. -/
theorem choose_ne {i : Nat} (hy : y ∈ g.neighbors a) (hi : c.lookup y = some i) :
    c.choose g a ≠ i := by
  have taken : i ∈ (g.neighbors a).filterMap fun n => c.lookup n :=
    mem_filterMap.2 ⟨y, hy, hi⟩
  generalize ht : (g.neighbors a).filterMap (fun n => c.lookup n) = ts at taken
  generalize hp : (g.partners a).filterMap (fun p => c.lookup p) = preferred
  have chosen : c.choose g a = (preferred.find? (!ts.contains ·)).getD (leastFree ts) := by
    rw [← ht, ← hp]
    rfl
  rintro rfl
  rw [chosen] at taken
  cases h : preferred.find? (!ts.contains ·) with
  | some k =>
    rw [h] at taken
    exact absurd taken (by simpa using find?_some h)
  | none =>
    rw [h] at taken
    exact leastFree_not_mem _ taken

/-- **A proper colouring** gives neighbours different colours. -/
def Proper (g : Interference) (c : Coloring) : Prop :=
  ∀ {x y i j}, y ∈ g.neighbors x → c.lookup x = some i → c.lookup y = some j → i ≠ j

theorem lookup_cons (a : VReg) (k : Nat) (c : Coloring) (x : VReg) :
    List.lookup x ((a, k) :: c) = if x = a then some k else c.lookup x := by
  by_cases h : x = a
  · simp [h]
  · have : (x == a) = false := by simpa using h
    rw [List.lookup_cons, this, if_neg h]

/-- Colouring one more vertex keeps a colouring proper. -/
theorem Proper.choose (hg : g.WellFormed) (h : Proper g c) (a : VReg) :
    Proper g ((a, c.choose g a) :: c) := by
  intro x y i j hy hx hj
  rw [lookup_cons] at hx hj
  by_cases ex : x = a
  · subst x
    have ey : y ≠ a := fun e => hg.irrefl (e ▸ hy)
    rw [if_pos rfl] at hx
    rw [if_neg ey] at hj
    rw [← Option.some.inj hx]
    exact choose_ne hy hj
  · rw [if_neg ex] at hx
    by_cases ey : y = a
    · subst y
      rw [if_pos rfl] at hj
      rw [← Option.some.inj hj]
      exact (choose_ne (hg.symm hy) hx).symm
    · rw [if_neg ey] at hj
      exact h hy hx hj

/-- **Colouring vertices one after the other**: the colouring stays proper,
and the coloured vertices are those of the list and those before. -/
theorem extend_spec (hg : g.WellFormed) (order : List VReg) (h : Proper g c) :
    Proper g (extend g c order)
      ∧ ∀ x, ((extend g c order).lookup x).isSome ↔ x ∈ order ∨ (c.lookup x).isSome := by
  induction order generalizing c with
  | nil => exact ⟨h, fun x => by simp [extend]⟩
  | cons a rest ih =>
    obtain ⟨proper, colored⟩ := ih (h.choose hg a)
    refine ⟨proper, fun x => (colored x).trans ?_⟩
    by_cases e : x = a <;> simp [e]

/-- Neighbours are coloured differently, and every vertex is coloured. -/
theorem proper_ofInterference (hg : g.WellFormed) : Proper g (ofInterference g)
      ∧ ∀ x, ((ofInterference g).lookup x).isSome ↔ x ∈ g.vertices := by
  have perm := searchOrder_perm hg.sorted
  obtain ⟨proper, colored⟩ := extend_spec (c := []) hg g.searchOrder.reverse
    (fun _ h _ => by simp at h)
  refine ⟨proper, fun x => (colored x).trans ?_⟩
  rw [mem_reverse, perm.mem_iff]
  simp

end Coloring

/-! ## Places -/

namespace Allocation

variable {registers : List Register} {g : Interference} {v : Liveness} {x y : VReg}
  {l : Location} {i : Nat}

/-- **Colours are given different places** if no register stands twice. -/
theorem place_injective (h : registers.Nodup) : Function.Injective (place registers) := by
  intro c d e
  have index : ∀ {k r}, registers[k]? = some r → k < registers.length := fun hk =>
    (List.getElem?_eq_some_iff.1 hk).1
  unfold place at e
  cases hc : registers[c]? with
  | some r =>
    cases hd : registers[d]? with
    | some s =>
      simp only [hc, hd, Location.reg.injEq] at e
      exact (getElem?_inj (index hc) h).1 (by rw [hc, hd, e])
    | none => simp [hc, hd] at e
  | none =>
    cases hd : registers[d]? with
    | some s => simp [hc, hd] at e
    | none =>
      have := getElem?_eq_none_iff.1 hc
      have := getElem?_eq_none_iff.1 hd
      simp only [hc, hd, slotSize, Location.stack.injEq] at e
      omega

theorem lookup_filterMap (f : VReg → Option Nat) (vertices : List VReg) (x : VReg) :
    (vertices.filterMap fun v => (f v).map (v, ·)).lookup x
      = if x ∈ vertices then f x else none := by
  induction vertices with
  | nil => simp
  | cons a rest ih =>
    by_cases e : x = a
    · subst x
      cases hf : f a with
      | none => simp [hf, ih]
      | some k => simp [hf]
    · cases hf : f a with
      | none => simp [hf, ih, e]
      | some k =>
        rw [filterMap_cons_some (by rw [hf]; rfl), lookup_cons, ih]
        simp [e]

theorem color?_ofInterference (hg : g.WellFormed) (x : VReg) :
    (ofInterference registers g).color? x = (Coloring.ofInterference g).lookup x := by
  rw [color?, ofInterference, lookup_filterMap]
  split
  · rfl
  · have := (proper_ofInterference hg).2 x
    cases h : (Coloring.ofInterference g).lookup x with
    | none => rfl
    | some k => simp_all

/-- Every vertex has a place. -/
theorem isSome_location? (hg : g.WellFormed) (hx : x ∈ g.vertices) :
    ((ofInterference registers g).location? x).isSome := by
  rw [location?, Option.isSome_map, color?_ofInterference hg]
  exact ((proper_ofInterference hg).2 x).2 hx

/-- **Neighbours have different places.** -/
theorem location?_ne_of_mem_neighbors (hr : registers.Nodup) (hg : g.WellFormed)
    (hy : y ∈ g.neighbors x) (hl : (ofInterference registers g).location? x = some l)
    (hl' : (ofInterference registers g).location? y = some l') : l ≠ l' := by
  rw [location?, color?_ofInterference hg, Option.map_eq_some_iff] at hl hl'
  obtain ⟨c, hc, rfl⟩ := hl
  obtain ⟨d, hd, rfl⟩ := hl'
  exact fun e => (proper_ofInterference hg).1 hy hc hd (place_injective hr e)

theorem lt_colorCount {k : Nat} (h : a.color? x = some k) : k < a.colorCount := by
  have bound : ∀ (l : List (VReg × Nat)) (most : Nat),
      most ≤ l.foldl (fun most x => max most (x.2 + 1)) most
        ∧ ∀ p ∈ l, p.2 < l.foldl (fun most x => max most (x.2 + 1)) most := by
    intro l
    induction l with
    | nil => simp
    | cons p rest ih =>
      intro most
      obtain ⟨grows, below⟩ := ih (max most (p.2 + 1))
      refine ⟨by rw [foldl_cons]; omega, fun q hq => ?_⟩
      rcases mem_cons.1 hq with rfl | hq
      · rw [foldl_cons]
        omega
      · exact below q hq
  have mem : (x, k) ∈ a.colors := by
    obtain ⟨l₁, l₂, e, -⟩ := lookup_eq_some_iff.1 h
    rw [e]
    simp
  exact (bound a.colors 0).2 _ mem

/-- Where an allocation keeps a value: on the stack or in one of its registers. -/
theorem cases_of_location? (h : a.location? x = some l) :
    l.isStack ∨ ∃ r ∈ a.registers, l = .reg r := by
  obtain ⟨color, -, rfl⟩ := Option.map_eq_some_iff.1 h
  unfold place
  split
  · next r hr => exact .inr ⟨r, mem_of_getElem? hr, rfl⟩
  · exact .inl rfl

/-- **A place is an allocatable register or a slot within the frame.** -/
theorem assignable_of_location? (hr : a.registers ⊆ Register.allocatable)
    (h : a.location? x = some l) : l.Assignable a.frameSize := by
  rw [location?, Option.map_eq_some_iff] at h
  obtain ⟨k, hk, rfl⟩ := h
  unfold place
  cases hp : a.registers[k]? with
  | some r =>
    exact contains_iff_mem.2 (hr (mem_of_getElem? hp))
  | none =>
    have := lt_colorCount hk
    have := getElem?_eq_none_iff.1 hp
    refine ⟨k - a.registers.length, by rw [slotSize, Nat.mul_comm], ?_⟩
    rw [frameSize, spillSlots, slotSize]
    omega

/-! ## The places of a program's registers -/

theorem exists_location? (registers : List Register) (hi : i < v.lines.size)
    (hx : x ∈ (Liveness.lineAt v.lines i).defs ∨ x ∈ (Liveness.lineAt v.lines i).uses) :
    ∃ l, (ofInterference registers (.ofLiveness v)).location? x = some l :=
  Option.isSome_iff_exists.1 <|
    isSome_location? (wellFormed_ofLiveness v)
      (mem_vertices_ofLiveness hi hx)

/-- Registers that a line keeps apart have different places. -/
theorem location?_ne (hr : registers.Nodup) (hi : i < v.lines.size) (hne : x ≠ y)
    (h : v.KeepsApart i x y)
    (hl : (ofInterference registers (.ofLiveness v)).location? x = some l)
    (hl' : (ofInterference registers (.ofLiveness v)).location? y = some l') : l ≠ l' :=
  location?_ne_of_mem_neighbors hr (wellFormed_ofLiveness v)
    (mem_neighbors_ofLiveness.2 ⟨hne.symm, i, hi, h⟩) hl hl'

end Allocation

end SsaCompiler
