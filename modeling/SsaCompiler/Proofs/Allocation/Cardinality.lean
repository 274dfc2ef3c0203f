import Mathlib.Data.Finset.Card
import SsaCompiler.Proofs.Allocation
import SsaCompiler.Proofs.Interference.Demands

/-!
# Maximum cardinality search

A search keeps a weight for every vertex it has not taken, and adds one to the weights
of the neighbours when it takes a vertex. So **the weight of a vertex is always the
number of its taken neighbours** (`Interference.weight_take`), and this is what the next
vertex is chosen by: it has the most taken neighbours of all that are left, and is the
smallest of those (`Interference.searchOrder_takes_heaviest_first`).
-/

namespace SsaCompiler

open List

namespace Interference

variable {g : Interference} {weights : Weights} {past before after : List VReg} {a v w : VReg}
  {count : Nat}

/-! ## The weight of a vertex -/

/-- **The weight of a vertex**: how many of the vertices taken interfere with
it. -/
def weight (g : Interference) (past : List VReg) (v : VReg) : Nat :=
  past.countP fun a => (g.neighbors a).contains v

/-- The weight of a vertex is the number of its taken neighbours. -/
theorem weight_eq_card (hg : g.WellFormed) (nodup : past.Nodup) (v : VReg) :
    g.weight past v = ((g.neighbors v).toFinset ∩ past.toFinset).card := by
  have same : (g.neighbors v).toFinset ∩ past.toFinset
      = (past.filter fun a => (g.neighbors a).contains v).toFinset := by
    ext a
    simp only [Finset.mem_inter, mem_toFinset, mem_filter, contains_iff_mem]
    exact ⟨fun ⟨ha, hp⟩ => ⟨hp, hg.symm ha⟩, fun ⟨hp, ha⟩ => ⟨hg.symm ha, hp⟩⟩
  rw [same, toFinset_card_of_nodup (nodup.filter _), weight, countP_eq_length_filter]

theorem weight_take (hw : ∀ p ∈ weights, p.2 = g.weight past p.1) :
    ∀ p ∈ g.take a weights, p.2 = g.weight (past ++ [a]) p.1 := by
  intro p hp
  obtain ⟨⟨v, k⟩, hm, rfl⟩ := mem_map.1 hp
  have := hw _ (mem_filter.1 hm).1
  simp only [weight, countP_append, countP_singleton] at this ⊢
  rw [← this]
  split <;> rfl

/-- **The next vertex has the greatest weight**, and it is the smallest of those
that have it. -/
theorem heaviest?_spec {p q : VReg × Nat} (sorted : (weights.map (·.1)).Pairwise (· < ·))
    (h : heaviest? weights = some p) (hq : q ∈ weights) :
    q.2 < p.2 ∨ q.2 = p.2 ∧ p.1 ≤ q.1 := by
  induction weights generalizing p q with
  | nil => cases hq
  | cons r rest ih =>
    obtain ⟨first, sorted⟩ := pairwise_cons.1 sorted
    rw [heaviest?] at h
    cases hr : heaviest? rest with
    | none =>
      rw [eq_nil_of_heaviest?_eq_none hr, mem_singleton] at hq
      rw [hr] at h
      rw [hq, Option.some.inj h]
      exact .inr ⟨rfl, le_rfl⟩
    | some s =>
      simp only [hr] at h
      have later : ∀ q ∈ rest, q.2 < s.2 ∨ q.2 = s.2 ∧ s.1 ≤ q.1 := fun q hq => ih sorted hr hq
      split at h
      case isTrue lighter =>
        cases h
        rcases mem_cons.1 hq with rfl | hq
        · exact .inl lighter
        · exact later q hq
      case isFalse he =>
        cases h
        rcases mem_cons.1 hq with rfl | hq
        · exact .inr ⟨rfl, le_rfl⟩
        · -- all that comes later is greater, and weighs no more than `s`
          have greater : r.1 < q.1 := first q.1 (mem_map_of_mem hq)
          have lighter : q.2 ≤ r.2 :=
            ((later q hq).elim Nat.le_of_lt fun h => h.1.le).trans (not_lt.1 he)
          exact (Nat.lt_or_eq_of_le lighter).imp_right fun e => ⟨e, greater.le⟩

/-! ## The order of a search -/

theorem mem_of_mem_searchFrom (h : v ∈ g.searchFrom count weights) : v ∈ weights.map (·.1) := by
  induction count generalizing weights with
  | zero => cases h
  | succ count ih =>
    rw [searchFrom] at h
    split at h
    case h_1 a _ ha =>
      rcases mem_cons.1 h with rfl | h
      · exact mem_map_of_mem (heaviest?_mem ha)
      · have := ih h
        rw [map_fst_take] at this
        exact (mem_filter.1 this).1
    case h_2 => cases h

/-- **Each vertex that is taken has the greatest weight** of those left, and is the
smallest of those that have it. -/
theorem weight_of_searchFrom (sorted : (weights.map (·.1)).Pairwise (· < ·))
    (hw : ∀ p ∈ weights, p.2 = g.weight past p.1)
    (h : g.searchFrom count weights = before ++ v :: after) (hmem : w ∈ after) :
    g.weight (past ++ before) w < g.weight (past ++ before) v
      ∨ g.weight (past ++ before) w = g.weight (past ++ before) v ∧ v ≤ w := by
  induction count generalizing weights past before with
  | zero => simp [searchFrom] at h
  | succ count ih =>
    rw [searchFrom] at h
    split at h
    case h_2 => simp at h
    case h_1 a k ha =>
      cases before with
      | nil =>
        cases h
        have rest := mem_of_mem_searchFrom hmem
        rw [map_fst_take] at rest
        obtain ⟨⟨w, i⟩, hi, rfl⟩ := mem_map.1 (mem_filter.1 rest).1
        rw [append_nil, ← hw _ hi, ← hw _ (heaviest?_mem ha)]
        exact heaviest?_spec sorted ha hi
      | cons b before =>
        obtain ⟨rfl, hr⟩ := List.cons.inj h
        have := ih (map_fst_take g a weights ▸ sorted.filter _) (weight_take hw) hr
        rwa [append_assoc] at this

/-- **A search takes the vertex with the most neighbours taken before**, and the
smallest of those. -/
theorem weight_of_searchOrder (hg : g.WellFormed) (h : g.searchOrder = before ++ v :: after)
    (hmem : w ∈ after) :
    g.weight before w < g.weight before v
      ∨ g.weight before w = g.weight before v ∧ v ≤ w := by
  have keys : (g.vertices.map (·, 0)).map (·.1) = g.vertices := by
    rw [map_map]
    exact map_id _
  have initial : ∀ p ∈ g.vertices.map (·, 0), p.2 = g.weight [] p.1 := fun p hp => by
    obtain ⟨x, -, rfl⟩ := mem_map.1 hp
    rfl
  exact weight_of_searchFrom (keys.symm ▸ hg.sorted) initial h hmem

theorem nodup_of_searchOrder (hg : g.WellFormed) (h : g.searchOrder = before ++ after) :
    (before ++ after).Nodup :=
  h ▸ (searchOrder_perm hg.sorted).nodup_iff.2 (hg.sorted.imp Nat.ne_of_lt)

/-- **The order of a search is a maximum cardinality order.** Every vertex is taken once.
When a vertex `v` is taken after those in `before`, any vertex that is not among these has
fewer neighbours in `before` than `v`, or as many and is not smaller. -/
theorem searchOrder_takes_heaviest_first (hg : g.WellFormed) :
    g.searchOrder.Perm g.vertices ∧ g.searchOrder.Nodup
      ∧ ∀ before v after, g.searchOrder = before ++ v :: after → ∀ w ∈ g.vertices, w ∉ before →
          let taken (x : VReg) := ((g.neighbors x).toFinset ∩ before.toFinset).card
          taken w < taken v ∨ taken w = taken v ∧ v ≤ w := by
  have perm := searchOrder_perm hg.sorted
  refine ⟨perm, perm.nodup_iff.2 (hg.sorted.imp Nat.ne_of_lt), ?_⟩
  intro before v after split w hw left taken
  have nodup : before.Nodup := (nodup_of_searchOrder hg split).of_append_left
  have count : ∀ x, taken x = g.weight before x := fun x => (weight_eq_card hg nodup x).symm
  have hmem : w ∈ before ++ v :: after := split ▸ perm.mem_iff.2 hw
  rcases List.mem_cons.1 ((List.mem_append.1 hmem).resolve_left left) with rfl | later
  · exact .inr ⟨rfl, Nat.le_refl _⟩
  · rw [count, count]
    exact weight_of_searchOrder hg split later

/-- A triangle with a tail and a vertex of its own: once `0` and `3` are taken, `5` has
two taken neighbours and comes before `1`, which has one, and before `2`, which has none. -/
theorem triangle_taken_before_tail :
    let g := ofDemands [.edge 0 3, .edge 0 5, .edge 3 5, .edge 1 3, .vertex 2]
    g.searchOrder = [0, 3] ++ 5 :: [1, 2]
      ∧ ∀ w ∈ g.vertices, w ∉ [0, 3] →
        let taken (x : VReg) := ((g.neighbors x).toFinset ∩ [0, 3].toFinset).card
        taken w < taken 5 ∨ taken w = taken 5 ∧ 5 ≤ w := by
  intro g
  have split : g.searchOrder = [0, 3] ++ 5 :: [1, 2] := by decide
  exact ⟨split, (searchOrder_takes_heaviest_first (wellFormed_ofDemands _)).2.2 _ _ _ split⟩

end Interference

end SsaCompiler
