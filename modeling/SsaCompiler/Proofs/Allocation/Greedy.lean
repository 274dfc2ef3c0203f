import Mathlib.Combinatorics.SimpleGraph.Clique
import SsaCompiler.Proofs.Allocation.Compact

/-!
# Colouring with as few colours as possible

Vertices are coloured one after the other, each with the least colour that
no coloured neighbour has. How many colours that takes depends on the order.
**An order is obstructed** if four vertices induce a path both of whose ends come
before their neighbours: the ends then have the same colour, and the two
vertices between them need two more.

That is all that can go wrong. Along an order that is not obstructed, **no
more colours are used than the largest clique has vertices**
(`Coloring.isCliqueNumber_colorsUsed`). To see this, take a vertex of the
last colour. Each colour below is that of an earlier neighbour, and
neighbours can be chosen that are adjacent to all vertices chosen so far
(`exists_adj_all`).
-/

namespace SsaCompiler

open List

open SimpleGraph

/-! ## Orders without obstruction -/

section Obstruction

variable {V : Type} {G : SimpleGraph V} {rank : V → Nat}

/-- **An obstructed order**: four vertices induce a path both of whose ends come
before their neighbours. -/
def Obstructed (G : SimpleGraph V) (rank : V → Nat) : Prop :=
  ∃ a b c d, G.Adj a b ∧ G.Adj b c ∧ G.Adj c d ∧ ¬ G.Adj a c ∧ ¬ G.Adj b d ∧ ¬ G.Adj a d
    ∧ rank a < rank b ∧ rank d < rank c

/-- **One of the earlier neighbours is adjacent to all of a clique**, if there is
one for every vertex of it and no two of them are adjacent. -/
theorem exists_adj_all (free : ¬ Obstructed G rank) {p : V → V} (Q : Finset V)
    (hQ : Q.Nonempty) (clique : G.IsClique Q) (adj : ∀ w ∈ Q, G.Adj (p w) w)
    (earlier : ∀ w ∈ Q, rank (p w) < rank w)
    (apart : ∀ v ∈ Q, ∀ w ∈ Q, ¬ G.Adj (p v) (p w)) : ∃ v ∈ Q, ∀ w ∈ Q, G.Adj (p v) w := by
  classical
  induction Q using Finset.strongInduction with
  | H Q ih =>
    by_contra! none
    -- without one vertex there is such a neighbour, `p (f w)` for `w` left out
    have step : ∀ w ∈ Q, ∃ v ∈ Q.erase w, ∀ x ∈ Q.erase w, G.Adj (p v) x := by
      intro w hw
      have sub := Q.erase_subset w
      refine ih (Q.erase w) (Finset.erase_ssubset hw) ?_
        (clique.subset (Finset.coe_subset.2 sub)) (fun x hx => adj x (sub hx))
        (fun x hx => earlier x (sub hx)) fun x hx y hy => apart x (sub hx) y (sub hy)
      obtain ⟨x, hx, hn⟩ := none w hw
      exact ⟨x, Finset.mem_erase.2 ⟨fun e => hn (e ▸ adj w hw), hx⟩⟩
    choose! f hf ha using step
    have maps : ∀ w ∈ Q, f w ∈ Q := fun w hw => Finset.mem_of_mem_erase (hf w hw)
    have misses : ∀ w ∈ Q, ¬ G.Adj (p (f w)) w := by
      intro w hw h
      obtain ⟨x, hx, hn⟩ := none (f w) (maps w hw)
      exact hn (ha w hw x (Finset.mem_erase.2 ⟨fun e => hn (e ▸ h), hx⟩))
    have inj : Set.InjOn f Q := by
      intro v hv w hw e
      by_contra hne
      exact misses w hw (e ▸ ha v hv w (Finset.mem_erase.2 ⟨fun h => hne h.symm, hw⟩))
    have surj : Set.SurjOn f Q Q := Finset.surjOn_of_injOn_of_card_le f maps inj le_rfl
    -- the neighbour of the first vertex of the clique comes before the whole clique
    obtain ⟨u, hu, first⟩ := Q.exists_min_image rank hQ
    obtain ⟨v, hv, rfl⟩ := surj hu
    obtain ⟨w, hw, hwv⟩ := surj hv
    have hne : w ≠ v := fun e => Finset.ne_of_mem_erase (hf v hv) (e ▸ hwv)
    refine free ⟨p (f v), w, v, p v, ha v hv w (Finset.mem_erase.2 ⟨hne, hw⟩),
      clique hw hv hne, (adj v hv).symm, misses v hv, fun h => ?_,
      apart _ (maps v hv) v hv, ?_, earlier v hv⟩
    · exact misses w hw (hwv ▸ h.symm)
    · exact (earlier _ (maps v hv)).trans_le (first w hw)

end Obstruction

/-! ## Cliques of registers -/

namespace Interference

variable {g : Interference} {x y : VReg}

/-- The edges of an interference graph. -/
def graph (g : Interference) : SimpleGraph VReg :=
  .fromRel fun x y => y ∈ g.neighbors x

theorem WellFormed.adj_iff (h : g.WellFormed) : g.graph.Adj x y ↔ y ∈ g.neighbors x := by
  refine ⟨fun ⟨_, hxy⟩ => hxy.elim id h.symm, fun hxy => ⟨fun e => ?_, .inl hxy⟩⟩
  exact h.irrefl (e ▸ hxy)

/-- **Registers that all interfere with each other.** -/
def IsClique (g : Interference) (s : Finset VReg) : Prop :=
  (∀ x ∈ s, x ∈ g.vertices) ∧ g.graph.IsClique s

/-- **The size of the largest clique.** -/
def IsCliqueNumber (g : Interference) (n : Nat) : Prop :=
  (∃ s, g.IsClique s ∧ s.card = n) ∧ ∀ s, g.IsClique s → s.card ≤ n

theorem IsCliqueNumber.unique {n m : Nat} (h : g.IsCliqueNumber n) (h' : g.IsCliqueNumber m) :
    n = m := by
  obtain ⟨⟨s, hs, rfl⟩, most⟩ := h
  obtain ⟨⟨t, ht, rfl⟩, most'⟩ := h'
  exact (most' s hs).antisymm (most t ht)

end Interference

/-! ## Colours along an order -/

namespace Coloring

variable {g : Interference} {c : Coloring} {order : List VReg} {a x y : VReg} {i j k : Nat}

/-- **The number of different colours.** -/
def colorsUsed (c : Coloring) : Nat :=
  (c.map (·.2)).toFinset.card

theorem lookup_eq_some_iff (nodup : (c.map (·.1)).Nodup) :
    c.lookup x = some i ↔ (x, i) ∈ c := by
  induction c with
  | nil => simp
  | cons p rest ih =>
    obtain ⟨a, k⟩ := p
    obtain ⟨ha, hr⟩ := nodup_cons.1 nodup
    rw [lookup_cons, mem_cons]
    split
    case isTrue e =>
      subst e
      have : (x, i) ∉ rest := fun hm => ha (mem_map.2 ⟨_, hm, rfl⟩)
      simp [this, eq_comm]
    case isFalse hne => simp [ih hr, hne]

/-- Colours without gaps are counted by the first unused one. -/
theorem Compact.colorsUsed_eq (h : Compact c k) (nodup : (c.map (·.1)).Nodup) :
    c.colorsUsed = k := by
  have : (c.map (·.2)).toFinset = Finset.range k := by
    ext i
    rw [mem_toFinset, Finset.mem_range, ← h i, mem_map]
    simp only [lookup_eq_some_iff nodup]
    exact ⟨fun ⟨p, hp, e⟩ => ⟨p.1, e ▸ hp⟩, fun ⟨x, hx⟩ => ⟨_, hx, rfl⟩⟩
  rw [colorsUsed, this, Finset.card_range]

theorem extend_append (g : Interference) (c : Coloring) (order : List VReg) (a : VReg) :
    extend g c (order ++ [a])
      = (a, (extend g c order).choose g a) :: extend g c order := by
  rw [extend, foldl_append]
  rfl

theorem map_fst_extend (g : Interference) (order : List VReg) :
    (extend g [] order).map (·.1) = order.reverse := by
  induction order using List.reverseRecOn with
  | nil => rfl
  | append_singleton order a ih =>
    rw [extend_append, map_cons, ih, reverse_append]
    rfl

/-- **Without move partners every lower colour is that of an earlier
neighbour.** -/
theorem exists_neighbor_of_lt (unmoved : ∀ x, g.partners x = []) (nodup : order.Nodup)
    (hx : (extend g [] order).lookup x = some i) (hj : j < i) :
    ∃ y ∈ g.neighbors x, (extend g [] order).lookup y = some j
      ∧ order.idxOf y < order.idxOf x := by
  induction order using List.reverseRecOn with
  | nil => cases hx
  | append_singleton order a ih =>
    obtain ⟨nodup, -, apart⟩ := nodup_append.1 nodup
    have fresh : a ∉ order := fun ha => apart a ha a (.head _) rfl
    have mem : ∀ {y j}, (extend g [] order).lookup y = some j → y ∈ order := by
      intro y j hy
      have keys : y ∈ (extend g [] order).map (·.1) :=
        mem_map_of_mem ((lookup_eq_some_iff (by
          rw [map_fst_extend]
          exact nodup_reverse.2 nodup)).1 hy)
      rwa [map_fst_extend, mem_reverse] at keys
    -- what is coloured earlier keeps its colour and its place in the order
    have keep : ∀ {y j}, (extend g [] order).lookup y = some j →
        (extend g [] (order ++ [a])).lookup y = some j
          ∧ (order ++ [a]).idxOf y = order.idxOf y := by
      intro y j hy
      have hne : y ≠ a := fun e => fresh (e ▸ mem hy)
      rw [extend_append, lookup_cons, if_neg hne, idxOf_append_of_mem (mem hy)]
      exact ⟨hy, rfl⟩
    rw [extend_append, lookup_cons] at hx
    split at hx
    case isTrue e =>
      subst e
      have chosen : (extend g [] order).choose g x = leastFree (taken g (extend g [] order) x) := by
        show Option.getD (List.find? _ ((g.partners x).filterMap _)) _ = _
        rw [unmoved x]
        rfl
      rw [chosen] at hx
      obtain ⟨y, hy, hl⟩ := mem_filterMap.1
        ((leastFree_spec _).2 j (Option.some.inj hx ▸ hj))
      refine ⟨y, hy, (keep hl).1, ?_⟩
      rw [(keep hl).2, idxOf_append_of_notMem fresh]
      exact (idxOf_lt_length_of_mem (mem hl)).trans_le (Nat.le_add_right _ _)
    case isFalse hne =>
      obtain ⟨y, hy, hl, hlt⟩ := ih nodup hx
      refine ⟨y, hy, (keep hl).1, ?_⟩
      rwa [(keep hl).2, (keep hx).2]

/-! ## Cliques and colours -/

theorem compact_colorsUsed (hg : g.WellFormed) (perm : order.Perm g.vertices) :
    Compact (extend g [] order) (extend g [] order).colorsUsed := by
  have nodup : order.Nodup := perm.nodup_iff.2 (hg.sorted.imp Nat.ne_of_lt)
  obtain ⟨k, -, compact⟩ := Compact.extend (g := g) (k := 0) (c := []) (fun i => by simp) nodup
    (fun _ _ => rfl) (fun x hx => Interference.degree_le_maxDegree (perm.mem_iff.1 hx))
    (Nat.zero_le _)
  have keys : ((extend g [] order).map (·.1)).Nodup := by
    rw [map_fst_extend]
    exact nodup_reverse.2 nodup
  rwa [compact.colorsUsed_eq keys]

/-- **The vertices of a clique have different colours.** -/
theorem card_le_colorsUsed (hg : g.WellFormed) (perm : order.Perm g.vertices)
    {s : Finset VReg} (hs : g.IsClique s) : s.card ≤ (extend g [] order).colorsUsed := by
  obtain ⟨proper, colored⟩ := extend_spec (c := []) hg order (fun _ h _ => by simp at h)
  have color : ∀ x ∈ s, ∃ i, (extend g [] order).lookup x = some i := fun x hx =>
    Option.isSome_iff_exists.1 ((colored x).2 (.inl (perm.mem_iff.2 (hs.1 x hx))))
  rw [← Finset.card_range (extend g [] order).colorsUsed]
  refine Finset.card_le_card_of_injOn (fun x => ((extend g [] order).lookup x).getD 0)
    (fun x hx => ?_) fun x hx y hy e => ?_
  · obtain ⟨i, hi⟩ := color x hx
    simpa [hi] using (compact_colorsUsed hg perm i).1 ⟨x, hi⟩
  · by_contra hne
    obtain ⟨i, hi⟩ := color x hx
    obtain ⟨j, hj⟩ := color y hy
    exact proper (hg.adj_iff.1 (hs.2 hx hy hne)) hi hj (by simpa [hi, hj] using e)

/-- **From the last colour downwards** a clique is found with one vertex of every
colour, if the order is not obstructed. -/
theorem exists_clique (hg : g.WellFormed) (unmoved : ∀ x, g.partners x = []) (nodup : order.Nodup)
    (free : ¬ Obstructed g.graph order.idxOf) (compact : Compact (extend g [] order) k)
    (hj : j ≤ k) : ∃ s : Finset VReg, s.card = j ∧ g.graph.IsClique s
      ∧ ∀ x ∈ s, ∃ i, (extend g [] order).lookup x = some i ∧ k - j ≤ i := by
  obtain ⟨proper, -⟩ := extend_spec (c := []) hg order (fun _ h _ => by simp at h)
  induction j with
  | zero => exact ⟨∅, rfl, by simp, fun x hx => absurd hx (Finset.notMem_empty x)⟩
  | succ j ih =>
    obtain ⟨s, hcard, clique, high⟩ := ih (by omega)
    rcases s.eq_empty_or_nonempty with rfl | nonempty
    · -- start with a vertex of the last colour
      obtain ⟨x, hx⟩ := (compact (k - 1)).2 (by omega)
      refine ⟨{x}, by simpa using hcard.symm, by simp, fun y hy => ⟨k - 1, ?_, by omega⟩⟩
      rwa [Finset.mem_singleton.1 hy]
    · have lower : ∀ x ∈ s, ∃ y ∈ g.neighbors x,
          (extend g [] order).lookup y = some (k - (j + 1)) ∧ order.idxOf y < order.idxOf x := by
        intro x hx
        obtain ⟨i, hi, hle⟩ := high x hx
        exact exists_neighbor_of_lt unmoved nodup hi (by omega)
      choose! p hp hc he using lower
      obtain ⟨v, hv, all⟩ := exists_adj_all free s nonempty clique
        (fun w hw => hg.adj_iff.2 (hg.symm (hp w hw))) he
        fun x hx y hy h => proper (hg.adj_iff.1 h) (hc x hx) (hc y hy) rfl
      have fresh : p v ∉ s := fun h => g.graph.irrefl (all _ h)
      refine ⟨insert (p v) s, by rw [Finset.card_insert_of_notMem fresh, hcard], ?_, ?_⟩
      · rw [Finset.coe_insert, SimpleGraph.isClique_insert]
        exact ⟨clique, fun w hw _ => all w hw⟩
      · intro x hx
        rcases Finset.mem_insert.1 hx with rfl | hx
        · exact ⟨_, hc v hv, le_rfl⟩
        · obtain ⟨i, hi, hle⟩ := high x hx
          exact ⟨i, hi, by omega⟩

/-- **Along an order without obstruction** there are as many colours as vertices
in the largest clique. -/
theorem isCliqueNumber_colorsUsed (hg : g.WellFormed) (unmoved : ∀ x, g.partners x = [])
    (perm : order.Perm g.vertices) (free : ¬ Obstructed g.graph order.idxOf) :
    g.IsCliqueNumber (extend g [] order).colorsUsed := by
  have nodup : order.Nodup := perm.nodup_iff.2 (hg.sorted.imp Nat.ne_of_lt)
  obtain ⟨-, colored⟩ := extend_spec (c := []) hg order (fun _ h _ => by simp at h)
  obtain ⟨s, hc, clique, high⟩ :=
    exists_clique hg unmoved nodup free (compact_colorsUsed hg perm) le_rfl
  refine ⟨⟨s, ⟨fun x hx => ?_, clique⟩, hc⟩, fun s hs => card_le_colorsUsed hg perm hs⟩
  obtain ⟨i, hi, -⟩ := high x hx
  have := (colored x).1 (hi ▸ rfl)
  exact perm.mem_iff.1 (this.resolve_right (by simp))

end Coloring

end SsaCompiler
