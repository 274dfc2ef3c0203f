import SsaCompiler.Proofs.Allocation.Cardinality
import SsaCompiler.Proofs.Allocation.Greedy
import SsaCompiler.Proofs.Interference.Chordal
import SsaCompiler.Proofs.Separation

/-!
# Chordal graphs and the direction of colouring

A maximum cardinality search takes the vertex with the most neighbours taken
before. In a chordal graph this has a remarkable effect: **the neighbours
taken before a vertex are adjacent to each other**
(`Interference.adj_of_taken`). The reason is that at every moment, the taken
vertices on the border of a connected part of the others form a clique
(`Interference.Bordered`).

So an order of search is not obstructed, and a colouring that follows it
from the vertex taken first to the vertex taken last uses as many colours as
the largest clique has vertices. **Registers are allocated in the opposite
direction**, from the vertex taken last. This can take more colours, even
for a path of four vertices (`Allocation.path_takes_three_colors`). It takes
no more where the reverse order is not obstructed either
(`Allocation.chordal_colors_along_search`).
-/

namespace SsaCompiler

open List

open SimpleGraph

variable {g : Interference}

namespace Interference

variable {g : Interference} {past before after : List VReg} {v w x y : VReg}

/-! ## Taken vertices on a border -/

/-- **The taken vertices on the border of a connected part of the others are
adjacent to each other.** -/
def Bordered (g : Interference) (past : List VReg) : Prop :=
  ∀ x ∈ past, ∀ y ∈ past, x ≠ y → ∀ c c', c ∉ past → c' ∉ past →
    (within g.graph {a | a ∉ past}).Reachable c c' →
      g.graph.Adj x c → g.graph.Adj y c' → g.graph.Adj x y

/-- A vertex with all the taken neighbours of another, and one more, has greater
weight. -/
theorem weight_lt (hg : g.WellFormed) (hx : x ∈ past) (hwx : g.graph.Adj w x)
    (hvx : ¬ g.graph.Adj v x) (more : ∀ z ∈ past, g.graph.Adj z v → g.graph.Adj z w) :
    g.weight past v < g.weight past w := by
  have adj : ∀ {z v}, (g.neighbors z).contains v = true ↔ g.graph.Adj z v := fun {z v} => by
    rw [contains_iff_mem, hg.adj_iff]
  obtain ⟨front, back, rfl⟩ := append_of_mem hx
  have le : ∀ l : List VReg, l ⊆ front ++ x :: back → g.weight l v ≤ g.weight l w :=
    fun l hl => countP_mono_left fun z hz h => adj.2 (more z (hl hz) (adj.1 h))
  have hf := le front (subset_append_left _ _)
  have hb := le back fun z hz => mem_append_right _ (.tail _ hz)
  have hv : (g.neighbors x).contains v = false :=
    Bool.eq_false_iff.2 fun h => hvx (adj.1 h).symm
  have hw : (g.neighbors x).contains w = true := adj.2 hwx.symm
  simp only [weight, countP_append, countP_cons, hv, hw] at hf hb ⊢
  simp only [Bool.false_eq_true, if_false, if_true]
  omega

theorem within_mono {V : Type} {G : SimpleGraph V} {S T : Set V} (h : S ⊆ T) :
    within G S ≤ within G T := fun _ _ hab => ⟨hab.1, h hab.2.1, h hab.2.2⟩

section

variable (hg : g.WellFormed) (chordal : Chordal g.graph)

include hg chordal

/-- A taken vertex on the border of a part that the next vertex borders on is
adjacent to that vertex. -/
theorem Bordered.adj_of_next (h : g.Bordered before)
    (split : g.searchOrder = before ++ v :: after) {c c' : VReg} (hx : x ∈ before)
    (hr : (within g.graph {a | a ∉ before ++ [v]}).Reachable c c') (hc : c ∉ before ++ [v])
    (hc' : c' ∉ before ++ [v]) (hxc : g.graph.Adj x c) (hvc : g.graph.Adj v c') :
    g.graph.Adj x v := by
  have perm := searchOrder_perm hg.sorted
  have nodup := nodup_of_searchOrder hg split
  have hv : v ∉ before := fun hm => (nodup_append.1 nodup).2.2 v hm v (.head _) rfl
  have hne : v ≠ x := fun e => hv (e ▸ hx)
  by_contra hxv
  have hvx : ¬ g.graph.Adj v x := fun e => hxv e.symm
  -- `v` and `x` are connected through the part
  have through : (within g.graph (insert v (insert x {a | a ∉ before ++ [v]}))).Reachable v x := by
    have part : {a | a ∉ before ++ [v]} ⊆ insert v (insert x {a | a ∉ before ++ [v]}) :=
      fun _ ha => .inr (.inr ha)
    have out : (within g.graph (insert v (insert x {a | a ∉ before ++ [v]}))).Adj v c' :=
      ⟨hvc, .inl rfl, part hc'⟩
    have back : (within g.graph (insert v (insert x {a | a ∉ before ++ [v]}))).Adj c x :=
      ⟨hxc.symm, part hc, .inr (.inl rfl)⟩
    exact out.reachable.trans ((hr.symm.mono (within_mono part)).trans back.reachable)
  obtain ⟨u, hu, hux, common⟩ := chordal.exists_adj_common hne hvx through
  -- so a vertex of the part has more taken neighbours than `v`
  have he : g.weight before v < g.weight before u := by
    refine weight_lt hg hx hux hvx fun z hz hzv => ?_
    have hzx : z ≠ x := fun e => hxv (e ▸ hzv)
    have earlier : {a | a ∉ before ++ [v]} ⊆ {a | a ∉ before} := fun _ ha hm =>
      ha (mem_append_left _ hm)
    have out : (within g.graph {a | a ∉ before}).Adj v c' := ⟨hvc, hv, earlier hc'⟩
    have border : g.graph.Adj z x := h z hz x hx hzx v c hv (earlier hc)
      (out.reachable.trans (hr.symm.mono (within_mono earlier))) hzv hxc
    exact common z (fun hz' => hz' (mem_append_left _ hz)) (fun e => hv (e ▸ hz)) hzx
      hzv border
  have hmem : u ∈ before ++ v :: after :=
    split ▸ perm.mem_iff.2 (hg.mem_vertices (hg.adj_iff.1 hux)).1
  have later : u ∈ after := by
    rcases mem_append.1 hmem with hm | hm
    · exact absurd (mem_append_left _ hm) hu
    · rcases mem_cons.1 hm with rfl | hm
      · exact absurd (mem_append_right _ (.head _)) hu
      · exact hm
  exact (weight_of_searchOrder hg split later).elim (Nat.lt_asymm he)
    fun h => Nat.ne_of_gt he h.1

/-- **The border is a clique at every moment of a search.** -/
theorem bordered_of_searchOrder (split : g.searchOrder = before ++ after) : g.Bordered before := by
  induction before using List.reverseRecOn generalizing after with
  | nil => exact fun x hx => absurd hx not_mem_nil
  | append_singleton before v ih =>
    rw [append_assoc] at split
    have earlier := ih split
    have shrink : {a | a ∉ before ++ [v]} ⊆ {a | a ∉ before} := fun _ ha hm =>
      ha (mem_append_left _ hm)
    intro x hx y hy hne c c' hc hc' hr hxc hyc
    rcases mem_append.1 hx with hx' | hx'
    · rcases mem_append.1 hy with hy' | hy'
      · exact earlier x hx' y hy' hne c c' (shrink hc) (shrink hc')
          (hr.mono (within_mono shrink)) hxc hyc
      · obtain rfl := mem_singleton.1 hy'
        exact earlier.adj_of_next hg chordal split hx' hr hc hc' hxc hyc
    · obtain rfl := mem_singleton.1 hx'
      rcases mem_append.1 hy with hy' | hy'
      · exact (earlier.adj_of_next hg chordal split hy' hr.symm hc' hc hyc hxc).symm
      · exact absurd (mem_singleton.1 hy').symm hne

/-- **The neighbours taken before a vertex are adjacent to each other.** -/
theorem adj_of_taken (split : g.searchOrder = before ++ v :: after) (hx : x ∈ before)
    (hy : y ∈ before) (hne : x ≠ y) (hvx : g.graph.Adj v x) (hvy : g.graph.Adj v y) :
    g.graph.Adj x y := by
  have nodup := nodup_of_searchOrder hg split
  have hv : v ∉ before := fun hm => (nodup_append.1 nodup).2.2 v hm v (.head _) rfl
  exact bordered_of_searchOrder hg chordal split x hx y hy hne v v hv hv (.refl v) hvx.symm
    hvy.symm

end

theorem mem_of_idxOf_lt {order : List VReg} (split : order = before ++ v :: after)
    (h : order.idxOf x < order.idxOf v) : x ∈ before := by
  by_contra hx
  rw [split, idxOf_append_of_notMem hx] at h
  have : (before ++ v :: after).idxOf v ≤ before.length := by
    by_cases hv : v ∈ before
    · rw [idxOf_append_of_mem hv]
      exact idxOf_le_length
    · rw [idxOf_append_of_notMem hv, idxOf_cons_self]
      omega
  omega

/-- **The order of a search is not obstructed.** -/
theorem not_obstructed_searchOrder (hg : g.WellFormed) (chordal : Chordal g.graph) :
    ¬ Obstructed g.graph g.searchOrder.idxOf := by
  have taken : ∀ {v x}, g.graph.Adj v x → v ∈ g.searchOrder := fun h =>
    (searchOrder_perm hg.sorted).mem_iff.2 (hg.mem_vertices (hg.adj_iff.1 h)).1
  have later : ∀ {v x y}, g.searchOrder.idxOf x < g.searchOrder.idxOf v →
      g.searchOrder.idxOf y < g.searchOrder.idxOf v → g.graph.Adj v x → g.graph.Adj v y →
      x ≠ y → g.graph.Adj x y := by
    intro v x y hx hy hvx hvy hne
    obtain ⟨before, after, split⟩ := append_of_mem (taken hvx)
    exact adj_of_taken hg chordal split (mem_of_idxOf_lt split hx) (mem_of_idxOf_lt split hy)
      hne hvx hvy
  rintro ⟨a, b, c, d, hab, hbc, hcd, hac, hbd, had, hr, hr'⟩
  -- of the two vertices in the middle, the later one has two neighbours taken before
  rcases Nat.lt_trichotomy (g.searchOrder.idxOf b) (g.searchOrder.idxOf c) with h | h | h
  · exact hbd (later h hr' hbc.symm hcd fun e => had (e ▸ hab))
  · exact hbc.ne ((idxOf_inj (taken hbc)).1 h)
  · exact hac (later hr h hab.symm hbc fun e => had (e ▸ hcd))

end Interference

namespace Allocation

variable {registers : List Register}

/-! ## The direction of colouring -/

theorem colorsUsed_colors (hg : g.WellFormed) :
    Coloring.colorsUsed (ofInterference registers g).colors = (Coloring.ofInterference g).colorsUsed
      ∧ (ofInterference registers g).colorCount = (Coloring.ofInterference g).colorsUsed := by
  have compact : Coloring.Compact (Coloring.ofInterference g) (Coloring.ofInterference g).colorsUsed :=
    Coloring.compact_colorsUsed hg
      ((reverse_perm _).trans (Interference.searchOrder_perm hg.sorted))
  have same : Coloring.Compact (ofInterference registers g).colors
      (Coloring.ofInterference g).colorsUsed := fun i => by
    rw [← compact i]
    exact exists_congr fun x => by rw [← color?_ofInterference hg]; rfl
  have keys : ((ofInterference registers g).colors.map (·.1)).Nodup := by
    rw [map_fst_colors hg]
    exact hg.sorted.imp Nat.ne_of_lt
  exact ⟨same.colorsUsed_eq keys, colorCount_eq hg compact⟩

/-- **Colours of chordal graphs.** Take a chordal interference graph, built from
whatever demands, without move partners, and let `n` be the size of its
largest clique. A colouring along the order of the search, from the vertex
taken first to the vertex taken last, uses `n` colours. An allocation
follows the order backwards. It uses `n` colours at least, and `n` exactly
unless four registers induce a path both of whose ends are taken after their
neighbours; and then no register is spilled if there are `n` machine
registers. -/
theorem chordal_colors_along_search (demands : List Demand) (registers : List Register)
    (unmoved : ∀ x, (Interference.ofDemands demands).partners x = [])
    (chordal : Chordal (Interference.ofDemands demands).graph) :
    let g := Interference.ofDemands demands
    let a := ofInterference registers g
    ∃ n, g.IsCliqueNumber n
      ∧ (Coloring.extend g [] g.searchOrder).colorsUsed = n
      ∧ n ≤ Coloring.colorsUsed a.colors
      ∧ (¬ Obstructed g.graph g.searchOrder.reverse.idxOf →
          Coloring.colorsUsed a.colors = n ∧ (n ≤ registers.length → a.spillSlots = 0)) := by
  intro g a
  have hg : g.WellFormed := Interference.wellFormed_ofDemands demands
  have perm := Interference.searchOrder_perm hg.sorted
  have along : g.IsCliqueNumber (Coloring.extend g [] g.searchOrder).colorsUsed :=
    Coloring.isCliqueNumber_colorsUsed hg unmoved perm
      (Interference.not_obstructed_searchOrder hg chordal)
  have used : Coloring.colorsUsed a.colors = (Coloring.ofInterference g).colorsUsed :=
    (colorsUsed_colors hg).1
  have count : a.colorCount = (Coloring.ofInterference g).colorsUsed := (colorsUsed_colors hg).2
  have backwards : g.searchOrder.reverse.Perm g.vertices := (List.reverse_perm _).trans perm
  refine ⟨_, along, rfl, ?_, fun free => ?_⟩
  · obtain ⟨⟨s, hs, e⟩, -⟩ := along
    rw [used, ← e]
    exact Coloring.card_le_colorsUsed hg backwards hs
  · have back : g.IsCliqueNumber (Coloring.ofInterference g).colorsUsed :=
      Coloring.isCliqueNumber_colorsUsed hg unmoved backwards free
    rw [used, spillSlots, count, back.unique along]
    exact ⟨rfl, Nat.sub_eq_zero_of_le⟩

/-! ## Two triangles and a path -/

/-- It can be decided whether the numbers of the registers show a graph to be
chordal. -/
theorem chordal_of_neighbors (hg : g.WellFormed)
    (h : ∀ v ∈ g.vertices, ∀ x ∈ g.neighbors v, ∀ y ∈ g.neighbors v, x < v → y < v → x ≠ y →
      y ∈ g.neighbors x) : Chordal g.graph :=
  chordal_of_lt fun v x y hx hy hvx hvy hne => by
    rw [hg.adj_iff] at hvx hvy ⊢
    exact h v (hg.mem_vertices hvx).1 x hvx y hvy hx hy hne

/-- Two triangles that share an edge. -/
def twoTriangles : List Demand :=
  [.edge 0 1, .edge 0 2, .edge 1 2, .edge 1 3, .edge 2 3]

/-- Three machine registers are enough for two triangles that share an edge. -/
theorem twoTriangles_take_three_registers : let g := Interference.ofDemands twoTriangles
    (∀ x, g.partners x = []) ∧ Chordal g.graph
      ∧ (Coloring.extend g [] g.searchOrder).colorsUsed = 3 ∧ g.IsCliqueNumber 3
      ∧ (ofInterference [.rbx, .rsi, .rdi] g).spillSlots = 0 := by
  intro g
  have hg : g.WellFormed := Interference.wellFormed_ofDemands _
  have unmoved : ∀ x, g.partners x = [] := fun _ => rfl
  have chordal : Chordal g.graph := chordal_of_neighbors hg (by decide)
  have free : ¬ Obstructed g.graph g.searchOrder.reverse.idxOf := by
    rintro ⟨a, b, c, d, hab, hbc, hcd, hac, hbd, had, -⟩
    rw [hg.adj_iff] at hab hbc hcd hac hbd had
    have triangles : ∀ a ∈ g.vertices, ∀ b ∈ g.neighbors a, ∀ c ∈ g.neighbors b,
        ∀ d ∈ g.neighbors c, c ∈ g.neighbors a ∨ d ∈ g.neighbors b ∨ c = a ∨ d = b := by decide
    rcases triangles a (hg.mem_vertices hab).1 b hab c hbc d hcd with h | h | rfl | rfl
    · exact hac h
    · exact hbd h
    · exact had hcd
    · exact had hab
  have three : (Coloring.extend g [] g.searchOrder).colorsUsed = 3 := by decide
  obtain ⟨n, largest, along, -, backwards⟩ :=
    chordal_colors_along_search twoTriangles [.rbx, .rsi, .rdi] unmoved chordal
  obtain rfl : 3 = n := three.symm.trans along
  exact ⟨unmoved, chordal, three, largest, (backwards free).2 (by decide)⟩

/-- A path of four registers, numbered from the middle. -/
def fourInARow : List Demand :=
  [.edge 0 1, .edge 0 2, .edge 1 3]

/-- **A path of four registers is given three colours**, though it is chordal and
no three of its registers interfere with each other. So one of them is
spilled where two machine registers would do. -/
theorem path_takes_three_colors : let g := Interference.ofDemands fourInARow
    (∀ x, g.partners x = []) ∧ Chordal g.graph ∧ g.IsCliqueNumber 2
      ∧ Coloring.colorsUsed (ofInterference [.rbx, .rsi] g).colors = 3
      ∧ (ofInterference [.rbx, .rsi] g).spillSlots = 1 := by
  intro g
  have hg : g.WellFormed := Interference.wellFormed_ofDemands _
  have unmoved : ∀ x, g.partners x = [] := fun _ => rfl
  have chordal : Chordal g.graph := chordal_of_neighbors hg (by decide)
  have largest : g.IsCliqueNumber (Coloring.extend g [] g.searchOrder).colorsUsed :=
    Coloring.isCliqueNumber_colorsUsed hg unmoved (Interference.searchOrder_perm hg.sorted)
      (Interference.not_obstructed_searchOrder hg chordal)
  have two : (Coloring.extend g [] g.searchOrder).colorsUsed = 2 := by decide
  exact ⟨unmoved, chordal, two ▸ largest, by decide, by decide⟩

end Allocation

end SsaCompiler
