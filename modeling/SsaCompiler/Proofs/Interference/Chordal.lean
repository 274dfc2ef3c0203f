import Mathlib.Combinatorics.SimpleGraph.Clique
import Mathlib.Combinatorics.SimpleGraph.Metric
import Mathlib.Combinatorics.SimpleGraph.Walk.Chord

/-!
# Chordal graphs

In a **chordal** graph every cycle through four vertices or more has a chord.
The interference graphs of programs in static single assignment form are
of this kind, and their vertices can be coloured with as few colours as the
largest clique asks for, if they are coloured in a suitable order.

What makes an order suitable rests on one fact. Take a path without chords
and a vertex beside it that is adjacent to both of its ends: **then it is
adjacent to all of the path** (`Chordal.adj_of_chordless`). For otherwise a
part of the path and the vertex would make a cycle without chords.
-/

namespace SsaCompiler

open List

open SimpleGraph

variable {V : Type} {G : SimpleGraph V} {u v w x z : V}

/-- **A chordal graph**: a cycle through four vertices or more has a chord. -/
def Chordal (G : SimpleGraph V) : Prop :=
  ∀ ⦃u : V⦄ (p : G.Walk u u), p.IsCycle → 4 ≤ p.length → ∃ e, p.IsChord e

/-! ## Paths without chords -/

section Parts

variable [DecidableEq V] {p : G.Walk u w}

/-- Two parts of a path have only the vertex in common where it is divided. -/
theorem eq_of_mem_takeUntil_dropUntil (hp : p.IsPath) (hv : v ∈ p.support)
    (hx : x ∈ (p.takeUntil v hv).support) (hx' : x ∈ (p.dropUntil v hv).support) : x = v := by
  have nodup := hp.support_nodup
  rw [← p.take_spec hv, Walk.support_append] at nodup
  by_contra hne
  have tail : x ∈ (p.dropUntil v hv).support.tail := by
    rw [Walk.mem_support_iff] at hx'
    exact hx'.resolve_left hne
  exact (nodup_append.1 nodup).2.2 x hx x tail rfl

theorem mem_edges_takeUntil_or_dropUntil (hv : v ∈ p.support) {e : Sym2 V} (he : e ∈ p.edges) :
    e ∈ (p.takeUntil v hv).edges ∨ e ∈ (p.dropUntil v hv).edges := by
  rw [← p.take_spec hv, Walk.edges_append] at he
  exact mem_append.1 he

theorem isChordless_takeUntil (hp : p.IsPath) (h : p.IsChordless) (hv : v ∈ p.support) :
    (p.takeUntil v hv).IsChordless := by
  refine Walk.isChordless_iff_forall_mem_edges.2 fun a b ha hb hab => ?_
  have sub := p.support_takeUntil_subset_support hv
  refine (mem_edges_takeUntil_or_dropUntil hv (h.mem_edges (sub ha) (sub hb) hab)).resolve_right
    fun he => ?_
  have ha' := eq_of_mem_takeUntil_dropUntil hp hv ha (Walk.fst_mem_support_of_mem_edges _ he)
  have hb' := eq_of_mem_takeUntil_dropUntil hp hv hb (Walk.snd_mem_support_of_mem_edges _ he)
  exact hab.ne (ha'.trans hb'.symm)

theorem isChordless_dropUntil (hp : p.IsPath) (h : p.IsChordless) (hv : v ∈ p.support) :
    (p.dropUntil v hv).IsChordless := by
  refine Walk.isChordless_iff_forall_mem_edges.2 fun a b ha hb hab => ?_
  have sub := p.support_dropUntil_subset_support hv
  refine (mem_edges_takeUntil_or_dropUntil hv (h.mem_edges (sub ha) (sub hb) hab)).resolve_left
    fun he => ?_
  have ha' := eq_of_mem_takeUntil_dropUntil hp hv (Walk.fst_mem_support_of_mem_edges _ he) ha
  have hb' := eq_of_mem_takeUntil_dropUntil hp hv (Walk.snd_mem_support_of_mem_edges _ he) hb
  exact hab.ne (ha'.trans hb'.symm)

end Parts

/-- The cycle that a path and a vertex beside it make. -/
theorem isCycle_of_isPath {p : G.Walk u w} (hp : p.IsPath) (hlen : 2 ≤ p.length)
    (hz : z ∉ p.support) (hu : G.Adj z u) (hw : G.Adj w z) :
    (Walk.cons hu (p.concat hw)).IsCycle := by
  refine (Walk.cons_isCycle_iff _ _).2 ⟨hp.concat hz hw, fun he => ?_⟩
  rw [Walk.edges_concat, concat_eq_append, mem_append, mem_singleton] at he
  rcases he with he | he
  · exact hz (Walk.fst_mem_support_of_mem_edges _ he)
  · have huw : u = w := by
      rcases Sym2.eq_iff.1 he with ⟨h, -⟩ | ⟨-, h⟩
      · exact absurd h hw.ne'
      · exact h
    subst huw
    have := Walk.length_eq_zero_iff.2 (Walk.isPath_iff_nil.1 hp)
    omega

/-- A vertex adjacent to both ends of a path without chords is adjacent to a
vertex between them. -/
theorem Chordal.exists_adj_between (hG : Chordal G) {p : G.Walk u w} (hp : p.IsPath)
    (h : p.IsChordless) (hlen : 2 ≤ p.length) (hz : z ∉ p.support) (hu : G.Adj z u)
    (hw : G.Adj z w) : ∃ c ∈ p.support, c ≠ u ∧ c ≠ w ∧ G.Adj z c := by
  have long : 4 ≤ (Walk.cons hu (p.concat hw.symm)).length := by
    rw [Walk.length_cons, Walk.length_concat]
    omega
  obtain ⟨e, chord⟩ := hG _ (isCycle_of_isPath hp hlen hz hu hw.symm) long
  induction e using Sym2.ind with
  | _ a b =>
    obtain ⟨hab, he, ha, hb⟩ := Walk.isChord_sym2Mk.1 chord
    simp only [Walk.edges_cons, Walk.edges_concat, concat_eq_append, mem_cons,
      mem_append, not_mem_nil, or_false, not_or] at he
    obtain ⟨hf, hi, hl⟩ := he
    -- a chord at `z` goes to the inside of the path
    have inner : ∀ c, c = z ∨ c ∈ p.support → G.Adj z c → s(z, c) ≠ s(z, u) →
        s(z, c) ≠ s(w, z) → ∃ c ∈ p.support, c ≠ u ∧ c ≠ w ∧ G.Adj z c := by
      intro c hc hzc hne hne'
      refine ⟨c, hc.resolve_left hzc.ne', fun e => hne (e ▸ rfl), fun e => hne' ?_, hzc⟩
      rw [e, Sym2.eq_swap]
    have side : ∀ c, c ∈ (Walk.cons hu (p.concat hw.symm)).support → c = z ∨ c ∈ p.support := by
      intro c hc
      simp only [Walk.support_cons, Walk.support_concat, mem_cons, mem_append] at hc
      tauto
    rcases side a ha with rfl | ha'
    · exact inner b (side b hb) hab hf hl
    · rcases side b hb with rfl | hb'
      · rw [Sym2.eq_swap] at hf hl
        exact inner a (side a ha) hab.symm hf hl
      · exact absurd (h.mem_edges ha' hb' hab) hi

/-- **A vertex adjacent to both ends of a path without chords is adjacent to all
of the path.** -/
theorem Chordal.adj_of_chordless (hG : Chordal G) {u w : V} (p : G.Walk u w) (hp : p.IsPath)
    (h : p.IsChordless) (hz : z ∉ p.support) (hu : G.Adj z u) (hw : G.Adj z w) {b : V}
    (hb : b ∈ p.support) : G.Adj z b := by
  classical
  induction hn : p.length using Nat.strong_induction_on generalizing u w with
  | _ n ih =>
    by_cases hl : 2 ≤ p.length
    · -- divide the path at a vertex between its ends
      obtain ⟨c, hc, hcu, hcw, hzc⟩ := hG.exists_adj_between hp h hl hz hu hw
      rw [← p.take_spec hc, Walk.mem_support_append_iff] at hb
      rcases hb with hb | hb
      · refine ih _ ?_ (p.takeUntil c hc) (hp.takeUntil hc) (isChordless_takeUntil hp h hc)
          (fun hz' => hz (p.support_takeUntil_subset_support hc hz')) hu hzc hb rfl
        exact hn ▸ Walk.length_takeUntil_lt_length hc hcw
      · refine ih _ ?_ (p.dropUntil c hc) (hp.dropUntil hc) (isChordless_dropUntil hp h hc)
          (fun hz' => hz (p.support_dropUntil_subset_support hc hz')) hzc hw hb rfl
        exact hn ▸ Walk.length_dropUntil_lt_length hc hcu
    · cases p with
      | nil =>
        rw [Walk.support_nil, mem_singleton] at hb
        exact hb ▸ hu
      | cons hadj q =>
        cases q with
        | nil =>
          simp only [Walk.support_cons, Walk.support_nil, mem_cons, not_mem_nil, or_false] at hb
          rcases hb with rfl | rfl
          · exact hu
          · exact hw
        | cons _ q =>
          rw [Walk.length_cons, Walk.length_cons] at hl
          omega

/-! ## Shortest paths -/

/-- The part of a graph that lies within a set of vertices. -/
def within (G : SimpleGraph V) (T : Set V) : SimpleGraph V where
  Adj a b := G.Adj a b ∧ a ∈ T ∧ b ∈ T
  symm := ⟨fun _ _ h => ⟨h.1.symm, h.2.2, h.2.1⟩⟩
  loopless := ⟨fun _ h => G.irrefl h.1⟩

/-- **A shortest path has no chords.** -/
theorem mem_edges_of_length_eq_dist [DecidableEq V] {p : G.Walk u w}
    (hlen : p.length = G.dist u w) {a b : V} (ha : a ∈ p.support) (hb : b ∈ p.support)
    (hab : G.Adj a b) : s(a, b) ∈ p.edges := by
  -- the part between them is a shortest path as well, and so a single edge
  have single : ∀ {a b : V} (q : G.Walk a b), q.IsSubwalk p → G.Adj a b → s(a, b) ∈ p.edges := by
    intro a b q hq hab
    have ho := length_eq_dist_of_subwalk hlen hq
    rw [dist_eq_one_iff_adj.2 hab] at ho
    refine hq.edges_subset ?_
    cases q with
    | nil => exact absurd hab (G.irrefl)
    | cons hadj r =>
      cases r with
      | nil => exact .head _
      | cons _ r =>
        rw [Walk.length_cons, Walk.length_cons] at ho
        omega
  rw [← p.take_spec ha, Walk.mem_support_append_iff] at hb
  rcases hb with hb | hb
  · rw [Sym2.eq_swap]
    exact single _ ((Walk.isSubwalk_dropUntil _ hb).trans (p.isSubwalk_takeUntil ha)) hab.symm
  · exact single _ ((Walk.isSubwalk_takeUntil _ hb).trans (p.isSubwalk_dropUntil ha)) hab

theorem mem_of_mem_support_within {T : Set V} (p : (within G T).Walk u w) (hu : u ∈ T) :
    ∀ a ∈ p.support, a ∈ T := by
  induction p with
  | nil =>
    intro a ha
    rw [Walk.support_nil, mem_singleton] at ha
    exact ha ▸ hu
  | cons hadj q ih =>
    intro a ha
    rcases mem_cons.1 ha with rfl | ha
    · exact hu
    · exact ih hadj.2.2 a ha

/-- **A path without chords within a set**, between two vertices that are
connected there. -/
theorem exists_chordless_path {T : Set V} (hu : u ∈ T) (h : (within G T).Reachable u w) :
    ∃ p : G.Walk u w, p.IsPath ∧ p.IsChordless ∧ ∀ a ∈ p.support, a ∈ T := by
  classical
  obtain ⟨p, hp, hlen⟩ := h.exists_path_of_dist
  have hle : within G T ≤ G := fun _ _ h => h.1
  have hm := mem_of_mem_support_within p hu
  refine ⟨p.mapLe hle, hp.mapLe hle, Walk.isChordless_iff_forall_mem_edges.2 ?_, ?_⟩
  · intro a b ha hb hab
    rw [Walk.support_mapLe_eq_support] at ha hb
    rw [Walk.edges_mapLe_eq_edges]
    exact mem_edges_of_length_eq_dist hlen ha hb ⟨hab, hm a ha, hm b hb⟩
  · intro a ha
    rw [Walk.support_mapLe_eq_support] at ha
    exact hm a ha

/-- **What separates two vertices that are not adjacent.** If they are connected
through `S`, some vertex of `S` is adjacent to the second one and to every
vertex outside that is adjacent to both. -/
theorem Chordal.exists_adj_common (hG : Chordal G) {S : Set V} (hne : v ≠ x)
    (hvx : ¬ G.Adj v x) (h : (within G (insert v (insert x S))).Reachable v x) :
    ∃ u ∈ S, G.Adj u x
      ∧ ∀ z ∉ S, z ≠ v → z ≠ x → G.Adj z v → G.Adj z x → G.Adj z u := by
  obtain ⟨p, hp, chordless, hm⟩ := exists_chordless_path (Set.mem_insert _ _) h
  have hn : ¬ p.Nil := fun hn => hne hn.eq
  have hl : G.Adj p.penultimate x := p.adj_penultimate hn
  have hin : p.penultimate ∈ p.support := p.getVert_mem_support _
  refine ⟨p.penultimate, ?_, hl, fun z hz hzv hzx hv hx => ?_⟩
  · rcases hm _ hin with e | e | hS
    · exact absurd (e ▸ hl) hvx
    · exact absurd e hl.ne
    · exact hS
  · refine hG.adj_of_chordless p hp chordless (fun hz' => ?_) hv hx hin
    rcases hm z hz' with e | e | hS
    · exact hzv e
    · exact hzx e
    · exact hz hS

/-! ## Orders of elimination -/

/-- **A graph is chordal if its vertices can be numbered** so that the smaller
neighbours of a vertex are adjacent to each other. -/
theorem chordal_of_lt {G : SimpleGraph Nat}
    (h : ∀ v x y, x < v → y < v → G.Adj v x → G.Adj v y → x ≠ y → G.Adj x y) : Chordal G := by
  intro u p hp hl
  -- start the cycle at its greatest vertex
  obtain ⟨v, hv, hm⟩ : ∃ v ∈ p.support, ∀ x ∈ p.support, x ≤ v := by
    obtain ⟨v, hv, hm⟩ := p.support.toFinset.exists_max_image id ⟨u, by simp⟩
    exact ⟨v, by simpa using hv, fun x hx => hm x (by simpa using hx)⟩
  have hq := hp.rotate hv
  have hs : ∀ {x}, x ∈ (p.rotate v hv).support ↔ x ∈ p.support :=
    p.mem_support_rotate_iff v hv
  have hedges : ∀ {e}, e ∈ (p.rotate v hv).edges ↔ e ∈ p.edges :=
    (p.rotate_edges v hv).perm.mem_iff
  rw [← p.length_rotate v hv] at hl
  generalize p.rotate v hv = q at hq hs hedges hl
  cases q with
  | nil => exact absurd hl (by rw [Walk.length_nil]; omega)
  | @cons _ x _ hvx q =>
    obtain ⟨hpath, hc⟩ := (Walk.cons_isCycle_iff q hvx).1 hq
    have hn : ¬ q.Nil := fun hn => hvx.ne hn.eq.symm
    have hvy : G.Adj v q.penultimate := (q.adj_penultimate hn).symm
    have hx : x ∈ p.support := hs.1 (.tail _ q.start_mem_support)
    have hy : q.penultimate ∈ p.support :=
      hs.1 (.tail _ (q.getVert_mem_support _))
    have hne : x ≠ q.penultimate := fun e => hc <| by
      have := q.mk_penultimate_end_mem_edges hn
      rwa [← e, Sym2.eq_swap] at this
    have hadj : G.Adj x q.penultimate := h v x _ (lt_of_le_of_ne (hm x hx) hvx.ne')
      (lt_of_le_of_ne (hm _ hy) hvy.ne') hvx hvy hne
    refine ⟨s(x, q.penultimate), Walk.isChord_sym2Mk.2 ⟨hadj, fun he => ?_, hx, hy⟩⟩
    rcases mem_cons.1 (hedges.2 he) with e | he
    · rcases Sym2.eq_iff.1 e with ⟨e, -⟩ | ⟨-, e⟩
      · exact hvx.ne' e
      · exact hvy.ne' e
    · -- the only edge of a path at its start is the first, and the path is too long
      have hsnd : q.getVert (q.length - 1) = q.getVert 1 := hpath.eq_snd_of_mem_edges he
      rw [Walk.length_cons] at hl
      have := hpath.getVert_injOn (show q.length - 1 ≤ q.length by omega)
        (show 1 ≤ q.length by omega) hsnd
      omega

end SsaCompiler
