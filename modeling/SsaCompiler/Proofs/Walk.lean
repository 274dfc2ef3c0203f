import Mathlib.Data.List.Nodup
import Mathlib.Data.List.Perm.Subperm
import SsaCompiler.Walk

/-!
# Depth-first walks: members and order

A walk is described by the vertices it adds. `Walk.Adds` holds of every
walk, whatever its bound: the new vertices are entered and left once, none
of them was entered before, and all of them can be reached. `Walk.Covers`
needs a bound that is large enough, namely at least the number of vertices
of a closed set that were not entered yet: then **whatever can be
reached is entered**, and the order in which vertices are left is as it
should be.

A vertex that was entered and not left yet is on the way to the present
one. That is the reason why a vertex leads to vertices left before it, **or
to vertices that lead back to it**.

The walk may also be made without a recursion, by a loop with a stack
(`Walk.Loops`). The loop has no bound, **it ends, and it leaves the same
vertices in the same order** (`Walk.exists_loops`).
-/

namespace SsaCompiler.Walk

open List

variable {next : Nat → List Nat} {bound v x : Nat} {roots new vertices : List Nat} {w : Walk}

/-- **What can be reached along `next`.** -/
def Reach (next : Nat → List Nat) : Nat → Nat → Prop :=
  Relation.ReflTransGen fun a b => b ∈ next a

/-- **What a walk from some vertices adds**: `new` lists the vertices that
were entered and left meanwhile, the latest first. -/
structure Adds (next : Nat → List Nat) (roots : List Nat) (w w' : Walk) (new : List Nat) :
    Prop where
  left_eq : w'.left = new ++ w.left
  mem_entered : ∀ x, x ∈ w'.entered ↔ x ∈ new ∨ x ∈ w.entered
  nodup : new.Nodup
  fresh : ∀ x ∈ new, x ∉ w.entered
  reached : ∀ x ∈ new, ∃ r ∈ roots, Reach next r x

theorem Adds.refl (roots : List Nat) (w : Walk) : Adds next roots w w [] :=
  ⟨rfl, fun x => by simp, nodup_nil, forall_mem_nil _,
    forall_mem_nil _⟩

/-- One walk after another. -/
theorem Adds.trans {roots' all : List Nat} {w₁ w₂ w₃ : Walk} {new' : List Nat}
    (h : Adds next roots w₁ w₂ new) (h' : Adds next roots' w₂ w₃ new') (hr : roots ⊆ all)
    (hr' : roots' ⊆ all) : Adds next all w₁ w₃ (new' ++ new) := by
  refine ⟨?_, fun x => ?_, ?_, fun x hx => ?_, fun x hx => ?_⟩
  · rw [h'.left_eq, h.left_eq, append_assoc]
  · rw [h'.mem_entered, h.mem_entered, mem_append, or_assoc]
  · refine nodup_append.2 ⟨h'.nodup, h.nodup, fun x hx y hy e => ?_⟩
    exact h'.fresh x hx ((h.mem_entered x).2 (.inl (e ▸ hy)))
  · rcases mem_append.1 hx with hx | hx
    · exact fun he => h'.fresh x hx ((h.mem_entered x).2 (.inr he))
    · exact h.fresh x hx
  · rcases mem_append.1 hx with hx | hx
    · obtain ⟨r, hr, hx⟩ := h'.reached x hx
      exact ⟨r, hr' hr, hx⟩
    · obtain ⟨r, hr', hx⟩ := h.reached x hx
      exact ⟨r, hr hr', hx⟩

/-- Entering a vertex, walking on and leaving it again. -/
theorem Adds.enter {inner : Walk} (he : v ∉ w.entered)
    (h : Adds next (next v) { w with entered := v :: w.entered } inner new) :
    Adds next [v] w { inner with left := v :: inner.left } (v :: new) := by
  refine ⟨congrArg (v :: ·) h.left_eq, fun x => ?_, ?_, fun x hx => ?_, fun x hx => ?_⟩
  · rw [h.mem_entered, mem_cons, mem_cons]
    exact or_left_comm.trans or_assoc.symm
  · exact nodup_cons.2 ⟨fun hv => h.fresh v hv (.head _), h.nodup⟩
  · rcases mem_cons.1 hx with rfl | hx
    · exact he
    · exact fun hw => h.fresh x hx (.tail _ hw)
  · rcases mem_cons.1 hx with rfl | hx
    · exact ⟨x, .head _, .refl⟩
    · obtain ⟨r, hr, hx⟩ := h.reached x hx
      exact ⟨v, .head _, .head hr hx⟩

/-- The walk from a list of vertices, one after the other, adds what its
single walks add. -/
theorem adds_foldl (h : ∀ w v, ∃ new, Adds next [v] w (visit next bound w v) new)
    (roots : List Nat) (w : Walk) :
    ∃ new, Adds next roots w (roots.foldl (visit next bound) w) new := by
  induction roots generalizing w with
  | nil => exact ⟨[], .refl _ _⟩
  | cons v rest ih =>
    obtain ⟨new, hv⟩ := h w v
    obtain ⟨new', hr⟩ := ih (visit next bound w v)
    exact ⟨new' ++ new, hv.trans hr (by simp) (by simp)⟩

/-- **Every walk adds vertices that it reaches, each once.** -/
theorem adds_visit (next : Nat → List Nat) (bound : Nat) (w : Walk) (v : Nat) :
    ∃ new, Adds next [v] w (visit next bound w v) new := by
  induction bound generalizing w v with
  | zero => exact ⟨[], .refl _ _⟩
  | succ bound ih =>
    rw [visit]
    by_cases he : w.entered.contains v = true
    · rw [if_pos he]
      exact ⟨[], .refl _ _⟩
    · rw [if_neg he]
      obtain ⟨new, h⟩ := adds_foldl ih (next v) { w with entered := v :: w.entered }
      exact ⟨v :: new, h.enter (by simpa using he)⟩

/-! ## Walks with a sufficient bound -/

/-- Those of some vertices that a walk has not entered. -/
def unentered (vertices : List Nat) (w : Walk) : List Nat :=
  vertices.filter (· ∉ w.entered)

/-- **A walk that misses nothing**: its roots are entered, and so is
whatever a new vertex leads to. If every vertex entered and not left leads
to the roots, a new vertex leads to vertices left before it or to vertices
that lead back to it. -/
structure Covers (next : Nat → List Nat) (roots : List Nat) (w w' : Walk) (new : List Nat) :
    Prop where
  roots_entered : ∀ r ∈ roots, r ∈ w'.entered
  closed : ∀ x ∈ new, ∀ y ∈ next x, y ∈ w'.entered
  order : (∀ g ∈ w.entered, g ∉ w.left → ∀ r ∈ roots, Reach next g r) →
    ∀ before x after, new = before ++ x :: after → ∀ y ∈ next x,
      y ∈ after ∨ y ∈ w.left ∨ Reach next y x

/-- A vertex that a walk enters was left by it, or entered before. -/
theorem Adds.unentered_le {w' : Walk} (h : Adds next roots w w' new) :
    (unentered vertices w').length ≤ (unentered vertices w).length := by
  refine (monotone_filter_right vertices fun x hx => ?_).length_le
  simp only [decide_eq_true_eq] at hx ⊢
  exact fun he => hx ((h.mem_entered x).2 (.inr he))

theorem append_eq_append_cons {α : Type} {l m before after : List α} {x : α}
    (h : l ++ m = before ++ x :: after) :
    (∃ rest, l = before ++ x :: rest ∧ after = rest ++ m)
      ∨ ∃ front, m = front ++ x :: after := by
  rcases append_eq_append_iff.1 h with ⟨t, rfl, ht⟩ | ⟨t, rfl, ht⟩
  · exact .inr ⟨t, ht⟩
  · cases t with
    | nil => exact .inr ⟨[], by simpa using ht.symm⟩
    | cons y t =>
      cases ht
      exact .inl ⟨t, rfl, rfl⟩

/-- The walk from a list of vertices misses nothing if its single walks do
not. -/
theorem covers_foldl (h : ∀ w v, v ∈ vertices → (unentered vertices w).length ≤ bound →
      ∃ new, Adds next [v] w (visit next bound w v) new
        ∧ Covers next [v] w (visit next bound w v) new) (roots : List Nat)
    (hroots : roots ⊆ vertices) (w : Walk) (hb : (unentered vertices w).length ≤ bound) :
    ∃ new, Adds next roots w (roots.foldl (visit next bound) w) new
      ∧ Covers next roots w (roots.foldl (visit next bound) w) new := by
  induction roots generalizing w with
  | nil =>
    exact ⟨[], .refl _ _, forall_mem_nil _, forall_mem_nil _, fun _ b x a e => by simp at e⟩
  | cons v rest ih =>
    obtain ⟨new, hv, cv⟩ := h w v (hroots (.head _)) hb
    obtain ⟨new', hr, cr⟩ := ih (fun x hx => hroots (.tail _ hx))
      (visit next bound w v) (Nat.le_trans hv.unentered_le hb)
    refine ⟨new' ++ new, hv.trans hr (by simp) (by simp), ?_, ?_, ?_⟩
    · intro r hr'
      rcases mem_cons.1 hr' with rfl | hr'
      · exact (hr.mem_entered r).2 (.inr (cv.roots_entered r (.head _)))
      · exact cr.roots_entered r hr'
    · intro x hx y hy
      rcases mem_append.1 hx with hx | hx
      · exact cr.closed x hx y hy
      · exact (hr.mem_entered y).2 (.inr (cv.closed x hx y hy))
    · intro grey before x after e y hy
      rcases append_eq_append_cons e with ⟨rest', e', rfl⟩ | ⟨front, e'⟩
      · -- what the first walk entered it has left, so the same vertices are pending
        have grey' : ∀ g ∈ (visit next bound w v).entered,
            g ∉ (visit next bound w v).left → ∀ r ∈ rest, Reach next g r := by
          intro g hg hg' r hr'
          rw [hv.left_eq, mem_append, not_or] at hg'
          rcases (hv.mem_entered g).1 hg with hg | hg
          · exact absurd hg hg'.1
          · exact grey g hg hg'.2 r (.tail _ hr')
        rcases cr.order grey' before x rest' e' y hy with hy | hy | hy
        · exact .inl (mem_append_left _ hy)
        · rw [hv.left_eq] at hy
          rcases mem_append.1 hy with hy | hy
          · exact .inl (mem_append_right _ hy)
          · exact .inr (.inl hy)
        · exact .inr (.inr hy)
      · have grey' : ∀ g ∈ w.entered, g ∉ w.left → ∀ r ∈ [v], Reach next g r := by
          intro g hg hg' r hr'
          rw [mem_singleton.1 hr']
          exact grey g hg hg' v (.head _)
        exact cv.order grey' front x after e' y hy

theorem unentered_cons_lt (hv : v ∈ vertices) (he : v ∉ w.entered) :
    (unentered vertices { w with entered := v :: w.entered }).length
      < (unentered vertices w).length := by
  have sub : (unentered vertices { w with entered := v :: w.entered }).Sublist
      (unentered vertices w) := by
    refine monotone_filter_right vertices fun x hx => ?_
    simp only [decide_eq_true_eq, mem_cons, not_or] at hx ⊢
    exact hx.2
  refine Nat.lt_of_le_of_ne sub.length_le fun e => ?_
  have : v ∈ unentered vertices { w with entered := v :: w.entered } := by
    rw [sub.eq_of_length e]
    exact mem_filter.2 ⟨hv, by simpa using he⟩
  simp [unentered] at this

theorem mem_entered_of_unentered_le (hv : v ∈ vertices) (hb : (unentered vertices w).length ≤ 0) :
    v ∈ w.entered := by
  by_contra he
  have : v ∈ unentered vertices w := mem_filter.2 ⟨hv, by simpa using he⟩
  rw [eq_nil_of_length_eq_zero (Nat.le_zero.1 hb)] at this
  cases this

theorem Covers.of_mem (he : v ∈ w.entered) : Covers next [v] w w [] :=
  ⟨fun _ hr => (mem_singleton.1 hr).symm ▸ he, forall_mem_nil _, fun _ _ _ _ e => by simp at e⟩

/-- **With a sufficient bound a walk misses nothing.** -/
theorem covers_visit (hclosed : ∀ x ∈ vertices, next x ⊆ vertices) (bound : Nat) (w : Walk)
    (v : Nat) (hv : v ∈ vertices) (hb : (unentered vertices w).length ≤ bound) :
    ∃ new, Adds next [v] w (visit next bound w v) new
      ∧ Covers next [v] w (visit next bound w v) new := by
  induction bound generalizing w v with
  | zero => exact ⟨[], .refl _ _, .of_mem (mem_entered_of_unentered_le hv hb)⟩
  | succ bound ih =>
    rw [visit]
    by_cases he : w.entered.contains v = true
    · rw [if_pos he]
      exact ⟨[], .refl _ _, .of_mem (by simpa using he)⟩
    · rw [if_neg he]
      have he : v ∉ w.entered := by simpa using he
      have hb' : (unentered vertices { w with entered := v :: w.entered }).length ≤ bound := by
        have := unentered_cons_lt hv he
        omega
      obtain ⟨new, h, c⟩ := covers_foldl ih (next v) (hclosed v hv)
        { w with entered := v :: w.entered } hb'
      refine ⟨v :: new, h.enter he, ?_, ?_, ?_⟩
      · intro r hr
        rw [mem_singleton.1 hr]
        exact (h.mem_entered v).2 (.inr (.head _))
      · intro x hx y hy
        rcases mem_cons.1 hx with rfl | hx
        · exact c.roots_entered y hy
        · exact c.closed x hx y hy
      · intro grey before x after e y hy
        cases before with
        | nil =>
          cases e
          rcases (h.mem_entered y).1 (c.roots_entered y hy) with hy' | hy'
          · exact .inl hy'
          · rcases mem_cons.1 hy' with rfl | hy'
            · exact .inr (.inr .refl)
            · by_cases hl : y ∈ w.left
              · exact .inr (.inl hl)
              · exact .inr (.inr (grey y hy' hl v (.head _)))
        | cons z before =>
          have split : new = before ++ x :: after := (List.cons.inj e).2
          refine c.order (fun g hg hg' r hr => ?_) before x after split y hy
          rcases mem_cons.1 hg with rfl | hg
          · exact .single hr
          · exact (grey g hg hg' v (.head _)).tail hr

/-! ## Walks as loops -/

/-- What is on the stack of a loop: a vertex to enter, or one to leave. -/
inductive Task where
  | enter (v : Nat)
  | leave (v : Nat)

/-- **The walk as a loop**, which takes one task after the other from a stack and ends
when there is none. A vertex that is entered is put back on the stack, to be left when
what it leads to is done. -/
inductive Loops (next : Nat → List Nat) : List Task → Walk → Walk → Prop where
  | done {w : Walk} : Loops next [] w w
  | leave {v : Nat} {stack : List Task} {w w' : Walk}
      (rest : Loops next stack { w with left := v :: w.left } w') :
      Loops next (.leave v :: stack) w w'
  | skip {v : Nat} {stack : List Task} {w w' : Walk} (old : v ∈ w.entered)
      (rest : Loops next stack w w') : Loops next (.enter v :: stack) w w'
  | enter {v : Nat} {stack : List Task} {w w' : Walk} (fresh : v ∉ w.entered)
      (rest : Loops next ((next v).map .enter ++ .leave v :: stack)
        { w with entered := v :: w.entered } w') : Loops next (.enter v :: stack) w w'

variable {w' : Walk} {stack stack' : List Task}

theorem loops_nil : Loops next [] w w' ↔ w' = w := ⟨fun h => by cases h; rfl, fun h => h ▸ .done⟩

theorem loops_leave :
    Loops next (.leave v :: stack) w w' ↔ Loops next stack { w with left := v :: w.left } w' :=
  ⟨fun h => by cases h; assumption, .leave⟩

theorem loops_enter_of_mem (he : v ∈ w.entered) :
    Loops next (.enter v :: stack) w w' ↔ Loops next stack w w' := by
  refine ⟨fun h => ?_, .skip he⟩
  cases h with
  | skip _ rest => exact rest
  | enter fresh _ => exact absurd he fresh

theorem loops_enter_of_not_mem (he : v ∉ w.entered) : Loops next (.enter v :: stack) w w' ↔
      Loops next ((next v).map .enter ++ .leave v :: stack)
        { w with entered := v :: w.entered } w' := by
  refine ⟨fun h => ?_, .enter he⟩
  cases h with
  | skip old _ => exact absurd old he
  | enter _ rest => exact rest

/-- **A stack may be worked off in two parts**, each with a loop of its own. -/
theorem loops_append : Loops next (stack ++ stack') w w' ↔
      ∃ inner, Loops next stack w inner ∧ Loops next stack' inner w' := by
  constructor
  · intro h
    generalize ha : stack ++ stack' = all at h
    induction h generalizing stack with
    | done =>
      obtain ⟨rfl, rfl⟩ := append_eq_nil_iff.1 ha
      exact ⟨_, .done, .done⟩
    | leave rest ih =>
      cases stack with
      | nil =>
        obtain rfl : stack' = _ := ha
        exact ⟨_, .done, .leave rest⟩
      | cons =>
        cases ha
        obtain ⟨inner, h, h'⟩ := ih rfl
        exact ⟨inner, .leave h, h'⟩
    | skip old rest ih =>
      cases stack with
      | nil =>
        obtain rfl : stack' = _ := ha
        exact ⟨_, .done, .skip old rest⟩
      | cons =>
        cases ha
        obtain ⟨inner, h, h'⟩ := ih rfl
        exact ⟨inner, .skip old h, h'⟩
    | enter fresh rest ih =>
      cases stack with
      | nil =>
        obtain rfl : stack' = _ := ha
        exact ⟨_, .done, .enter fresh rest⟩
      | cons =>
        cases ha
        obtain ⟨inner, h, h'⟩ := ih (append_assoc _ (_ :: _) _)
        exact ⟨inner, .enter fresh h, h'⟩
  · rintro ⟨inner, h, h'⟩
    induction h with
    | done => exact h'
    | leave _ ih => exact .leave (ih h')
    | skip old _ ih => exact .skip old (ih h')
    | enter fresh _ ih => exact .enter fresh (append_assoc _ (_ :: _) _ ▸ ih h')

/-- The loop takes the roots of a walk one after the other, if it takes each of them as
a walk does. -/
theorem loops_foldl (h : ∀ w v stack, v ∈ vertices → (unentered vertices w).length ≤ bound →
      (Loops next (.enter v :: stack) w w' ↔ Loops next stack (visit next bound w v) w'))
    (roots : List Nat) (hroots : roots ⊆ vertices) (w : Walk)
    (hb : (unentered vertices w).length ≤ bound) :
    Loops next (roots.map .enter ++ stack) w w' ↔
      Loops next stack (roots.foldl (visit next bound) w) w' := by
  induction roots generalizing w with
  | nil => exact Iff.rfl
  | cons v rest ih =>
    obtain ⟨new, ha⟩ := adds_visit next bound w v
    exact (h w v _ (hroots (.head _)) hb).trans
      (ih (fun x hx => hroots (.tail _ hx)) _ (Nat.le_trans ha.unentered_le hb))

/-- **With a sufficient bound a walk does what the loop does.** -/
theorem loops_visit (hclosed : ∀ x ∈ vertices, next x ⊆ vertices) (bound : Nat) (w : Walk)
    (v : Nat) (stack : List Task) (hv : v ∈ vertices) (hb : (unentered vertices w).length ≤ bound) :
    Loops next (.enter v :: stack) w w' ↔ Loops next stack (visit next bound w v) w' := by
  induction bound generalizing w v stack with
  | zero => exact loops_enter_of_mem (mem_entered_of_unentered_le hv hb)
  | succ bound ih =>
    rw [visit]
    by_cases he : v ∈ w.entered
    · rw [if_pos (contains_iff_mem.2 he)]
      exact loops_enter_of_mem he
    · rw [if_neg (mt contains_iff_mem.1 he)]
      have hb' := Nat.le_of_lt_succ (Nat.lt_of_lt_of_le (unentered_cons_lt hv he) hb)
      exact (loops_enter_of_not_mem he).trans
        ((loops_foldl ih (next v) (hclosed v hv) _ hb').trans loops_leave)

/-! ## Postorders -/

/-- A postorder has no vertex twice. -/
theorem nodup_postorder (next : Nat → List Nat) (bound : Nat) (roots : List Nat) :
    (postorder next bound roots).Nodup := by
  obtain ⟨new, h⟩ := adds_foldl (adds_visit next bound) roots {}
  rw [postorder, h.left_eq, append_nil, nodup_reverse]
  exact h.nodup

/-- Every vertex of a postorder can be reached from a root. -/
theorem reach_of_mem_postorder (hx : x ∈ postorder next bound roots) :
    ∃ r ∈ roots, Reach next r x := by
  obtain ⟨new, h⟩ := adds_foldl (adds_visit next bound) roots {}
  rw [postorder, h.left_eq, append_nil, mem_reverse] at hx
  exact h.reached x hx

section Vertices

variable {roots : List Nat} (vertices : List Nat)

section

variable (hclosed : ∀ x ∈ vertices, next x ⊆ vertices) (hroots : roots ⊆ vertices)
  (hb : vertices.length ≤ bound)

include hclosed hroots hb

theorem covers_postorder : ∃ new, postorder next bound roots = new.reverse
      ∧ (∀ x, x ∈ (roots.foldl (visit next bound) {}).entered ↔ x ∈ new)
      ∧ Covers next roots {} (roots.foldl (visit next bound) {}) new := by
  obtain ⟨new, h, c⟩ := covers_foldl (covers_visit hclosed bound) roots hroots {}
    (Nat.le_trans (List.length_filter_le _ _) hb)
  refine ⟨new, by rw [postorder, h.left_eq, append_nil], fun x => ?_, c⟩
  rw [h.mem_entered]
  exact or_iff_left not_mem_nil

/-- The loop ends, and the vertices it has left are the postorder. -/
theorem exists_loops : ∃ w, (∀ w', Loops next (roots.map .enter) {} w' ↔ w' = w) ∧
      w.left.reverse = postorder next bound roots := by
  refine ⟨roots.foldl (visit next bound) {}, fun w' => ?_, rfl⟩
  rw [← append_nil (roots.map Task.enter)]
  exact (loops_foldl (loops_visit hclosed bound) roots hroots {}
    (Nat.le_trans (List.length_filter_le _ _) hb)).trans loops_nil

/-- Whatever can be reached is in the postorder. -/
theorem mem_postorder_of_reach {r : Nat} (hr : r ∈ roots) (hx : Reach next r x) :
    x ∈ postorder next bound roots := by
  obtain ⟨new, e, mem, c⟩ := covers_postorder vertices hclosed hroots hb
  rw [e, mem_reverse]
  induction hx with
  | refl => exact (mem r).1 (c.roots_entered r hr)
  | tail _ hy ih => exact (mem _).1 (c.closed _ ih _ hy)

/-- **A vertex comes after what it leads to**, except for vertices that lead
back to it. -/
theorem mem_before_of_mem_next {before after : List Nat} {y : Nat}
    (hx : postorder next bound roots = before ++ x :: after) (hy : y ∈ next x) :
    y ∈ before ∨ Reach next y x := by
  obtain ⟨new, e, -, c⟩ := covers_postorder vertices hclosed hroots hb
  have split : new = after.reverse ++ x :: before.reverse := by
    rw [← reverse_reverse new, ← e, hx]
    simp
  rcases c.order (forall_mem_nil _) _ x _ split y hy with h | h | h
  · exact .inl (mem_reverse.1 h)
  · cases h
  · exact .inr h

end

end Vertices

end SsaCompiler.Walk
