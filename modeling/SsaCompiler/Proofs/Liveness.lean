import Mathlib.Data.List.ProdSigma
import Mathlib.Data.List.Nodup
import Mathlib.Data.List.Perm.Subperm
import SsaCompiler.Liveness

/-!
# Liveness is what paths say

A register is live into a line when the line uses it, or when the line does
not define it and it is live into a line control may go to next. This is
stated as an inductive predicate over the lines (`Line.LiveInto`), and
**the solver finds exactly the registers it holds of**
(`Liveness.mem_liveInAt`).

What a search keeps (`Search.Sound`) is that queued facts hold, that each is
queued once, and that it is pending or has been spread. A step spreads one fact
more, and there are at most so many facts, so **the search comes to its end**
(`pending_settled`); and then every fact has been found, since what a spread
fact leads to is queued.

What the allocation of places relies on are the three closure properties
at the end: a line's uses are live into it, and what is live behind a line
is live into it unless the line defines it.
-/

namespace SsaCompiler

open List

open Liveness (lineAt)

/-- **A register is live into a line**: some path from the line reaches a use
of the register, and no line before that use defines it. -/
inductive Line.LiveInto (lines : Array Line) (r : VReg) : Nat → Prop
  | use {i : Nat} (hi : i < lines.size) (hr : r ∈ (lineAt lines i).uses) : LiveInto lines r i
  | pass {i j : Nat} (hi : i < lines.size) (hj : j ∈ (lineAt lines i).succs)
      (hr : r ∉ (lineAt lines i).defs) (h : LiveInto lines r j) : LiveInto lines r i

variable {lines : Array Line} {r : VReg} {i j : Nat}

theorem Line.LiveInto.lt (h : Line.LiveInto lines r i) : i < lines.size := by
  cases h with
  | use hi _ | pass hi _ _ _ => exact hi

theorem Line.LiveInto.exists_mem_uses (h : Line.LiveInto lines r i) :
    ∃ u < lines.size, r ∈ (lineAt lines u).uses := by
  induction h with
  | use hi hr => exact ⟨_, hi, hr⟩
  | pass _ _ _ _ ih => exact ih

namespace Liveness

theorem mem_uses : (i, r) ∈ uses lines ↔ i < lines.size ∧ r ∈ (lineAt lines i).uses := by
  simp [uses]

theorem mem_leadsTo {q : VReg} : (j, q) ∈ leadsTo lines (table lines) (i, r) ↔ q = r ∧
    i < lines.size ∧ j < lines.size ∧ i ∈ (lineAt lines j).succs ∧ r ∉ (lineAt lines j).defs := by
  have hpred : j ∈ (table lines).getD i [] ↔
      i < lines.size ∧ j < lines.size ∧ i ∈ (lineAt lines j).succs := by
    by_cases hi : i < lines.size <;> simp [table, Array.getD, hi, predecessors, count_eq_zero]
  simp only [leadsTo, mem_map, mem_filter, Prod.mk.injEq]
  grind

namespace Search

variable {s t : Search} {fact : Fact} {facts : List Fact} {steps : Nat}

/-- **What a search keeps.** -/
structure Sound (lines : Array Line) (s : Search) : Prop where
  nodup : s.queued.Nodup
  holds : ∀ f ∈ s.queued, Line.LiveInto lines f.2 f.1
  size_eq : s.liveIn.size = lines.size
  ascending : ∀ i, (s.liveIn.getD i []).Pairwise (· < ·)
  mem : ∀ i r, (i, r) ∈ s.queued ↔ (i, r) ∈ s.pending ∨ r ∈ s.liveIn.getD i []

/-- **What spread facts lead to is queued.** -/
def Closed (lines : Array Line) (s : Search) : Prop :=
  ∀ i r, r ∈ s.liveIn.getD i [] → ∀ j < lines.size, i ∈ (lineAt lines j).succs →
    r ∉ (lineAt lines j).defs → (j, r) ∈ s.queued

/-! ### Queueing facts -/

theorem queue_of_mem (h : fact ∈ s.queued) : s.queue fact = s := if_pos (contains_iff_mem.2 h)

theorem queue_of_not_mem (h : fact ∉ s.queued) :
    s.queue fact = { s with queued := fact :: s.queued, pending := fact :: s.pending } :=
  if_neg fun hc => h (contains_iff_mem.1 hc)

theorem Sound.queue (h : Sound lines s) (hf : Line.LiveInto lines fact.2 fact.1) :
    Sound lines (s.queue fact) := by
  by_cases hm : fact ∈ s.queued
  · rwa [queue_of_mem hm]
  · rw [queue_of_not_mem hm]
    refine ⟨nodup_cons.2 ⟨hm, h.nodup⟩, forall_mem_cons.2 ⟨hf, h.holds⟩, h.size_eq, h.ascending,
      fun i r => ?_⟩
    rw [mem_cons, mem_cons, h.mem, or_assoc]

/-- **Queueing some facts** queues them all, spreads none, and makes as many
pending as are new. -/
theorem queueAll (h : Sound lines s) (hfacts : ∀ f ∈ facts, Line.LiveInto lines f.2 f.1) :
    Sound lines (facts.foldl Search.queue s)
      ∧ (∀ f, f ∈ (facts.foldl Search.queue s).queued ↔ f ∈ facts ∨ f ∈ s.queued)
      ∧ (facts.foldl Search.queue s).liveIn = s.liveIn
      ∧ (facts.foldl Search.queue s).queued.length + s.pending.length
        = s.queued.length + (facts.foldl Search.queue s).pending.length := by
  induction facts generalizing s with
  | nil => exact ⟨h, by simp, rfl, rfl⟩
  | cons f facts ih =>
    obtain ⟨hf, hfacts⟩ := forall_mem_cons.1 hfacts
    obtain ⟨sound, mem, live, length⟩ := ih (h.queue hf) hfacts
    rw [foldl_cons]
    by_cases hm : f ∈ s.queued
    · rw [queue_of_mem hm] at *
      refine ⟨sound, fun g => ?_, live, length⟩
      rw [mem, mem_cons]
      exact ⟨fun hg => hg.imp_left .inr, fun hg => hg.elim
        (fun hg => hg.elim (fun e => .inr (e ▸ hm)) .inl) .inr⟩
    · rw [queue_of_not_mem hm] at *
      refine ⟨sound, fun g => ?_, live, ?_⟩
      · rw [mem, mem_cons, mem_cons]
        exact or_left_comm.trans or_assoc.symm
      · simp only [length_cons] at length
        omega

/-! ### Spreading facts -/

theorem getD_modify_insert {rows : Array (List VReg)} (hi : i < rows.size) (j : Nat) :
    (rows.modify i (Ascending.insert r)).getD j []
      = if j = i then Ascending.insert r (rows.getD i []) else rows.getD j [] := by
  simp only [Array.getD_eq_getD_getElem?, Array.getElem?_modify]
  by_cases e : i = j
  · subst e
    simp [hi]
  · rw [if_neg e, if_neg (Ne.symm e)]

/-- **A step spreads one fact** and keeps what a search keeps. -/
theorem spread_spec {rest : List Fact} (h : Sound lines s) (hc : Closed lines s)
    (hp : s.pending = (i, r) :: rest)
    (ht : spread lines (table lines) { s with pending := rest } (i, r) = t) :
    Sound lines t ∧ Closed lines t ∧ s.queued ⊆ t.queued
      ∧ t.queued.length + rest.length = s.queued.length + t.pending.length := by
  have hq := h.holds _ ((h.mem i r).2 (.inl (hp ▸ .head _)))
  have live := fun j => getD_modify_insert (r := r) (h.size_eq.symm ▸ hq.lt) j
  have marked : Sound lines
      { s with pending := rest, liveIn := s.liveIn.modify i (Ascending.insert r) } := by
    refine ⟨h.nodup, h.holds, (Array.size_modify ..).trans h.size_eq, fun j => ?_, fun j q => ?_⟩
    · rw [live]
      split
      · exact Ascending.pairwise_insert (h.ascending i)
      · exact h.ascending j
    · rw [h.mem, hp, live, mem_cons, Prod.mk.injEq]
      by_cases e : j = i
      · subst e
        rw [if_pos rfl, Ascending.mem_insert, and_iff_right rfl]
        exact or_assoc.trans or_left_comm
      · rw [if_neg e, or_iff_right fun h : j = i ∧ q = r => e h.1]
  have new : ∀ f ∈ leadsTo lines (table lines) (i, r), Line.LiveInto lines f.2 f.1 := fun f hf => by
    obtain ⟨e, -, hlt, hs, hd⟩ := mem_leadsTo.1 hf
    exact .pass hlt hs (e ▸ hd) (e ▸ hq)
  obtain ⟨sound, mem, same, length⟩ := queueAll marked new
  subst ht
  refine ⟨sound, fun j q hr k hk hs hd => (mem (k, q)).2 ?_, fun f hf => (mem f).2 (.inr hf),
    length⟩
  have hr := (congrArg (q ∈ Array.getD · j []) same).mp hr
  rw [live] at hr
  by_cases e : j = i
  · subst e
    rw [if_pos rfl, Ascending.mem_insert] at hr
    rcases hr with rfl | hr
    · exact .inl (mem_leadsTo.2 ⟨rfl, hq.lt, hk, hs, hd⟩)
    · exact .inr (hc j q hr k hk hs hd)
  · rw [if_neg e] at hr
    exact .inr (hc j q hr k hk hs hd)

/-- There are no more facts than pairs of a line and a use. -/
theorem Sound.length_queued_le (h : Sound lines s) :
    s.queued.length ≤ lines.size * (uses lines).length := by
  have subset : s.queued ⊆ (List.range lines.size) ×ˢ (uses lines).map (·.2) := fun f hf => by
    obtain ⟨u, hu, hr⟩ := (h.holds f hf).exists_mem_uses
    exact pair_mem_product.2 ⟨mem_range.2 (h.holds f hf).lt,
      mem_map.2 ⟨_, mem_uses.2 ⟨hu, hr⟩, rfl⟩⟩
  have := (subperm_of_subset h.nodup subset).length_le
  rwa [length_product, length_range, length_map] at this

/-- **A search that may take as many steps as there can be facts comes to its
end.** -/
theorem run_spec (h : Sound lines s) (hc : Closed lines s)
    (hs : lines.size * (uses lines).length + s.pending.length ≤ steps + s.queued.length)
    (ht : run lines (table lines) steps s = t) :
    Sound lines t ∧ Closed lines t ∧ s.queued ⊆ t.queued ∧ t.pending = [] := by
  induction steps generalizing s with
  | zero =>
    have := h.length_queued_le
    obtain rfl : s = t := ht
    exact ⟨h, hc, Subset.refl _, length_eq_zero_iff.1 (by omega)⟩
  | succ steps ih =>
    rw [run] at ht
    cases hp : s.pending with
    | nil =>
      rw [hp] at ht
      cases ht
      exact ⟨h, hc, Subset.refl _, hp⟩
    | cons fact rest =>
      rw [hp] at ht hs
      obtain ⟨sound, closed, subset, length⟩ := spread_spec h hc hp rfl
      rw [length_cons] at hs
      obtain ⟨sound', closed', subset', done⟩ := ih sound closed (by omega) ht
      exact ⟨sound', closed', List.Subset.trans subset subset', done⟩

/-- **The search ends with every fact spread**, and every use among them. -/
theorem settled_spec (lines : Array Line) :
    Sound lines (settled lines) ∧ Closed lines (settled lines) ∧
      uses lines ⊆ (settled lines).queued ∧ (settled lines).pending = [] := by
  have none : ∀ i, (Array.replicate lines.size ([] : List VReg)).getD i [] = [] := fun i => by
    rw [Array.getD_eq_getD_getElem?, Array.getElem?_replicate]
    split <;> rfl
  have start : Sound lines { liveIn := Array.replicate lines.size [] } :=
    ⟨nodup_nil, forall_mem_nil _, Array.size_replicate, fun i => by rw [none]; exact .nil,
      fun i r => by rw [none]; simp⟩
  have used : ∀ f ∈ uses lines, Line.LiveInto lines f.2 f.1 := fun f hf => by
    obtain ⟨hi, hr⟩ := mem_uses.1 hf
    exact .use hi hr
  obtain ⟨sound, mem, live, length⟩ := queueAll start used
  obtain ⟨sound, closed, subset, done⟩ := run_spec sound
    (fun i r hr => by rw [live, none] at hr; cases hr)
    (Nat.add_le_add_left (Nat.le_of_eq (by simpa using length.symm)) _)
    (rfl : run lines (table lines) (lines.size * (uses lines).length) _ = settled lines)
  exact ⟨sound, closed, fun f hf => subset ((mem f).2 (.inl hf)), done⟩

theorem pending_settled (lines : Array Line) : (settled lines).pending = [] :=
  (settled_spec lines).2.2.2

theorem mem_queued_settled : (i, r) ∈ (settled lines).queued ↔ r ∈ (solve lines).liveInAt i := by
  have := (settled_spec lines).1.mem i r
  rwa [pending_settled, or_iff_right not_mem_nil] at this

end Search

/-- **The solver finds the registers live into every line, and no
others.** -/
theorem mem_liveInAt : r ∈ (solve lines).liveInAt i ↔ Line.LiveInto lines r i := by
  obtain ⟨sound, closed, hu, -⟩ := Search.settled_spec lines
  refine ⟨fun h => sound.holds _ (Search.mem_queued_settled.2 h), fun h => ?_⟩
  induction h with
  | use hi hr => exact Search.mem_queued_settled.1 (hu (mem_uses.2 ⟨hi, hr⟩))
  | pass hi hj hr _ ih => exact Search.mem_queued_settled.1 (closed _ _ ih _ hi hj hr)

@[simp] theorem lines_solve : (solve lines).lines = lines := rfl

theorem mem_liveOutAt {v : Liveness} : r ∈ v.liveOutAt i
    ↔ ∃ j ∈ (lineAt v.lines i).succs, r ∈ v.liveInAt j := by
  rw [liveOutAt, Ascending.mem_ofList, mem_flatMap]

/-- The uses of a line are live into it. -/
theorem mem_liveInAt_of_mem_uses (hi : i < lines.size) (h : r ∈ (lineAt lines i).uses) :
    r ∈ (solve lines).liveInAt i :=
  mem_liveInAt.2 (.use hi h)

/-- What is live into a successor is live into the line, unless the line
defines it. -/
theorem mem_liveInAt_of_mem_succs (hi : i < lines.size) (hj : j ∈ (lineAt lines i).succs)
    (h : r ∈ (solve lines).liveInAt j) (hd : r ∉ (lineAt lines i).defs) :
    r ∈ (solve lines).liveInAt i :=
  mem_liveInAt.2 (.pass hi hj hd (mem_liveInAt.1 h))

theorem mem_liveOutAt_of_mem_succs (hj : j ∈ (lineAt lines i).succs)
    (h : r ∈ (solve lines).liveInAt j) : r ∈ (solve lines).liveOutAt i :=
  mem_liveOutAt.2 ⟨j, hj, h⟩

end Liveness

end SsaCompiler
