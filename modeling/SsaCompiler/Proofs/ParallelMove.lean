import Mathlib.Data.List.Nodup
import Mathlib.Data.List.Perm.Subperm
import SsaCompiler.ParallelMove

/-!
# Parallel moves keep their meaning

A store gives every place a value, and a copy changes the value of its
destination. `ParallelMove.run` performs copies one after the other; the
main result says that the copies `sequentialize` puts in order have the
effect of performing all the given ones at once
(`run_sequentialize_of_mem`, `run_sequentialize_of_not_mem`).

Putting copies in order is a loop without a bound of its own
(`ParallelMove.Performs`), and **the bound of `sequentialize` decides nothing**:
there is an order exactly if the loop ends (`sequentialize_eq_some`). It ends
whenever the scratch place is no destination (`exists_sequentialize`).

The scratch place is written once for every circle, so a value kept there
must have been picked up before the next circle is broken. That it has is a
matter of counting: **when no copy is ready, every destination is read**, and
as there are as many pending sources as pending destinations, nothing else
is read, the scratch place in particular.
-/

namespace SsaCompiler.ParallelMove

open List

variable {α β : Type} [DecidableEq α] {steps : Nat} {scratch : α} {m first : Move α}
  {pending moves performed ordered more : List (Move α)}

/-- Perform one copy. -/
def assign (store : α → β) (m : Move α) : α → β :=
  Function.update store m.2 (store m.1)

/-- **Perform copies one after the other.** -/
def run (moves : List (Move α)) (store : α → β) : α → β :=
  moves.foldl assign store

@[simp] theorem run_nil (store : α → β) : run [] store = store := rfl

@[simp] theorem run_cons (m : Move α) (rest : List (Move α)) (store : α → β) :
    run (m :: rest) store = run rest (assign store m) := rfl

/-! ## Ready copies -/

theorem ready?_eq_some (h : ready? pending = some m) :
    m ∈ pending ∧ ∀ other ∈ pending, other.1 ≠ m.2 := by
  refine ⟨mem_of_find?_eq_some h, fun other ho => ?_⟩
  have := find?_some h
  simpa using all_eq_true.1 this other ho

theorem exists_read_of_ready?_eq_none (h : ready? pending = none) :
    ∀ m ∈ pending, ∃ other ∈ pending, other.1 = m.2 := by
  intro m hm
  have := find?_eq_none.1 h m hm
  simpa using this

/-- **Without a ready copy the sources are the destinations**: these are as
many as the sources, and all of them are among those. -/
theorem destinations_perm_sources (hn : (pending.map (·.2)).Nodup) (h : ready? pending = none) :
    (pending.map (·.2)).Perm (pending.map (·.1)) := by
  have subset : pending.map (·.2) ⊆ pending.map (·.1) := by
    intro d hd
    obtain ⟨m, hm, rfl⟩ := mem_map.1 hd
    obtain ⟨other, ho, e⟩ := exists_read_of_ready?_eq_none h m hm
    exact mem_map.2 ⟨other, ho, e⟩
  exact (subperm_of_subset hn subset).perm_of_length_le (by simp)

theorem source_mem_of_ready?_eq_none (hn : (pending.map (·.2)).Nodup) (h : ready? pending = none) :
    ∀ m ∈ pending, m.1 ∈ pending.map (·.2) :=
  fun _ hm => (destinations_perm_sources hn h).mem_iff.2 (mem_map_of_mem hm)

/-! ## Breaking a circle -/

@[simp] theorem map_snd_redirect (scratch blocked : α) (pending : List (Move α)) :
    (redirect scratch blocked pending).map (·.2) = pending.map (·.2) := by
  simp [redirect, Function.comp_def]

@[simp] theorem length_redirect (scratch blocked : α) (pending : List (Move α)) :
    (redirect scratch blocked pending).length = pending.length :=
  length_map _

/-- Behind the redirection the copy into the blocked place is ready. -/
theorem ready?_redirect (hm : m ∈ pending) (hs : scratch ≠ m.2) :
    (ready? (redirect scratch m.2 pending)).isSome := by
  refine find?_isSome.2 ⟨(if m.1 = m.2 then scratch else m.1, m.2), ?_, ?_⟩
  · exact mem_map.2 ⟨m, hm, rfl⟩
  · refine all_eq_true.2 fun other ho => ?_
    obtain ⟨o, -, rfl⟩ := mem_map.1 ho
    by_cases e : o.1 = m.2
    · simpa [e] using hs
    · simp [e]

/-! ## The loop -/

/-- **What is performed for pending copies**, step by step until nothing is
pending: a ready copy, or a save that opens a circle. -/
inductive Performs (scratch : α) : List (Move α) → List (Move α) → Prop
  | done : Performs scratch [] []
  | ready {pending performed : List (Move α)} {m : Move α} (hm : ready? pending = some m)
      (rest : Performs scratch (pending.erase m) performed) :
      Performs scratch pending (m :: performed)
  | stuck {first : Move α} {more performed : List (Move α)} (hm : ready? (first :: more) = none)
      (rest : Performs scratch (redirect scratch first.2 (first :: more)) performed) :
      Performs scratch (first :: more) ((first.2, scratch) :: performed)

theorem performs_of_perform (h : perform scratch steps pending = some performed) :
    Performs scratch pending performed := by
  induction steps generalizing pending performed with
  | zero =>
    cases pending with
    | nil =>
      cases h
      exact .done
    | cons first more => cases h
  | succ steps ih =>
    cases pending with
    | nil =>
      cases h
      exact .done
    | cons first more =>
      rw [perform] at h
      cases hr : ready? (first :: more) with
      | some m =>
        rw [hr] at h
        obtain ⟨rest, hrest, rfl⟩ := Option.map_eq_some_iff.1 h
        exact .ready hr (ih hrest)
      | none =>
        rw [hr] at h
        obtain ⟨rest, hrest, rfl⟩ := Option.map_eq_some_iff.1 h
        exact .stuck hr (ih hrest)

/-- **Where the loop ends, the scratch place is never the one to be saved**:
that would leave all copies as they are. -/
theorem Performs.scratch_ne (h : Performs scratch (first :: more) performed)
    (hr : ready? (first :: more) = none) : scratch ≠ first.2 := by
  generalize hp : first :: more = pending at h hr
  induction h with
  | done => cases hp
  | ready hm => exact absurd (hr.symm.trans hm) nofun
  | stuck _ _ ih =>
    cases hp
    rintro rfl
    have same : redirect first.2 first.2 (first :: more) = first :: more := by
      refine (map_congr_left fun m _ => ?_).trans (map_id _)
      split
      · next e =>
        rw [← e]
        rfl
      · rfl
    exact ih same.symm (same.symm ▸ hr) rfl

/-- **The steps that pending copies need**: two for each, one less when a copy
is ready. -/
def stepsNeeded (pending : List (Move α)) : Nat :=
  if (ready? pending).isSome then 2 * pending.length - 1 else 2 * pending.length

theorem stepsNeeded_le (pending : List (Move α)) : stepsNeeded pending ≤ 2 * pending.length := by
  unfold stepsNeeded
  split <;> omega

/-- A ready copy leaves a step less to do, and so does a save into another
place. -/
theorem stepsNeeded_erase_lt (hr : ready? pending = some m) :
    stepsNeeded (pending.erase m) < stepsNeeded pending := by
  have hm := (ready?_eq_some hr).1
  have := stepsNeeded_le (pending.erase m)
  have := length_erase_of_mem hm
  have := length_pos_of_mem hm
  rw [stepsNeeded.eq_def pending, hr, Option.isSome_some, if_pos rfl]
  omega

theorem stepsNeeded_redirect_lt (hr : ready? (first :: more) = none) (hs : scratch ≠ first.2) :
    stepsNeeded (redirect scratch first.2 (first :: more)) < stepsNeeded (first :: more) := by
  rw [stepsNeeded, if_pos (ready?_redirect (.head _) hs), length_redirect, stepsNeeded, hr,
    Option.isSome_none, if_neg Bool.false_ne_true, length_cons]
  omega

/-- **A loop that ends does so within the steps that the copies need.** -/
theorem Performs.perform_eq (h : Performs scratch pending performed)
    (hsteps : stepsNeeded pending ≤ steps) : perform scratch steps pending = some performed := by
  induction h generalizing steps with
  | done => cases steps <;> rfl
  | @ready pending performed m hm rest ih =>
    have fewer := stepsNeeded_erase_lt hm
    obtain ⟨steps, rfl⟩ : ∃ k, steps = k + 1 := ⟨steps - 1, by omega⟩
    cases pending with
    | nil => cases hm
    | cons first more =>
      rw [perform, hm]
      exact Option.map_eq_some_iff.2 ⟨_, ih (by omega), rfl⟩
  | stuck hm rest ih =>
    have fewer := stepsNeeded_redirect_lt hm ((Performs.stuck hm rest).scratch_ne hm)
    obtain ⟨steps, rfl⟩ : ∃ k, steps = k + 1 := ⟨steps - 1, by omega⟩
    rw [perform, hm]
    exact Option.map_eq_some_iff.2 ⟨_, ih (by omega), rfl⟩

/-- **The loop ends if the scratch place is no destination.** -/
theorem exists_performs (hs : scratch ∉ pending.map (·.2)) :
    ∃ performed, Performs scratch pending performed := by
  induction hsteps : stepsNeeded pending using Nat.strongRecOn generalizing pending with
  | ind steps ih =>
    subst hsteps
    cases pending with
    | nil => exact ⟨[], .done⟩
    | cons first more =>
      cases hr : ready? (first :: more) with
      | some m =>
        obtain ⟨performed, h⟩ := ih _ (stepsNeeded_erase_lt hr)
          (fun h => hs ((erase_sublist.map _).subset h)) rfl
        exact ⟨_, .ready hr h⟩
      | none =>
        have hne : scratch ≠ first.2 := fun e => hs (e ▸ .head _)
        obtain ⟨performed, h⟩ := ih _ (stepsNeeded_redirect_lt hr hne)
          (by rwa [map_snd_redirect]) rfl
        exact ⟨_, .stuck hr h⟩

/-- **Pending copies are performed as if at once.** Every destination gets
what its source holds, and no place but the destinations and the scratch
changes. -/
theorem Performs.run_eq (h : Performs scratch pending performed) (store : α → β)
    (hn : (pending.map (·.2)).Nodup) (hs : scratch ∉ pending.map (·.2)) :
    (∀ m ∈ pending, run performed store m.2 = store m.1)
      ∧ ∀ l, l ≠ scratch → l ∉ pending.map (·.2) → run performed store l = store l := by
  induction h generalizing store with
  | done => exact ⟨forall_mem_nil _, fun _ _ _ => rfl⟩
  | @ready pending performed m hr rest ih =>
    obtain ⟨hm, apart⟩ := ready?_eq_some hr
    have perm : (pending.map (·.2)).Perm (m.2 :: (pending.erase m).map (·.2)) :=
      (perm_cons_erase hm).map _
    have hn' := perm.nodup_iff.1 hn
    obtain ⟨done, kept⟩ := ih (assign store m) hn'.of_cons fun h =>
      hs (perm.mem_iff.2 (.tail _ h))
    rw [run_cons]
    refine ⟨fun m' hm' => ?_, fun l hl hl' => ?_⟩
    · by_cases e : m' = m
      · subst e
        rw [kept m'.2 (fun e => hs (e ▸ mem_map_of_mem hm)) hn'.notMem]
        exact Function.update_self _ _ _
      · rw [done m' ((mem_erase_of_ne e).2 hm')]
        exact Function.update_of_ne (apart m' hm') _ _
    · have hne : l ≠ m.2 := fun e => hl' (e ▸ mem_map_of_mem hm)
      rw [kept l hl fun h => hl' (perm.mem_iff.2 (.tail _ h))]
      exact Function.update_of_ne hne _ _
  | @stuck first more performed hr rest ih =>
    have sources := source_mem_of_ready?_eq_none hn hr
    obtain ⟨done, kept⟩ := ih (assign store (first.2, scratch)) (by rwa [map_snd_redirect])
      (by rwa [map_snd_redirect])
    rw [run_cons]
    refine ⟨fun m hm => ?_, fun l hl hl' => ?_⟩
    · rw [done _ (mem_map.2 ⟨m, hm, rfl⟩)]
      by_cases e : m.1 = first.2
      · simp [e, assign]
      · -- nothing pending reads the scratch place yet
        have : m.1 ≠ scratch := fun e => hs (e ▸ sources m hm)
        simp [e, assign, this]
    · rw [kept l hl (by rwa [map_snd_redirect])]
      exact Function.update_of_ne hl _ _

/-- Copies move nothing but between the scratch place and the places of the
given ones. -/
theorem Performs.forall_mem {P : α → Prop} (h : Performs scratch pending performed)
    (hscratch : P scratch) (hP : ∀ m ∈ pending, P m.1 ∧ P m.2) :
    ∀ m ∈ performed, P m.1 ∧ P m.2 := by
  induction h with
  | done => exact forall_mem_nil _
  | ready hm _ ih =>
    exact forall_mem_cons.2 ⟨hP _ (ready?_eq_some hm).1, ih fun m hm => hP m (mem_of_mem_erase hm)⟩
  | stuck _ _ ih =>
    refine forall_mem_cons.2 ⟨⟨(hP _ (.head _)).2, hscratch⟩, ih fun m hm => ?_⟩
    obtain ⟨o, ho, rfl⟩ := mem_map.1 hm
    refine ⟨?_, (hP o ho).2⟩
    split
    · exact hscratch
    · exact (hP o ho).1

theorem Performs.snd_mem (h : Performs scratch pending performed) :
    ∀ m ∈ performed, m.2 = scratch ∨ m.2 ∈ pending.map (·.2) := by
  induction h with
  | done => exact forall_mem_nil _
  | ready hm _ ih =>
    exact forall_mem_cons.2 ⟨.inr (mem_map_of_mem (ready?_eq_some hm).1), fun m hm =>
      (ih m hm).imp_right fun h => (erase_sublist.map _).subset h⟩
  | stuck _ _ ih =>
    rw [map_snd_redirect] at ih
    exact forall_mem_cons.2 ⟨.inl rfl, ih⟩

/-! ## All copies -/

omit [DecidableEq α] in
theorem map_snd_filter_subset (p : Move α → Bool) (moves : List (Move α)) :
    (moves.filter p).map (·.2) ⊆ moves.map (·.2) :=
  map_subset _ (filter_subset_self _)

/-- There is an order exactly if the loop ends. -/
theorem sequentialize_eq_some : sequentialize scratch moves = some ordered ↔
    Performs scratch (moves.filter fun m => m.1 ≠ m.2) ordered :=
  ⟨performs_of_perform, fun h => h.perform_eq (stepsNeeded_le _)⟩

theorem exists_sequentialize (hs : scratch ∉ moves.map (·.2)) :
    ∃ ordered, sequentialize scratch moves = some ordered := by
  obtain ⟨ordered, h⟩ := exists_performs fun h => hs (map_snd_filter_subset _ moves h)
  exact ⟨ordered, sequentialize_eq_some.2 h⟩

section Ordered

variable (h : sequentialize scratch moves = some ordered)

include h

theorem snd_mem_sequentialize : ∀ m ∈ ordered, m.2 = scratch ∨ m.2 ∈ moves.map (·.2) := fun m hm =>
  ((sequentialize_eq_some.1 h).snd_mem m hm).imp_right (map_snd_filter_subset _ _ ·)

theorem mem_sequentialize {P : α → Prop} (hscratch : P scratch) (hP : ∀ m ∈ moves, P m.1 ∧ P m.2) :
    ∀ m ∈ ordered, P m.1 ∧ P m.2 :=
  (sequentialize_eq_some.1 h).forall_mem hscratch fun m hm => hP m (mem_of_mem_filter hm)

variable {store : α → β} (hn : (moves.map (·.2)).Nodup) (hs : scratch ∉ moves.map (·.2))

include hn hs

/-- No place but the destinations and the scratch changes. -/
theorem run_sequentialize_of_not_mem {l : α} (hl : l ≠ scratch) (hl' : l ∉ moves.map (·.2)) :
    run ordered store l = store l :=
  ((sequentialize_eq_some.1 h).run_eq store (hn.sublist (filter_sublist.map _))
    (fun h => hs (map_snd_filter_subset _ _ h))).2 l hl fun h => hl' (map_snd_filter_subset _ _ h)

/-- **Every destination ends with what its source held.** -/
theorem run_sequentialize_of_mem (hm : m ∈ moves) : run ordered store m.2 = store m.1 := by
  obtain ⟨done, kept⟩ := (sequentialize_eq_some.1 h).run_eq store
    (hn.sublist (filter_sublist.map _)) fun h => hs (map_snd_filter_subset _ _ h)
  by_cases e : m.1 = m.2
  · -- no other copy has the destination of a dropped one
    rw [e]
    refine kept m.2 (fun e => hs (e ▸ mem_map_of_mem hm)) fun h => ?_
    obtain ⟨m', hm', e'⟩ := mem_map.1 h
    obtain ⟨hm', hne⟩ := mem_filter.1 hm'
    obtain rfl := inj_on_of_nodup_map hn hm' hm e'
    exact absurd e (by simpa using hne)
  · exact done m (mem_filter.2 ⟨hm, by simpa using e⟩)

end Ordered

end SsaCompiler.ParallelMove
