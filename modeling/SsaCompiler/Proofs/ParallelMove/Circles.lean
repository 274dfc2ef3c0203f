import Mathlib.Data.Set.Card
import SsaCompiler.Proofs.ParallelMove

/-!
# One scratch copy for every circle

Read every copy as an arrow from its destination to its source: the place
*gets* what the source holds. Destinations differ, so at most one arrow
leaves a place, and from a place on a **circle** one can only go round.

The two steps of `ParallelMove.Performs` treat circles differently. A ready
copy lies on none, so performing it changes none (`circle_erase`). When
nothing is ready the copies are circles throughout; the save into the
scratch place opens the circle of the first copy and leaves the others as
they are (`circle_redirect`, `circle_of_redirect`). **So the places saved are
one from each circle**, and besides the saves every copy is performed once.
-/

open Relation

namespace SsaCompiler.ParallelMove

open List

variable {α : Type}

/-- **A place gets what another one holds.** A copy of a place to itself is
no arrow. -/
def Gets (moves : List (Move α)) (p q : α) : Prop :=
  (q, p) ∈ moves ∧ q ≠ p

/-- The places one comes to from a place along the arrows; the circle of a
place that lies on one. -/
def circle (moves : List (Move α)) (p : α) : Set α :=
  {q | TransGen (Gets moves) p q}

/-- **The circles of some copies.** -/
def circles (moves : List (Move α)) : Set (Set α) :=
  {c | ∃ p, p ∈ circle moves p ∧ circle moves p = c}

/-- The places whose contents are saved by copies performed in order. -/
def saved [DecidableEq α] (scratch : α) (performed : List (Move α)) : List α :=
  (performed.filter fun m => m.2 = scratch).map (·.1)

/-! ## Going round -/

variable {moves other : List (Move α)} {p q : α}

theorem exists_read_of_mem_circle (h : q ∈ circle moves p) : ∃ m ∈ moves, m.1 = q := by
  obtain ⟨r, -, hr⟩ := TransGen.tail'_iff.1 h
  exact ⟨_, hr.1, rfl⟩

theorem exists_write_of_mem_circle (h : q ∈ circle moves p) : ∃ m ∈ moves, m.2 = p := by
  obtain ⟨r, hr, -⟩ := TransGen.head'_iff.1 h
  exact ⟨_, hr.1, rfl⟩

theorem circle_congr
    (agree : ∀ q, q = p ∨ q ∈ circle moves p → ∀ r, Gets moves q r ↔ Gets other q r) :
    circle moves p = circle other p := by
  ext r
  constructor
  · intro h
    induction h with
    | single h => exact .single ((agree p (.inl rfl) _).1 h)
    | tail h hr ih => exact .tail ih ((agree _ (.inr h) _).1 hr)
  · intro h
    induction h with
    | single h => exact .single ((agree p (.inl rfl) _).2 h)
    | tail _ hr ih => exact .tail ih ((agree _ (.inr ih) _).2 hr)

theorem Gets.unique {r : α} (hn : (moves.map (·.2)).Nodup) (hq : Gets moves p q)
    (hr : Gets moves p r) : q = r :=
  congrArg Prod.fst (inj_on_of_nodup_map hn hq.1 hr.1 rfl)

/-- **From a place on a circle one comes back from everywhere.** -/
theorem mem_circle_symm (hn : (moves.map (·.2)).Nodup) (hp : p ∈ circle moves p)
    (hq : q ∈ circle moves p) : p ∈ circle moves q := by
  have back : ∀ {a b}, Gets moves a b → p ∈ circle moves a → p ∈ circle moves b := by
    intro a b hab ha
    obtain ⟨b', hb, rest⟩ := TransGen.head'_iff.1 ha
    obtain rfl := hab.unique hn hb
    exact TransGen.trans_right rest hp
  induction hq with
  | single h => exact back h hp
  | tail _ h ih => exact back h ih

theorem circle_eq_of_mem (hn : (moves.map (·.2)).Nodup) (hp : p ∈ circle moves p)
    (hq : q ∈ circle moves p) : circle moves q = circle moves p := by
  have hqp := mem_circle_symm hn hp hq
  ext r
  exact ⟨fun h => TransGen.trans hq h, fun h => TransGen.trans hqp h⟩

variable [DecidableEq α]

/-! ## The loop -/

/-- **What the loop keeps**: destinations differ, the scratch place is none
of them, and no copy goes from a place to itself. -/
structure Orderable (scratch : α) (pending : List (Move α)) : Prop where
  nodup : (pending.map (·.2)).Nodup
  scratch : scratch ∉ pending.map (·.2)
  proper : ∀ m ∈ pending, m.1 ≠ m.2

variable {scratch : α} {pending performed : List (Move α)} {m first : Move α}

theorem Orderable.erase (h : Orderable scratch pending) : Orderable scratch (pending.erase m) where
  nodup := h.nodup.sublist (erase_sublist.map _)
  scratch hs := h.scratch (map_subset _ erase_subset hs)
  proper m hm := h.proper m (mem_of_mem_erase hm)

theorem Orderable.redirect {blocked : α} (h : Orderable scratch pending) :
    Orderable scratch (redirect scratch blocked pending) where
  nodup := by rw [map_snd_redirect]; exact h.nodup
  scratch := by rw [map_snd_redirect]; exact h.scratch
  proper m hm := by
    obtain ⟨o, ho, rfl⟩ := mem_map.1 hm
    show (if o.1 = blocked then scratch else o.1) ≠ o.2
    split
    · exact fun e => h.scratch (e ▸ mem_map_of_mem ho)
    · exact h.proper o ho

omit [DecidableEq α] in
theorem Orderable.ne_scratch (h : Orderable scratch pending) (hm : m ∈ pending) : m.2 ≠ scratch :=
  fun e => h.scratch (e ▸ mem_map_of_mem hm)

/-- **Besides the saves every pending copy is performed once.** -/
theorem Performs.perm_destinations (h : Performs scratch pending performed)
    (ho : Orderable scratch pending) :
    ((performed.filter fun m => m.2 ≠ scratch).map (·.2)).Perm (pending.map (·.2)) := by
  induction h with
  | done => exact .refl _
  | @ready pending performed m hm rest ih =>
    have hmem := (ready?_eq_some hm).1
    rw [filter_cons_of_pos (by simpa using ho.ne_scratch hmem)]
    have perm : (pending.map (·.2)).Perm (m.2 :: (pending.erase m).map (·.2)) :=
      (perm_cons_erase hmem).map _
    exact ((ih ho.erase).cons m.2).trans perm.symm
  | @stuck first more performed hm rest ih =>
    rw [filter_cons_of_neg (by simp)]
    simpa only [map_snd_redirect] using ih ho.redirect

/-! ## What the steps do to circles -/

/-- **A ready copy lies on no circle**: without it, whoever is read goes on
as before. -/
theorem circle_erase (hm : ready? pending = some m) (hp : ∃ o ∈ pending, o.1 = p) :
    circle pending p = circle (pending.erase m) p := by
  refine circle_congr fun q hq r => ⟨fun h => ⟨?_, h.2⟩, fun h => ⟨mem_of_mem_erase h.1, h.2⟩⟩
  obtain ⟨o, ho, rfl⟩ : ∃ o ∈ pending, o.1 = q := by
    rcases hq with rfl | hq
    · exact hp
    · exact exists_read_of_mem_circle hq
  have hne : (r, o.1) ≠ m := by
    rintro rfl
    exact (ready?_eq_some hm).2 o ho rfl
  exact (mem_erase_of_ne hne).2 h.1

theorem mem_redirect {blocked : α} {r : α} : (r, p) ∈ redirect scratch blocked pending
    ↔ ∃ s, (s, p) ∈ pending ∧ r = if s = blocked then scratch else s := by
  constructor
  · intro h
    obtain ⟨o, ho, e⟩ := mem_map.1 h
    cases e
    exact ⟨o.1, ho, rfl⟩
  · rintro ⟨s, hs, rfl⟩
    exact mem_map.2 ⟨(s, p), hs, rfl⟩

/-- **A circle without the saved place stays.** -/
theorem circle_redirect {blocked : α} (ho : Orderable scratch pending)
    (hp : blocked ∉ circle pending p) :
    circle pending p = circle (redirect scratch blocked pending) p := by
  refine circle_congr fun q hq r => ?_
  have passes : ∀ {s}, Gets pending q s → s ≠ blocked := by
    rintro s hs rfl
    rcases hq with rfl | hq
    · exact hp (.single hs)
    · exact hp (.tail hq hs)
  constructor
  · intro h
    exact ⟨mem_redirect.2 ⟨r, h.1, (if_neg (passes h)).symm⟩, h.2⟩
  · rintro ⟨h, hne⟩
    obtain ⟨s, hs, rfl⟩ := mem_redirect.1 h
    have hsq : Gets pending q s := ⟨hs, ho.proper _ hs⟩
    rw [if_neg (passes hsq)]
    exact hsq

/-- **No circle arises when one is opened.** What still lies on a circle goes
round as before, and the saved place is not on its way. -/
theorem circle_of_redirect {blocked : α} (ho : Orderable scratch pending)
    (hb : blocked ≠ scratch) (hp : p ∈ circle (redirect scratch blocked pending) p) :
    circle (redirect scratch blocked pending) p = circle pending p
      ∧ blocked ∉ circle pending p := by
  have opened : Orderable scratch (redirect scratch blocked pending) := ho.redirect
  -- one goes round the scratch place, as no arrow leaves it
  have hscratch : scratch ∉ circle (redirect scratch blocked pending) p := by
    intro h
    obtain ⟨m, hm, e⟩ := exists_write_of_mem_circle (mem_circle_symm opened.nodup hp h)
    exact opened.ne_scratch hm e
  have hblocked : blocked ∉ circle (redirect scratch blocked pending) p := by
    intro h
    obtain ⟨m, hm, e⟩ := exists_read_of_mem_circle h
    obtain ⟨s, -, e'⟩ := mem_redirect.1 hm
    rw [e] at e'
    split at e'
    · exact hb e'
    · next hs => exact hs e'.symm
  have same : circle (redirect scratch blocked pending) p = circle pending p := by
    refine circle_congr fun q hq r => ?_
    have passes : ∀ {s}, Gets (redirect scratch blocked pending) q s → s ≠ scratch := by
      rintro s hs rfl
      rcases hq with rfl | hq
      · exact hscratch (.single hs)
      · exact hscratch (.tail hq hs)
    constructor
    · intro h
      obtain ⟨s, hs, rfl⟩ := mem_redirect.1 h.1
      have := passes h
      split at this
      · exact absurd rfl this
      · next e =>
        rw [if_neg e]
        exact ⟨hs, ho.proper _ hs⟩
    · intro h
      have moved : Gets (redirect scratch blocked pending) q
          (if r = blocked then scratch else r) := by
        have hr : (_, q) ∈ redirect scratch blocked pending := mem_redirect.2 ⟨r, h.1, rfl⟩
        exact ⟨hr, opened.proper _ hr⟩
      have := passes moved
      split at this
      · exact absurd rfl this
      · next e => rwa [if_neg e] at moved
  exact ⟨same, same ▸ hblocked⟩

/-- **When nothing is ready every destination lies on a circle.** One arrow
leaves each place one comes to from `m.2`, no two arrows lead to the same
place, and so `m.2` itself is among the places they lead to. -/
theorem mem_circle_of_ready?_eq_none (ho : Orderable scratch pending)
    (hr : ready? pending = none) (hm : m ∈ pending) : m.2 ∈ circle pending m.2 := by
  have sources := source_mem_of_ready?_eq_none ho.nodup hr
  have hsources : (pending.map (·.1)).Nodup :=
    (destinations_perm_sources ho.nodup hr).nodup ho.nodup
  have arrow : ∀ p ∈ pending.map (·.2), ∃ q, Gets pending p q := by
    intro p hp
    obtain ⟨m, hm, rfl⟩ := mem_map.1 hp
    exact ⟨m.1, hm, ho.proper m hm⟩
  choose! source hs using arrow
  have within : ∀ q, q = m.2 ∨ q ∈ circle pending m.2 → q ∈ pending.map (·.2) := by
    rintro q (rfl | hq)
    · exact mem_map_of_mem hm
    · obtain ⟨o, ho, rfl⟩ := exists_read_of_mem_circle hq
      exact sources o ho
  by_contra hc
  have finite : (circle pending m.2).Finite :=
    (finite_toSet (pending.map Prod.snd)).subset fun q hq => within q (.inr hq)
  have le : (insert m.2 (circle pending m.2)).ncard ≤ (circle pending m.2).ncard := by
    refine Set.ncard_le_ncard_of_injOn source (fun q hq => ?_) (fun q hq r hr e => ?_) finite
    · have := hs q (within q hq)
      rcases hq with rfl | hq
      · exact .single this
      · exact .tail hq this
    · have hq := (hs q (within q hq)).1
      have hr := (hs r (within r hr)).1
      rw [e] at hq
      exact congrArg Prod.snd (inj_on_of_nodup_map hsources hq hr rfl)
  rw [Set.ncard_insert_of_notMem hc finite] at le
  omega

/-! ## The saves -/

/-- **One place of every circle is saved**: each saved place lies on a
circle, no two on the same, and there is one from each. -/
structure SavesCircles (pending : List (Move α)) (places : List α) : Prop where
  mem : ∀ p ∈ places, p ∈ circle pending p
  nodup : (places.map (circle pending)).Nodup
  covers : ∀ c ∈ circles pending, c ∈ places.map (circle pending)

omit [DecidableEq α] in
/-- A step that leaves the circles of the places as they are. -/
theorem SavesCircles.congr {places : List α} (h : SavesCircles pending places)
    {before : List (Move α)} (same : ∀ p ∈ places, circle pending p = circle before p)
    (covers : ∀ c ∈ circles before, c ∈ circles pending) : SavesCircles before places := by
  have map_eq : places.map (circle before) = places.map (circle pending) :=
    map_congr_left fun p hp => (same p hp).symm
  refine ⟨fun p hp => same p hp ▸ h.mem p hp, map_eq ▸ h.nodup, fun c hc => ?_⟩
  rw [map_eq]
  exact h.covers c (covers c hc)

theorem Performs.savesCircles (h : Performs scratch pending performed)
    (ho : Orderable scratch pending) : SavesCircles pending (saved scratch performed) := by
  induction h with
  | done =>
    refine ⟨fun p hp => absurd hp not_mem_nil, nodup_nil, ?_⟩
    rintro c ⟨p, hp, -⟩
    obtain ⟨m, hm, -⟩ := exists_read_of_mem_circle hp
    cases hm
  | @ready pending performed m hm rest ih =>
    have skip : saved scratch (m :: performed) = saved scratch performed := by
      rw [saved, filter_cons_of_neg (by simpa using ho.ne_scratch (ready?_eq_some hm).1)]
      rfl
    rw [skip]
    refine (ih ho.erase).congr (fun p hp => ?_) ?_
    · obtain ⟨o, hmem, e⟩ := exists_read_of_mem_circle ((ih ho.erase).mem p hp)
      exact (circle_erase hm ⟨o, mem_of_mem_erase hmem, e⟩).symm
    · rintro c ⟨p, hp, rfl⟩
      have same := circle_erase hm (exists_read_of_mem_circle hp)
      exact ⟨p, same ▸ hp, same.symm⟩
  | @stuck first more performed hm rest ih =>
    have hf : first ∈ first :: more := (.head _)
    have hb := ho.ne_scratch hf
    have hcircle := mem_circle_of_ready?_eq_none ho hm hf
    have inner := ih ho.redirect
    have hs : saved scratch ((first.2, scratch) :: performed)
        = first.2 :: saved scratch performed := by
      rw [saved, filter_cons_of_pos (by simp)]
      rfl
    have stays : ∀ p ∈ saved scratch performed,
        circle (redirect scratch first.2 (first :: more)) p = circle (first :: more) p
          ∧ first.2 ∉ circle (first :: more) p :=
      fun p hp => circle_of_redirect ho hb (inner.mem p hp)
    have map_eq : (saved scratch performed).map (circle (first :: more))
        = (saved scratch performed).map (circle (redirect scratch first.2 (first :: more))) :=
      map_congr_left fun p hp => (stays p hp).1.symm
    rw [hs]
    refine ⟨fun p hp => ?_, ?_, fun c hc => ?_⟩
    · rcases mem_cons.1 hp with rfl | hp
      · exact hcircle
      · exact (stays p hp).1 ▸ inner.mem p hp
    · rw [map_cons, nodup_cons]
      refine ⟨fun h => ?_, map_eq ▸ inner.nodup⟩
      obtain ⟨p, hp, e⟩ := mem_map.1 h
      exact (stays p hp).2 (e ▸ hcircle)
    · obtain ⟨p, hp, rfl⟩ := hc
      rw [map_cons, mem_cons]
      by_cases hmem : first.2 ∈ circle (first :: more) p
      · exact .inl (circle_eq_of_mem ho.nodup hp hmem).symm
      · have same := circle_redirect ho hmem
        right
        rw [map_eq, same]
        exact inner.covers _ ⟨p, same ▸ hp, rfl⟩

omit [DecidableEq α] in
theorem SavesCircles.ncard_circles {places : List α} (h : SavesCircles pending places) :
    (circles pending).ncard = places.length := by
  classical
  have eq : circles pending = (places.map (circle pending)).toFinset := by
    ext c
    rw [Finset.mem_coe, mem_toFinset]
    refine ⟨h.covers c, fun hc => ?_⟩
    obtain ⟨p, hp, rfl⟩ := mem_map.1 hc
    exact ⟨p, h.mem p hp, rfl⟩
  rw [eq, Set.ncard_coe_finset, toFinset_card_of_nodup h.nodup, length_map]

theorem gets_filter :
    Gets (moves.filter fun m => m.1 ≠ m.2) = Gets moves := by
  ext p q
  simp [Gets]

theorem orderable_filter (hn : (moves.map (·.2)).Nodup) (hs : scratch ∉ moves.map (·.2)) :
    Orderable scratch (moves.filter fun m => m.1 ≠ m.2) where
  nodup := hn.sublist (filter_sublist.map _)
  scratch h := hs (map_snd_filter_subset _ _ h)
  proper m hm := by simpa using (mem_filter.1 hm).2

/-- **Copies in order do what they do at once.** For copies with distinct
destinations and a scratch place that is none of them, the loop comes to
its end; whatever the places hold at first, every destination ends with
what its source held, and nothing else changes but the scratch place. Each
copy of a place to another is performed once, and besides these there is
one save into the scratch place for every circle of the copies. -/
theorem sequentialize_performs_at_once (scratch : α) (moves : List (Move α))
    (distinct : (moves.map (·.2)).Nodup) (free : scratch ∉ moves.map (·.2)) :
    ∃ ordered, sequentialize scratch moves = some ordered
      ∧ Performs scratch (moves.filter fun m => m.1 ≠ m.2) ordered
      ∧ (∀ {β : Type} (store : α → β), (∀ m ∈ moves, run ordered store m.2 = store m.1)
            ∧ ∀ l, l ∉ moves.map (·.2) → l ≠ scratch → run ordered store l = store l)
      ∧ ((ordered.filter fun m => m.2 ≠ scratch).map (·.2)).Perm
          ((moves.filter fun m => m.1 ≠ m.2).map (·.2))
      ∧ (∀ p ∈ saved scratch ordered, p ∈ circle moves p)
      ∧ ((saved scratch ordered).map (circle moves)).Nodup
      ∧ (∀ c ∈ circles moves, ∃ p ∈ saved scratch ordered, circle moves p = c)
      ∧ ordered.length
          = (moves.filter fun m => m.1 ≠ m.2).length + (circles moves).ncard := by
  obtain ⟨ordered, hordered⟩ := exists_sequentialize free
  have ho := orderable_filter distinct free
  have performs := sequentialize_eq_some.1 hordered
  have perm := performs.perm_destinations ho
  have saves := performs.savesCircles ho
  have same : circle (moves.filter fun m => m.1 ≠ m.2) = circle moves := by
    funext p
    rw [circle, circle, gets_filter]
  have count : (circles moves).ncard = (saved scratch ordered).length := by
    rw [← saves.ncard_circles, circles, circles, same]
  refine ⟨ordered, hordered, performs, fun store =>
    ⟨fun m hm => run_sequentialize_of_mem hordered distinct free hm,
      fun l hl hne => run_sequentialize_of_not_mem hordered distinct free hne hl⟩, perm,
    same ▸ saves.mem, same ▸ saves.nodup, fun c hc => ?_, ?_⟩
  · have := saves.covers c (by rwa [circles, same])
    rwa [same, List.mem_map] at this
  · have copies := perm.length_eq
    rw [List.length_map, List.length_map] at copies
    rw [count, saved, List.length_map, ← copies, Nat.add_comm,
      List.length_eq_length_filter_add fun m : Move α => m.2 = scratch]
    simp only [decide_not]

/-- A circle of two places and one of three. Place `1` is read by two copies,
the scratch place `9` by one, and `8` is copied to itself. -/
def twoCircles : List (Move Nat) :=
  [(1, 2), (2, 1), (3, 4), (4, 5), (5, 3), (1, 6), (9, 7), (8, 8)]

/-- Nine copies are performed for the seven that change something, so there
are two circles, and the places end as if all had been copied at once. -/
theorem twoCircles_performed_at_once : (twoCircles.map (·.2)).Nodup ∧ 9 ∉ twoCircles.map (·.2)
      ∧ (circles twoCircles).ncard = 2
      ∧ ∃ ordered, sequentialize 9 twoCircles = some ordered ∧ ordered.length = 9
        ∧ run ordered id 6 = 1 ∧ run ordered id 7 = 9 := by
  have distinct : (twoCircles.map (·.2)).Nodup := by decide
  have free : 9 ∉ twoCircles.map (·.2) := by decide
  obtain ⟨ordered, hordered, -, meaning, -, -, -, -, length⟩ :=
    sequentialize_performs_at_once 9 twoCircles distinct free
  have performed : (sequentialize 9 twoCircles).map List.length = some 9 := by decide
  have proper : (twoCircles.filter fun m => m.1 ≠ m.2).length = 7 := by decide
  rw [hordered, Option.map_some, Option.some.injEq] at performed
  refine ⟨distinct, free, by omega, ordered, hordered, performed, ?_, ?_⟩
  · exact (meaning id).1 (1, 6) (by decide)
  · exact (meaning id).1 (9, 7) (by decide)

end SsaCompiler.ParallelMove
