import Mathlib.Data.Set.Card
import SsaCompiler.Proofs.Liveness

/-!
# Liveness is the least solution of its equations

What is live into a line is what the line uses, together with what is live
behind it and not defined by it; what is live behind a line is what is live
into the lines control may go to. On a loop these equations have many
solutions: a register that nothing uses may be carried round for ever. **The
solver finds the least one**, and this is the one that paths describe: a
register is live into a line when control can go from there to a use of it
past lines that do not define it.

A successor that is no line contributes nothing.
-/

namespace SsaCompiler

open List

open Liveness (lineAt)

namespace Line

/-- What is live behind a line, given what is live into every line. -/
def behind (lines : Array Line) (live : Nat → Set VReg) (i : Nat) : Set VReg :=
  {r | ∃ j ∈ (lineAt lines i).succs, j < lines.size ∧ r ∈ live j}

/-- **The flow equations.** -/
def Solves (lines : Array Line) (live : Nat → Set VReg) : Prop :=
  ∀ i < lines.size,
    live i = {r | r ∈ (lineAt lines i).uses} ∪ (behind lines live i \ {r | r ∈ (lineAt lines i).defs})

/-- **A path from a line to a use of a register**: control can go along
`before` and on to the line `last`, which uses the register, and no line of
`before` defines it. -/
structure LeadsToUse (lines : Array Line) (r : VReg) (i : Nat) (before : List Nat) (last : Nat) :
    Prop where
  first : (before ++ [last]).head? = some i
  lt : ∀ j ∈ before ++ [last], j < lines.size
  chain : (before ++ [last]).IsChain fun j k => k ∈ (lineAt lines j).succs
  undefined : ∀ j ∈ before, r ∉ (lineAt lines j).defs
  uses : r ∈ (lineAt lines last).uses

variable {lines : Array Line} {r : VReg} {i last : Nat} {before : List Nat}

/-- A path describes what is live at its beginning. -/
theorem LeadsToUse.liveInto (h : LeadsToUse lines r i before last) : LiveInto lines r i := by
  induction before generalizing i with
  | nil =>
    obtain rfl : last = i := by simpa using h.first
    exact .use (h.lt last (by simp)) h.uses
  | cons j before ih =>
    obtain rfl : j = i := by simpa using h.first
    obtain ⟨k, hk⟩ : ∃ k, (before ++ [last]).head? = some k :=
      Option.isSome_iff_exists.1 (by simp)
    have chain := isChain_cons.1 h.chain
    have rest : LeadsToUse lines r k before last :=
      ⟨hk, fun l hl => h.lt l (.tail _ hl), chain.2, fun l hl => h.undefined l (.tail _ hl), h.uses⟩
    exact .pass (h.lt j (.head _)) (chain.1 k hk)
      (h.undefined j (.head _)) (ih rest)

/-- **A register is live into a line iff a path from there leads to a use of
it.** -/
theorem liveInto_iff_leadsToUse :
    LiveInto lines r i ↔ ∃ before last, LeadsToUse lines r i before last := by
  refine ⟨fun h => ?_, fun ⟨before, last, h⟩ => h.liveInto⟩
  induction h with
  | @use i hi hr =>
    exact ⟨[], i, rfl, by simpa using hi, isChain_singleton i, by simp, hr⟩
  | @pass i j hi hj hr _ ih =>
    obtain ⟨before, last, h⟩ := ih
    refine ⟨i :: before, last, rfl, ?_, ?_, ?_, h.uses⟩
    · exact forall_mem_cons.2 ⟨hi, h.lt⟩
    · refine isChain_cons.2 ⟨fun k hk => ?_, h.chain⟩
      obtain rfl : j = k := Option.some.inj (h.first.symm.trans hk)
      exact hj
    · exact forall_mem_cons.2 ⟨hr, h.undefined⟩

theorem solves_liveInto : Solves lines fun i => {r | LiveInto lines r i} := by
  intro i hi
  ext r
  constructor
  · intro h
    cases h with
    | use _ hr => exact .inl hr
    | pass _ hj hr h => exact .inr ⟨⟨_, hj, h.lt, h⟩, hr⟩
  · rintro (hr | ⟨⟨j, hj, -, h⟩, hr⟩)
    · exact .use hi hr
    · exact .pass hi hj hr h

theorem Solves.mem_of_liveInto {live : Nat → Set VReg} (h : Solves lines live)
    (hr : LiveInto lines r i) : r ∈ live i := by
  induction hr with
  | use hi hr =>
    rw [h _ hi]
    exact .inl hr
  | pass hi hj hr hl ih =>
    rw [h _ hi]
    exact .inr ⟨⟨_, hj, hl.lt, ih⟩, hr⟩

end Line

namespace Liveness

variable {lines : Array Line}

theorem pairwise_liveInAt (i : Nat) : ((solve lines).liveInAt i).Pairwise (· < ·) :=
  (Search.settled_spec lines).1.ascending i

/-- What the solver has live behind a line is live into a line control may go
to. -/
theorem liveOutAt_solve (i : Nat) : {r | r ∈ (solve lines).liveOutAt i}
    = Line.behind lines (fun j => {r | r ∈ (solve lines).liveInAt j}) i := by
  ext r
  show r ∈ (solve lines).liveOutAt i ↔ _
  rw [mem_liveOutAt]
  exact ⟨fun ⟨j, hj, hr⟩ => ⟨j, hj, (mem_liveInAt.1 hr).lt, hr⟩, fun ⟨j, hj, _, hr⟩ => ⟨j, hj, hr⟩⟩

/-- **Every fact is counted once**: the facts of a line are its registers. -/
theorem facts_solve : (solve lines).facts
    = ∑ i ∈ Finset.range lines.size, ((solve lines).liveInAt i).toFinset.card := by
  have sound := (Search.settled_spec lines).1
  have row : ∀ i, {f ∈ (Search.settled lines).queued.toFinset | f.1 = i}
      = ((solve lines).liveInAt i).toFinset.image (i, ·) := fun i => by
    ext ⟨j, r⟩
    simp only [Finset.mem_filter, mem_toFinset, Search.mem_queued_settled, Finset.mem_image,
      Prod.mk.injEq]
    exact ⟨fun ⟨h, e⟩ => ⟨r, e ▸ h, e.symm, rfl⟩, fun ⟨_, h, e, e'⟩ => ⟨e ▸ e' ▸ h, e.symm⟩⟩
  have lt : Set.MapsTo Prod.fst ((Search.settled lines).queued.toFinset : Set Fact)
      (Finset.range lines.size) := fun f hf =>
    Finset.mem_coe.2 (Finset.mem_range.2 (sound.holds f (mem_toFinset.1 (Finset.mem_coe.1 hf))).lt)
  show (Search.settled lines).queued.length = _
  rw [← toFinset_card_of_nodup sound.nodup, Finset.card_eq_sum_card_fiberwise lt]
  refine Finset.sum_congr rfl fun i _ => ?_
  rw [row, Finset.card_image_of_injective _ (Prod.mk_right_injective i)]

end Liveness

/-- **The solver finds the least solution of the flow equations.** The search
ends with no fact pending. Every line gets its registers, each once; they solve
the equations, and every solution holds them; a register is among them iff a
path from the line leads to a use of it before any definition; and the count of
the facts that were ever queued is the sum of the sizes of the sets. -/
theorem Liveness.solve_is_least_solution (lines : Array Line) : (Search.settled lines).pending = []
      ∧ (solve lines).lines = lines ∧ (solve lines).liveIn.size = lines.size
      ∧ (∀ i, ((solve lines).liveInAt i).Nodup)
      ∧ Line.Solves lines (fun i => {r | r ∈ (solve lines).liveInAt i})
      ∧ (∀ i, {r | r ∈ (solve lines).liveOutAt i}
          = Line.behind lines (fun j => {r | r ∈ (solve lines).liveInAt j}) i)
      ∧ (∀ live, Line.Solves lines live →
          ∀ i < lines.size, ∀ r ∈ (solve lines).liveInAt i, r ∈ live i)
      ∧ (∀ i r, r ∈ (solve lines).liveInAt i ↔ ∃ before last, Line.LeadsToUse lines r i before last)
      ∧ (solve lines).facts
          = ∑ i ∈ Finset.range lines.size, ((solve lines).liveInAt i).toFinset.card := by
  refine ⟨Search.pending_settled lines, rfl, (Search.settled_spec lines).1.size_eq,
    fun i => (pairwise_liveInAt i).imp Nat.ne_of_lt, ?_, liveOutAt_solve, ?_, ?_, facts_solve⟩
  · simpa only [mem_liveInAt] using Line.solves_liveInto
  · intro live h i _ r hr
    exact h.mem_of_liveInto (mem_liveInAt.1 hr)
  · intro i r
    rw [mem_liveInAt, Line.liveInto_iff_leadsToUse]

end SsaCompiler
