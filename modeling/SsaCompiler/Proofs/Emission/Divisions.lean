import SsaCompiler.Proofs.Emission.Labels

/-!
# Divisions in code

Copies, constants, comparisons and jumps divide nothing, and the code of a division
has one instruction that divides, wherever values are kept (`Placed.divisions_item`).
So **the code of a function divides once for each division among its items**, where
the item stands (`Placed.divisions_function`).
-/

namespace SsaCompiler

open List Asm

/-- Whether an instruction divides. -/
def Instr.isDivision : Instr → Bool
  | idivl _ => true
  | _ => false

namespace Asm

/-- Whether a line of assembly divides. -/
def isDivision : Asm → Bool
  | instr i => i.isDivision
  | _ => false

/-- **How many instructions of some code divide.** -/
def divisions (code : List Asm) : Nat :=
  code.countP isDivision

theorem divisions_append (a b : List Asm) : divisions (a ++ b) = divisions a + divisions b :=
  countP_append

theorem divisions_flatMap {α : Type} (l : List α) (f : α → List Asm) :
    divisions (l.flatMap f) = (l.map fun x => divisions (f x)).sum :=
  countP_flatMap

theorem divisions_map_instr (code : List Instr) :
    divisions (code.map .instr) = code.countP Instr.isDivision := by
  unfold divisions
  rw [countP_map]
  rfl

end Asm

namespace Instr

theorem countP_copy (src dst : Location) : (copy src dst).countP isDivision = 0 := by
  unfold copy
  split
  · rfl
  · split <;> rfl

theorem countP_load (src : Location) : (load src).1.countP isDivision = 0 := by
  unfold load
  split
  · exact countP_copy _ _
  · rfl

/-- **Only division and remainder divide**, and they do it once. -/
theorem countP_binary (op : BinOp) (lhs rhs target : Location) :
    (binary op lhs rhs target).countP isDivision = if op.hasEffect then 1 else 0 := by
  have ha : ∀ op, (arithmetic op lhs rhs target).countP isDivision = 0 := fun op => by
    rw [arithmetic]
    simp only [countP_append, countP_load, countP_copy]
    rfl
  have hs : ∀ op, (shifting op lhs rhs target).countP isDivision = 0 := fun op => by
    rw [shifting]
    simp only [countP_append, countP_copy]
    rfl
  have hd : ∀ result, (division result lhs rhs target).countP isDivision = 1 := fun r => by
    rw [division]
    simp only [countP_append, countP_load, countP_copy]
    rfl
  rcases op with op | op <;> cases op <;>
    first | exact ha _ | exact hs _ | exact hd _

end Instr

namespace Placed

variable {p : Placed} {n : NodeId} {code : List Asm} {s : Schedule}

/-- **The code of an item divides once if the item is a division**, and otherwise
not. -/
theorem divisions_item {item : Item} (h : p.item s item = .ok code) :
    Asm.divisions code = item.node?.toList.countP fun n => (p.graph.kind n).mayTrap := by
  cases writes_of_item h with
  | phiMoves moves =>
    rw [divisions_map_instr, countP_flatMap]
    simp [Item.node?, Function.comp_def, Instr.countP_copy]
  | compare hk =>
    rw [divisions_append, divisions_map_instr, Instr.countP_load]
    simp [Item.node?, hk, Kind.mayTrap, comparison, Instr.const, Asm.divisions, Asm.isDivision,
      Instr.isDivision]
  | binary hk =>
    rw [divisions_map_instr, Instr.countP_binary]
    simp [Item.node?, hk, Kind.mayTrap]
  | ret hk =>
    rw [divisions_map_instr, countP_append, Instr.countP_copy]
    simp [Item.node?, hk, Kind.mayTrap, Instr.epilogue, Instr.isDivision]
  | constInt hk | constBool hk | undefined hk | jump hk | condJump hk =>
    rw [divisions_map_instr]
    simp [Item.node?, hk, Kind.mayTrap, Instr.const, Instr.isDivision]

theorem divisions_front (p : Placed) :
    Asm.divisions (header p.graph.name ++ p.prologue) = 0 := by
  rw [divisions_append, prologue, divisions_map_instr]
  split <;> rfl

theorem divisions_blockLabel (p : Placed) (b : ScheduledBlock) :
    Asm.divisions (p.blockLabel b) = 0 := by
  unfold blockLabel
  split <;> rfl

/-- **The code of a function divides as often as there are divisions** among its
items. -/
theorem divisions_function (h : p.function s = .ok code) : Asm.divisions code =
    (s.items.filterMap Item.node?).countP fun n => (p.graph.kind n).mayTrap := by
  obtain ⟨hi, rfl⟩ := function_eq_ok h
  rw [divisions_append, divisions_front, Nat.zero_add, divisions_flatMap,
    filterMap_eq_flatMap_toList, Schedule.items, flatMap_assoc, countP_flatMap]
  refine congrArg List.sum (map_congr_left fun b hb => ?_)
  rw [blockCode, divisions_append, divisions_blockLabel, Nat.zero_add, divisions_flatMap,
    Function.comp_apply, countP_flatMap]
  exact congrArg List.sum (map_congr_left fun item hitem =>
    divisions_item (hi item (mem_flatMap.2 ⟨b, hb, hitem⟩)))

end Placed

end SsaCompiler
