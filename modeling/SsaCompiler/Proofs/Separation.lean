import SsaCompiler.Proofs.Allocation

/-!
# Live values never share a place

The colouring separates what some line keeps apart, and the lines keep apart
what must not be overwritten: registers that are live at the same time, a
register that is set and those live behind the line, the result of an
operation and its right operand, and the registers of one simultaneous
copy. **A register that is set and never used is kept apart too**; its place
is written all the same.

The lines are any lines at all. Nothing is asked of how they came about.
-/

namespace SsaCompiler

open List

open Liveness (lineAt)

/-- Whether a line computes a result from two operands. -/
def LineOp.computes : LineOp → Bool
  | binary _ | compare _ => true
  | load _ | jump | condJump | ret | phiAssign => false

namespace Line

variable {l : Line} {x y : VReg}

/-- A result is kept apart from the right operand. -/
theorem separates_of_computes (h : l.op.computes) (hx : l.defs.head? = some x)
    (hy : l.uses[1]? = some y) : l.Separates x y := by
  obtain ⟨defs, hd⟩ := head?_eq_some_iff.1 hx
  obtain ⟨lhs, uses, huses⟩ : ∃ lhs uses, l.uses = lhs :: y :: uses := by
    match hu : l.uses with
    | [] | [_] => simp [hu] at hy
    | lhs :: rhs :: uses =>
      obtain rfl : rhs = y := by simpa [hu] using hy
      exact ⟨lhs, uses, rfl⟩
  unfold Separates
  cases hop : l.op with
  | binary | compare =>
    rw [hd, huses]
    exact .inl ⟨rfl, rfl⟩
  | load | jump | condJump | ret | phiAssign => cases hop ▸ h

theorem separates_of_phiAssign (h : l.op = .phiAssign) (hx : x ∈ l.defs) (hy : y ∈ l.defs) :
    l.Separates x y := by
  unfold Separates
  rw [h]
  exact ⟨hx, hy⟩

end Line

namespace Allocation

variable {registers : List Register} {g : Interference} {lines : Array Line} {x y : VReg} {i : Nat}

/-- **Two registers have places, and different ones.** -/
def Apart (a : Allocation) (x y : VReg) : Prop :=
  ∃ l l', a.location? x = some l ∧ a.location? y = some l' ∧ l ≠ l'

/-- Every vertex has one entry in an allocation, and nothing else has. -/
theorem map_fst_colors (hg : g.WellFormed) :
    (ofInterference registers g).colors.map (·.1) = g.vertices := by
  show (g.vertices.filterMap _).map _ = _
  rw [map_filterMap]
  refine Eq.trans (filterMap_congr fun v hv => ?_) (filterMap_some (l := g.vertices))
  obtain ⟨color, hc⟩ :=
    Option.isSome_iff_exists.1 (((Coloring.proper_ofInterference hg).2 v).2 hv)
  rw [hc]
  rfl

theorem count_map_fst_colors (hg : g.WellFormed) (hx : x ∈ g.vertices) :
    ((ofInterference registers g).colors.map (·.1)).count x = 1 := by
  rw [map_fst_colors hg]
  exact List.count_eq_one_of_mem (List.Pairwise.imp Nat.ne_of_lt hg.sorted) hx

theorem apart_of_keepsApart (nodup : registers.Nodup) (hi : i < lines.size) (hne : x ≠ y)
    (h : (Liveness.solve lines).KeepsApart i x y) :
    (ofInterference registers (.ofLiveness (Liveness.solve lines))).Apart x y := by
  have hg := Interference.wellFormed_ofLiveness (Liveness.solve lines)
  have he : y ∈ (Interference.ofLiveness (Liveness.solve lines)).neighbors x :=
    Interference.mem_neighbors_ofLiveness.2 ⟨hne.symm, i, hi, h⟩
  obtain ⟨hx, hy⟩ := hg.mem_vertices he
  have hp : ∀ v ∈ (Interference.ofLiveness (Liveness.solve lines)).vertices,
      ((ofInterference registers (.ofLiveness (Liveness.solve lines))).location? v).isSome :=
    fun v hv => isSome_location? hg hv
  obtain ⟨l, hl⟩ := Option.isSome_iff_exists.1 (hp x hx)
  obtain ⟨l', hl'⟩ := Option.isSome_iff_exists.1 (hp y hy)
  exact ⟨l, l', hl, hl', location?_ne nodup hi hne h hl hl'⟩

/-- **Live values never share a place.** Of any lines, with any list of
machine registers in which none stands twice: every register that a line
sets or uses has one entry and a place. Two registers live into a line, a
register that a line sets and another live behind it, the result of a
line and its right operand, and two registers of one simultaneous copy have
different places. -/
theorem live_registers_have_different_places (lines : Array Line) (nodup : registers.Nodup) :
    let v := Liveness.solve lines
    let a := ofInterference registers (.ofLiveness v)
    ∀ i < lines.size, (∀ x, x ∈ (lineAt lines i).defs ∨ x ∈ (lineAt lines i).uses →
        (a.colors.map (·.1)).count x = 1 ∧ ∃ l, a.location? x = some l)
      ∧ (∀ x ∈ v.liveInAt i, ∀ y ∈ v.liveInAt i, x ≠ y → a.Apart x y)
      ∧ (∀ x ∈ (lineAt lines i).defs, ∀ y ∈ v.liveOutAt i, x ≠ y → a.Apart x y)
      ∧ ((lineAt lines i).op.computes = true → ∀ x y, (lineAt lines i).defs.head? = some x →
          (lineAt lines i).uses[1]? = some y → x ≠ y → a.Apart x y)
      ∧ ((lineAt lines i).op = .phiAssign → ∀ x ∈ (lineAt lines i).defs,
          ∀ y ∈ (lineAt lines i).defs, x ≠ y → a.Apart x y) := by
  intro v a i hi
  refine ⟨fun x hx => ⟨?_, exists_location? registers hi hx⟩, fun x hx y hy hne => ?_,
    fun x hx y hy hne => ?_, fun hop x y hx hy hne => ?_, fun hop x hx y hy hne => ?_⟩
  · exact count_map_fst_colors (Interference.wellFormed_ofLiveness v)
      (Interference.mem_vertices_ofLiveness hi hx)
  · exact apart_of_keepsApart nodup hi hne (.inl ⟨hx, hy⟩)
  · exact apart_of_keepsApart nodup hi hne (.inr (.inl ⟨hx, hy⟩))
  · exact apart_of_keepsApart nodup hi hne
      (.inr (.inr (.inr (Line.separates_of_computes hop hx hy))))
  · exact apart_of_keepsApart nodup hi hne
      (.inr (.inr (.inr (Line.separates_of_phiAssign hop hx hy))))

/-- A loop that exchanges two registers until the first is zero. The line that
exchanges them sets both at once, and the loop needs both. -/
def exchangeLines : Array Line :=
  #[{ item := .node 3, op := .load 6, defs := [0], succs := [1] },
    { item := .node 4, op := .load 0, defs := [1], succs := [2] },
    { item := .phiMoves 5 1, op := .phiAssign, defs := [0, 1], uses := [1, 0], succs := [3] },
    { item := .node 8, op := .condJump, uses := [0], succs := [2, 4] },
    { item := .node 9, op := .ret, uses := [1] }]

/-- With one machine register, the two registers of the exchange are placed
apart: one of them has to go to the stack. -/
theorem exchanged_registers_have_different_places : [Register.rbx].Nodup ∧ exchangeLines.size = 5
      ∧ (ofInterference [.rbx] (.ofLiveness (Liveness.solve exchangeLines))).Apart 0 1 := by
  have hnodup : [Register.rbx].Nodup := by decide
  exact ⟨hnodup, rfl, (live_registers_have_different_places exchangeLines hnodup 2
      (by decide)).2.2.2.2 rfl 0 (by decide) 1 (by decide) (by decide)⟩

end Allocation

end SsaCompiler
