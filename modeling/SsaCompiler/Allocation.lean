import SsaCompiler.Interference
import SsaCompiler.Machine.Register

/-!
# Allocation

Virtual registers are given places by colouring their interference graph.
A **maximum cardinality search** decides the order: it takes, again and
again, the vertex with the most neighbours taken before, and the smallest
among equals. Vertices are coloured from the last taken to the first: each
with the colour of a move partner if that colour is free, otherwise with the
least free colour.

A colour stands for one of the machine's registers, in their order, and when
those are used up for a stack slot of four bytes.
-/

namespace SsaCompiler

/-! ## Maximum cardinality search -/

namespace Interference

/-- Vertices not yet taken, ascending, each with the number of its neighbours
that were. -/
abbrev Weights := List (VReg × Nat)

/-- **The next vertex to take**: the first among those of the greatest
weight. -/
def heaviest? : Weights → Option (VReg × Nat)
  | [] => none
  | x :: rest =>
    match heaviest? rest with
    | some y => if x.2 < y.2 then some y else some x
    | none => some x

/-- Take a vertex: its neighbours gain weight. -/
def take (g : Interference) (a : VReg) (weights : Weights) : Weights :=
  let neighbors := g.neighbors a
  (weights.filter (·.1 ≠ a)).map fun (v, w) => (v, if neighbors.contains v then w + 1 else w)

/-- Take vertices one by one, at most `count` of them. -/
def searchFrom (g : Interference) : Nat → Weights → List VReg
  | 0, _ => []
  | count + 1, weights =>
    match heaviest? weights with
    | some (a, _) => a :: g.searchFrom count (g.take a weights)
    | none => []

/-- **The order in which a maximum cardinality search takes the
vertices.** -/
def searchOrder (g : Interference) : List VReg :=
  g.searchFrom g.vertices.length (g.vertices.map (·, 0))

end Interference

/-! ## Colouring -/

/-- Colours given so far. -/
abbrev Coloring := List (VReg × Nat)

namespace Coloring

/-- The least colour that is not taken. -/
def leastFree (taken : List Nat) : Nat :=
  ((List.range (taken.length + 1)).find? (!taken.contains ·)).getD taken.length

/-- **The colour for a vertex**: that of a move partner where it is free, and
the least free one otherwise. -/
def choose (g : Interference) (c : Coloring) (a : VReg) : Nat :=
  let taken := (g.neighbors a).filterMap fun n => c.lookup n
  let preferred := (g.partners a).filterMap fun p => c.lookup p
  (preferred.find? (!taken.contains ·)).getD (leastFree taken)

/-- Colour the vertices of a list, one after the other. -/
def extend (g : Interference) (c : Coloring) (order : List VReg) : Coloring :=
  order.foldl (fun c a => (a, c.choose g a) :: c) c

/-- **Colour an interference graph**, from the vertex taken last to the vertex
taken first. -/
def ofInterference (g : Interference) : Coloring :=
  extend g [] g.searchOrder.reverse

end Coloring

/-! ## Places -/

/-- **The colours of the registers of a function**, ascending by register, and
the machine registers they stand for. -/
structure Allocation where
  registers : List Register
  colors : List (VReg × Nat)
deriving DecidableEq

namespace Allocation

/-- The bytes of a stack slot. -/
def slotSize : Nat := 4

/-- **Allocate the vertices of an interference graph** to a list of machine
registers. -/
def ofInterference (registers : List Register) (g : Interference) : Allocation :=
  let coloring := Coloring.ofInterference g
  { registers, colors := g.vertices.filterMap fun v => (coloring.lookup v).map (v, ·) }

/-- **The place a colour stands for.** -/
def place (registers : List Register) (color : Nat) : Location :=
  match registers[color]? with
  | some r => .reg r
  | none => .stack ((color - registers.length) * slotSize : Nat)

/-- The colour of a virtual register. -/
def color? (a : Allocation) (r : VReg) : Option Nat :=
  a.colors.lookup r

/-- **The place of a virtual register.** -/
def location? (a : Allocation) (r : VReg) : Option Location :=
  (a.color? r).map (place a.registers)

/-- The number of colours in use, counted from zero to the greatest. -/
def colorCount (a : Allocation) : Nat :=
  a.colors.foldl (fun most x => max most (x.2 + 1)) 0

/-- The number of stack slots in use. -/
def spillSlots (a : Allocation) : Nat :=
  a.colorCount - a.registers.length

/-- The bytes a function reserves for its stack slots. -/
def frameSize (a : Allocation) : Nat :=
  a.spillSlots * slotSize

end Allocation

end SsaCompiler
