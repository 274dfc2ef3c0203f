import SsaCompiler.Liveness

/-!
# Interference

Two virtual registers **interfere** when they must not share a place. That
is so if both are live into some line, if a line sets one and the other is
live behind it, or if one simultaneous copy assigns to both. The
instructions of an operation write the result before they read the right
operand, so the result also interferes with that operand.

A copy into a merge relates its two registers as **move partners**: giving
both the same place saves the copy.
-/

namespace SsaCompiler

/-- **Which registers interfere, and which are joined by a copy.** -/
structure Interference where
  edges : Relation := []
  moves : Relation := []
deriving DecidableEq

namespace Interference

/-- Make a register a vertex. -/
def addVertex (g : Interference) (a : VReg) : Interference :=
  { g with edges := g.edges.touch a }

/-- Let two different registers interfere. -/
def addEdge (g : Interference) (a b : VReg) : Interference :=
  { g with edges := g.edges.join a b }

/-- Make two different registers move partners. This adds no vertex. -/
def addMove (g : Interference) (a b : VReg) : Interference :=
  { g with moves := g.moves.join a b }

/-- The registers of the graph, ascending. -/
def vertices (g : Interference) : List VReg :=
  g.edges.domain

/-- What a register interferes with, ascending. -/
def neighbors (g : Interference) (a : VReg) : List VReg :=
  g.edges.row a

/-- What a register is joined to by copies, ascending. -/
def partners (g : Interference) (a : VReg) : List VReg :=
  g.moves.row a

/-- Whether two registers interfere. -/
def interferes (g : Interference) (a b : VReg) : Bool :=
  (g.neighbors a).contains b

/-- Every edge once, the smaller register first, ascending. -/
def edgeList (g : Interference) : List (VReg × VReg) :=
  g.edges.flatMap fun (a, row) => (row.filter (a < ·)).map (a, ·)

/-- Let all registers of a set interfere with each other. -/
def addClique (g : Interference) (set : List VReg) : Interference :=
  { g with edges := g.edges.joinAll set }

/-- Let a register interfere with the members of a set. -/
def addStar (g : Interference) (a : VReg) (set : List VReg) : Interference :=
  { g with edges := g.edges.joinTo a set }

/-- What a line demands beyond the registers live around it. -/
def addOperation (g : Interference) (l : Line) : Interference :=
  match l.op, l.defs, l.uses with
  | .binary _, d :: _, _ :: rhs :: _ => g.addEdge d rhs
  | .compare _, d :: _, _ :: rhs :: _ => g.addEdge d rhs
  | .phiAssign, defs, uses =>
    (defs.zip uses).foldl (fun g (d, u) => g.addMove d u) (g.addClique (Ascending.ofList defs))
  | _, _, _ => g

/-- **What one line demands.** -/
def addLine (v : Liveness) (g : Interference) (index : Nat) : Interference :=
  let l := Liveness.lineAt v.lines index
  let g := (l.defs ++ l.uses).foldl addVertex g
  let g := g.addClique (v.liveInAt index)
  let after := v.liveOutAt index
  let g := l.defs.foldl (·.addStar · after) g
  g.addOperation l

/-- **The interference of a program over virtual registers.** -/
def ofLiveness (v : Liveness) : Interference :=
  (List.range v.lines.size).foldl (addLine v) {}

end Interference

end SsaCompiler
