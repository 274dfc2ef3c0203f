import SsaCompiler.Graph.Order

/-!
# Drawings of a graph

The DOT text of a graph draws what the returns of the function depend on
(`Graph.reachable`) and nothing else. Edges run in the direction in which
values flow and carry the position of the operand; a node also hangs on its
block by a dotted line.

A drawing is first a list of statements and only then text, so that what is
drawn, and how often, is a question about a list.
-/

namespace SsaCompiler

/-- **A statement of a drawing.** -/
inductive DotStatement where
  /-- Draw a node. -/
  | vertex (n : NodeId) (kind : Kind)
  /-- Draw the edge to a node from the operand at a position. -/
  | operand (n source : NodeId) (index : Nat)
  /-- Hang a node on its block. -/
  | owner (n block : NodeId)
deriving DecidableEq

namespace DotStatement

/-- The outline of a node. -/
def shape (kind : Kind) : String :=
  match kind with
  | .block _ => "box"
  | .phi _ => "diamond"
  | .jump _ | .condJump _ _ | .ret => "invhouse"
  | _ => "ellipse"

/-- The line of a statement. -/
def text : DotStatement → String
  | .vertex n kind =>
    let id := NodeId.text n
    s!"  {id} [label=\"{id}: {kind.text}\", shape={shape kind}];\n"
  | .operand n source index =>
    s!"  {NodeId.text source} -> {NodeId.text n} [label=\"{index}\"];\n"
  | .owner n block =>
    s!"  {NodeId.text n} -> {NodeId.text block} [style=dotted, arrowhead=none];\n"

end DotStatement

namespace Graph

/-- The statements that draw the edges of a node: its operands in order,
then its block. A block does not hang on itself. -/
def dotEdges (g : Graph) (n : NodeId) : List DotStatement :=
  (g.operands n).zipIdx.map (fun (source, index) => .operand n source index)
    ++ if g.blockOf n = n then [] else [.owner n (g.blockOf n)]

/-- **What is drawn of a graph**: every reachable node, then their edges. -/
def dotStatements (g : Graph) : List DotStatement :=
  g.reachable.map (fun n => .vertex n (g.kind n)) ++ g.reachable.flatMap g.dotEdges

/-- **The drawing of a graph.** -/
def dot (g : Graph) : String :=
  s!"digraph \"{g.name}\" \x7b\n"
    ++ "  node [fontname=\"monospace\"];\n"
    ++ String.join (g.dotStatements.map DotStatement.text)
    ++ "\x7d\n"

end Graph

end SsaCompiler
