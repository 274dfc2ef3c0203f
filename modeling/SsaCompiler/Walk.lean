/-!
# Depth-first walks

One walk serves every order the compiler needs: the operands of a node
before the node, the blocks of a function in layout order, and the
instructions of a block after what they use.

`Walk.postorder next bound roots` visits what can be reached from `roots`
along `next`, each vertex once, and lists the vertices as they are left:
**a vertex comes after everything it leads to**, except where a cycle makes
that impossible. The bound limits the depth of the walk. A walk never
enters a vertex it has already entered, so the number of vertices is bound
enough, and that is what callers pass.
-/

namespace SsaCompiler

/-- **The state of a walk**: the vertices entered and the vertices left, the
latest first. -/
structure Walk where
  entered : List Nat := []
  left : List Nat := []

namespace Walk

/-- **Visit one vertex**: nothing if it was entered before, otherwise enter
it, visit what it leads to in order, and leave it. -/
def visit (next : Nat → List Nat) : Nat → Walk → Nat → Walk
  | 0, w, _ => w
  | bound + 1, w, v =>
    if w.entered.contains v then w
    else
      let inner := (next v).foldl (visit next bound) { w with entered := v :: w.entered }
      { inner with left := v :: inner.left }

/-- **The vertices reachable from `roots`, in the order they are left.** -/
def postorder (next : Nat → List Nat) (bound : Nat) (roots : List Nat) : List Nat :=
  (roots.foldl (visit next bound) {}).left.reverse

end Walk

end SsaCompiler
