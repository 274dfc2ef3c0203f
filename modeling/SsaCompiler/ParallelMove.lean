/-!
# Parallel moves

The copies along an edge of control happen all at once; a machine performs
one after the other. A copy may be performed when **no copy still to come
reads its destination**. When every destination is still to be read, only
circles are left: a scratch place keeps what one destination holds, the
copies that read it read the scratch instead, and its circle is broken.

The destinations of the copies must differ from each other. The scratch place
should be none of them: if it is the first place to be saved, saving it gains
nothing, and **the copies never come to an end**.
-/

namespace SsaCompiler

/-- **A copy**: source, then destination. -/
abbrev Move (α : Type) := α × α

namespace ParallelMove

variable {α : Type} [DecidableEq α]

/-- **The first copy whose destination no pending copy reads.** -/
def ready? (pending : List (Move α)) : Option (Move α) :=
  pending.find? fun m => pending.all fun other => other.1 ≠ m.2

/-- Let the copies that read `blocked` read the scratch place instead. -/
def redirect (scratch blocked : α) (pending : List (Move α)) : List (Move α) :=
  pending.map fun m => (if m.1 = blocked then scratch else m.1, m.2)

/-- Perform the pending copies, if at most `steps` steps are enough. -/
def perform (scratch : α) : Nat → List (Move α) → Option (List (Move α))
  | _, [] => some []
  | 0, _ :: _ => none
  | steps + 1, first :: rest =>
    match ready? (first :: rest) with
    | some m => (perform scratch steps ((first :: rest).erase m)).map (m :: ·)
    | none =>
      (perform scratch steps (redirect scratch first.2 (first :: rest))).map ((first.2, scratch) :: ·)

/-- **Copies in an order that has the effect of performing all at once**, if
they come to an end. A copy of a place to itself is dropped. A broken circle
leaves a copy that can be performed, so two steps for every copy are enough
unless no number of steps is. -/
def sequentialize (scratch : α) (moves : List (Move α)) : Option (List (Move α)) :=
  let pending := moves.filter fun m => m.1 ≠ m.2
  perform scratch (2 * pending.length) pending

end ParallelMove

end SsaCompiler
