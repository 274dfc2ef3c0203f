import SsaCompiler.Proofs.Schedule.Dependencies

/-!
# The order of a graph

A node leads to its operands and to its block. The walk of a graph is told by this
relation alone: it lists, once each, **the nodes that the roots lead to**, and a node
after whatever it leads to, unless that leads back to the node
(`Graph.postorder_is_true_postorder`).

Nothing is asked of the graph as a whole. Whatever the roots lead to has to be nodes of
it, since there is nothing to be read of any other.
-/

namespace SsaCompiler.Graph

open List

variable {g : Graph} {n m : NodeId} {roots : List NodeId}

/-- **What a node leads to**: its operands and its block. -/
def LeadsTo (g : Graph) (n m : NodeId) : Prop :=
  m ∈ g.operands n ∨ m = g.blockOf n

theorem leadsTo_of_mem_next (h : m ∈ g.next n) : g.LeadsTo n m := by
  unfold next at h
  split at h
  · exact .inl h
  · exact (mem_append.1 h).imp_right mem_singleton.1

/-- The walk leaves out the edge from a block to itself. -/
theorem LeadsTo.mem_next (h : g.LeadsTo n m) (hne : m ≠ n) : m ∈ g.next n := by
  unfold next
  rcases h with h | rfl
  · split
    · exact h
    · exact mem_append_left _ h
  · rw [if_neg hne]
    exact mem_append_right _ (mem_singleton_self _)

theorem reach_next_iff :
    Walk.Reach g.next n m ↔ Relation.ReflTransGen g.LeadsTo n m := by
  refine ⟨Relation.ReflTransGen.mono (fun _ _ => leadsTo_of_mem_next) n m, fun h => ?_⟩
  induction h with
  | refl => exact .refl
  | @tail k m _ hl ih =>
    by_cases he : m = k
    · exact he ▸ ih
    · exact ih.tail (hl.mem_next he)

/-- **The walk of a graph is a true postorder**, from whatever roots: it has no node twice,
it has the nodes that the roots lead to and no others, and an operand or the block of a node
comes before the node unless it leads back to it. -/
theorem postorder_is_true_postorder
    (h : ∀ r ∈ roots, ∀ n, Relation.ReflTransGen g.LeadsTo r n → n < g.size) :
    (g.postorder roots).Nodup ∧
    (∀ n, n ∈ g.postorder roots ↔ ∃ r ∈ roots, Relation.ReflTransGen g.LeadsTo r n) ∧
    ∀ n ∈ g.postorder roots, ∀ m, g.LeadsTo n m →
      (g.postorder roots).idxOf m < (g.postorder roots).idxOf n ∨
        Relation.ReflTransGen g.LeadsTo m n := by
  classical
  -- The nodes that the roots lead to are closed, and not more than the graph has.
  let vertices := g.ids.filter fun n => ∃ r ∈ roots, Walk.Reach g.next r n
  have hmem : ∀ {r n}, r ∈ roots → Walk.Reach g.next r n → n ∈ vertices := fun {r n} hr hreach =>
    mem_filter.2 ⟨mem_range.2 (h r hr n (reach_next_iff.1 hreach)), decide_eq_true ⟨r, hr, hreach⟩⟩
  have hclosed : ∀ x ∈ vertices, g.next x ⊆ vertices := fun x hx y hy => by
    obtain ⟨r, hr, hreach⟩ := of_decide_eq_true (mem_filter.1 hx).2
    exact hmem hr (hreach.tail hy)
  have hroots : roots ⊆ vertices := fun r hr => hmem hr .refl
  have hbound : vertices.length ≤ g.size := (length_filter_le _ _).trans length_range.le
  have hnodup : (g.postorder roots).Nodup := Walk.nodup_postorder _ _ _
  refine ⟨hnodup, fun n => ⟨fun hn => ?_, fun ⟨r, hr, hlead⟩ => ?_⟩, fun n hn m hlead => ?_⟩
  · obtain ⟨r, hr, hreach⟩ := Walk.reach_of_mem_postorder hn
    exact ⟨r, hr, reach_next_iff.1 hreach⟩
  · exact Walk.mem_postorder_of_reach vertices hclosed hroots hbound hr (reach_next_iff.2 hlead)
  · by_cases he : m = n
    · exact .inr (he ▸ .refl)
    · obtain ⟨before, after, hsplit⟩ := append_of_mem hn
      refine (Walk.mem_before_of_mem_next vertices hclosed hroots hbound hsplit
        (hlead.mem_next he)).imp (fun hbefore => ?_) reach_next_iff.1
      obtain ⟨front, back, rfl⟩ := append_of_mem hbefore
      exact idxOf_lt_idxOf_of_mem hnodup (hsplit.trans (append_assoc _ _ _))
        (mem_append_right _ (.head _))

/-- A loop that counts nothing: block 3 is entered from the start block and from itself,
and node 6 merges an effect with itself around the loop. -/
def idleLoop : Graph :=
  let g := ((Graph.init "f").newBlock "loop").2
  let g := ((g.addNode (.jump 3) 0 []).2.addNode (.jump 3) 3 []).2
  let g := (g.addNode (.phi .effect) 3 [1]).2
  ((g.pushOperand 3 4).pushOperand 3 5).pushOperand 6 6

/-- The jump of the loop comes before its block, which leads back to the jump. -/
theorem idleLoop_in_postorder : idleLoop.postorder [6] = [0, 1, 4, 5, 3, 6] ∧
    idleLoop.LeadsTo 5 3 ∧ Relation.ReflTransGen idleLoop.LeadsTo 3 5 := by
  have hclosed : ∀ n < 7, ∀ m ∈ idleLoop.blockOf n :: idleLoop.operands n, m < 7 := by decide
  have hlt : ∀ r ∈ [6], ∀ n, Relation.ReflTransGen idleLoop.LeadsTo r n → n < idleLoop.size := by
    intro r hr n hlead
    induction hlead with
    | refl => exact mem_singleton.1 hr ▸ (show 6 < 7 by decide)
    | @tail k m _ hstep ih =>
      exact hclosed k ih m (hstep.elim (.tail _) fun he => he ▸ .head _)
  have hwalk : idleLoop.postorder [6] = [0, 1, 4, 5, 3, 6] := by decide
  have hlead : idleLoop.LeadsTo 5 3 := .inr (by decide)
  obtain ⟨-, -, horder⟩ := postorder_is_true_postorder hlt
  refine ⟨hwalk, hlead, (horder 5 (hwalk ▸ by decide) 3 hlead).resolve_left ?_⟩
  rw [hwalk]
  decide

end SsaCompiler.Graph
