import SsaCompiler.Proofs.Graph.Edges
import SsaCompiler.Proofs.Schedule

/-!
# Dependencies inside a block

A member of a block depends on another member that computes one of its
operands. The operand may be an output, of an output even, and then
stands for the node at the end of that chain (`Graph.StandsFor`). The search
for the end is bounded by the size of the graph. **Where no output leads
back to itself, that is bound enough**: the chain passes through no node
twice.

The order of the members is a postorder along the dependencies. It lists
every member once, and as long as the dependencies run in no circle, **each
member after everything it depends on**
(`Graph.members_follow_dependencies`).
-/

open Relation

namespace SsaCompiler.Graph

open List

variable {g : Graph} {n m a inner : NodeId} {members : List NodeId}

theorem idxOf_lt_idxOf_of_mem {l before after : List NodeId} (nodup : l.Nodup)
    (split : l = before ++ n :: after) (hm : m ∈ after) : l.idxOf n < l.idxOf m := by
  subst split
  obtain ⟨-, tail, apart⟩ := nodup_append.1 nodup
  have fresh : ∀ x ∈ n :: after, x ∉ before := fun x hx hx' => apart x hx' x hx rfl
  have hne : n ≠ m := fun e => (nodup_cons.1 tail).1 (e ▸ hm)
  rw [idxOf_append_of_notMem (fresh n (.head _)),
    idxOf_append_of_notMem (fresh m (.tail _ hm)), idxOf_cons_self,
    idxOf_cons_ne _ hne]
  omega

/-! ## What a node stands for -/

/-- **An output leads to the node whose output it is.** -/
def Projects (g : Graph) (n inner : NodeId) : Prop :=
  (g.kind n).isProj = true ∧ (g.operands n).head? = some inner

/-- **No output leads back to itself.** -/
def OutputsEnd (g : Graph) : Prop :=
  ∀ n, ¬ TransGen g.Projects n n

/-- **A node stands for another** that its outputs lead to, and that is no
output of anything. -/
def StandsFor (g : Graph) (n m : NodeId) : Prop :=
  ReflTransGen g.Projects n m ∧ ∀ inner, ¬ g.Projects m inner

theorem Projects.lt_size (h : g.Projects n inner) : n < g.size :=
  lt_of_mem_operands (mem_of_mem_head? h.2)

theorem Projects.unique (h : g.Projects n inner) (h' : g.Projects n m) : inner = m :=
  Option.some.inj (h.2.symm.trans h'.2)

theorem StandsFor.unique (h : g.StandsFor n m) (h' : g.StandsFor n a) : m = a := by
  obtain ⟨lead, ends⟩ := h
  induction lead using ReflTransGen.head_induction_on with
  | refl =>
    rcases ReflTransGen.cases_head h'.1 with e | ⟨inner, step, -⟩
    · exact e
    · exact absurd step (ends inner)
  | head step _ ih =>
    rcases ReflTransGen.cases_head h'.1 with rfl | ⟨inner, step', rest⟩
    · exact absurd step (h'.2 _)
    · exact ih ⟨step.unique step' ▸ rest, h'.2⟩

/-- A search that has passed through enough outputs has come to the end:
`passed` lists them, and there are no more than the graph has nodes. -/
theorem standsFor_producerWithin (outputs : g.OutputsEnd) (passed : List NodeId)
    (nodup : passed.Nodup) (lead : ∀ x ∈ passed, x < g.size ∧ TransGen g.Projects x n)
    (steps : Nat) (enough : g.size ≤ passed.length + steps) :
    g.StandsFor n (g.producerWithin steps n) := by
  have fresh : n ∉ passed := fun hn => outputs n (lead n hn).2
  induction steps generalizing n passed with
  | zero =>
    refine ⟨.refl, fun inner step => ?_⟩
    have all : n :: passed ⊆ List.range g.size := by
      intro x hx
      rcases mem_cons.1 hx with rfl | hx
      · exact mem_range.2 step.lt_size
      · exact mem_range.2 (lead x hx).1
    have := (subperm_of_subset (nodup_cons.2 ⟨fresh, nodup⟩) all).length_le
    rw [length_cons, length_range] at this
    omega
  | succ steps ih =>
    rw [producerWithin]
    split
    · rename_i proj
      split
      · rename_i inner rest ho
        have step : g.Projects n inner := ⟨proj, by rw [ho]; rfl⟩
        have lead' : ∀ x ∈ n :: passed,
            x < g.size ∧ TransGen g.Projects x inner := by
          intro x hx
          rcases mem_cons.1 hx with rfl | hx
          · exact ⟨step.lt_size, .single step⟩
          · exact ⟨(lead x hx).1, (lead x hx).2.tail step⟩
        obtain ⟨rest, ends⟩ := ih (n :: passed) (nodup_cons.2 ⟨fresh, nodup⟩) lead'
          (by rw [length_cons]; omega) fun h => outputs inner (lead' inner h).2
        exact ⟨.head step rest, ends⟩
      · rename_i ho
        exact ⟨.refl, fun inner step => by simp [Projects, ho] at step⟩
    · rename_i proj
      exact ⟨.refl, fun inner step => proj step.1⟩

/-- The node that computes what a node stands for is found. -/
theorem producer_eq_iff (outputs : g.OutputsEnd) : g.producer n = m ↔ g.StandsFor n m := by
  have found : g.StandsFor n (g.producer n) :=
    standsFor_producerWithin outputs [] nodup_nil (forall_mem_nil _)
      g.size (by simp)
  exact ⟨fun e => e ▸ found, fun h => found.unique h⟩

/-! ## The order of the members -/

/-- **A member depends on a member** that one of its operands stands for. -/
def DependsOn (g : Graph) (members : List NodeId) (n m : NodeId) : Prop :=
  n ∈ members ∧ m ∈ members ∧ ∃ a ∈ g.operands n, g.StandsFor a m

theorem mem_dependencies (outputs : g.OutputsEnd) (hn : n ∈ members) :
    m ∈ g.dependencies members n ↔ g.DependsOn members n m := by
  simp only [dependencies, mem_filter, mem_map, contains_iff_mem, producer_eq_iff outputs]
  exact ⟨fun h => ⟨hn, h.2, h.1⟩, fun h => ⟨h.2.2, h.2.1⟩⟩

theorem dependencies_subset (g : Graph) (members : List NodeId) (n : NodeId) :
    g.dependencies members n ⊆ members := fun m hm => by
  simpa using (mem_filter.1 hm).2

/-- The members are listed once each, and nothing else is. -/
theorem orderMembers_perm (g : Graph) (nodup : members.Nodup) :
    (g.orderMembers members).Perm members := by
  refine (perm_ext_iff_of_nodup (Walk.nodup_postorder _ _ _) nodup).2 fun n => ?_
  refine ⟨mem_of_mem_orderMembers, fun hn => ?_⟩
  exact Walk.mem_postorder_of_reach members (fun x _ => g.dependencies_subset members x)
    (List.Subset.refl _) le_rfl hn .refl

theorem dependsOn_of_reach (outputs : g.OutputsEnd) (hn : n ∈ members)
    (h : Walk.Reach (g.dependencies members) n m) :
    m ∈ members ∧ ReflTransGen (g.DependsOn members) n m := by
  induction h with
  | refl => exact ⟨hn, .refl⟩
  | tail _ step ih =>
    have step := (mem_dependencies outputs ih.1).1 step
    exact ⟨step.2.1, ih.2.tail step⟩

theorem idxOf_lt_of_dependsOn (outputs : g.OutputsEnd) (nodup : members.Nodup)
    (acyclic : ∀ n, ¬ TransGen (g.DependsOn members) n n)
    (h : g.DependsOn members n m) :
    (g.orderMembers members).idxOf m < (g.orderMembers members).idxOf n := by
  obtain ⟨before, after, split⟩ :=
    append_of_mem ((g.orderMembers_perm nodup).mem_iff.2 h.1)
  have mem : m ∈ before := by
    refine (Walk.mem_before_of_mem_next members (fun x _ => g.dependencies_subset members x)
      (List.Subset.refl _) le_rfl split
      ((mem_dependencies outputs h.1).2 h)).resolve_right fun back => ?_
    exact acyclic n (.head' h (dependsOn_of_reach outputs h.2.1 back).2)
  obtain ⟨front, between, rfl⟩ := append_of_mem mem
  exact idxOf_lt_idxOf_of_mem (Walk.nodup_postorder _ _ _)
    (split.trans (append_assoc front (m :: between) (n :: after)))
    (mem_append_right between (.head _))

/-- **Each member of a block comes after everything it depends on.** In a
graph where no output leads back to itself, let `members` be nodes without a
repeat whose dependencies run in no circle. They are put into an order that
is a permutation of them, and a member that another depends on, directly
or through others, comes before it. -/
theorem members_follow_dependencies (g : Graph) (outputs : g.OutputsEnd)
    (members : List NodeId) (nodup : members.Nodup)
    (acyclic : ∀ n, ¬ Relation.TransGen (g.DependsOn members) n n) :
    (g.orderMembers members).Perm members
      ∧ ∀ n m, Relation.TransGen (g.DependsOn members) n m →
          (g.orderMembers members).idxOf m < (g.orderMembers members).idxOf n := by
  refine ⟨g.orderMembers_perm nodup, fun n m h => ?_⟩
  induction h with
  | single step => exact idxOf_lt_of_dependsOn outputs nodup acyclic step
  | tail _ step ih =>
    exact Nat.lt_trans (idxOf_lt_of_dependsOn outputs nodup acyclic step) ih

/-! ## Two quotients -/

/-- Two divisions of the same operands, and nothing uses their results. Only
the effects tell which is first: the second takes its effect from an output
of the first. -/
def twoQuotients : Graph where
  name := "f"
  nodes := #[⟨.block "f_start", 0, [], []⟩, ⟨.start, 0, [], [5]⟩, ⟨.block "f_end", 2, [9], []⟩,
    ⟨.constInt 17, 0, [], [5, 7, 9]⟩, ⟨.constInt 5, 0, [], [5, 7]⟩,
    ⟨.binary (.arith .div), 0, [3, 4, 1], [6]⟩, ⟨.proj .effect, 0, [5], [7]⟩,
    ⟨.binary (.arith .mod), 0, [3, 4, 6], [8]⟩, ⟨.proj .effect, 0, [7], [9]⟩,
    ⟨.ret, 0, [8, 3], [2]⟩]
  roles := ["end", "start"]

theorem not_transGen_self_of_lt {r : Nat → Nat → Prop} (h : ∀ a b, r a b → b < a) (n : Nat) :
    ¬ TransGen r n n := fun circle => by
  have down : TransGen (· > ·) n n := TransGen.mono h n n circle
  rw [Relation.transGen_eq_self] at down
  exact Nat.lt_irrefl n down

theorem operands_twoQuotients_lt (hn : n ≠ endBlock) (ha : a ∈ twoQuotients.operands n) :
    a < n := by
  have all : ∀ n < 10, n ≠ endBlock → ∀ a ∈ twoQuotients.operands n, a < n := by decide
  exact all n (lt_of_mem_operands ha) hn a ha

theorem projects_twoQuotients_lt (h : twoQuotients.Projects n m) : m < n :=
  operands_twoQuotients_lt (fun e => absurd (e ▸ h.1) nofun) (mem_of_mem_head? h.2)

/-- Given in the reverse order, the two divisions and their operands are put
into the order of the effects. -/
theorem quotients_follow_effects : twoQuotients.DependsOn [7, 5, 4, 3] 7 5
      ∧ (twoQuotients.orderMembers [7, 5, 4, 3]).Perm [7, 5, 4, 3]
      ∧ (twoQuotients.orderMembers [7, 5, 4, 3]).idxOf 5
          < (twoQuotients.orderMembers [7, 5, 4, 3]).idxOf 7 := by
  have depends : twoQuotients.DependsOn [7, 5, 4, 3] 7 5 :=
    ⟨by decide, by decide, 6, by decide, .single ⟨rfl, rfl⟩, fun _ step => absurd step.1 nofun⟩
  have down : ∀ n m, twoQuotients.DependsOn [7, 5, 4, 3] n m → m < n := by
    rintro n m ⟨hn, -, a, ha, lead, -⟩
    have hm : m ≤ a := by
      induction lead with
      | refl => exact Nat.le_refl _
      | tail _ step ih => exact Nat.le_trans (Nat.le_of_lt (projects_twoQuotients_lt step)) ih
    refine Nat.lt_of_le_of_lt hm (operands_twoQuotients_lt (fun e => ?_) ha)
    rw [e] at hn
    exact absurd hn (by decide)
  obtain ⟨perm, order⟩ := members_follow_dependencies twoQuotients
    (not_transGen_self_of_lt fun _ _ => projects_twoQuotients_lt) [7, 5, 4, 3] (by decide)
    (not_transGen_self_of_lt down)
  exact ⟨depends, perm, order 7 5 (.single depends)⟩

end SsaCompiler.Graph
