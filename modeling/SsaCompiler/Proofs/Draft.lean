import SsaCompiler.Draft
import SsaCompiler.Proofs.Graph.Edges

/-!
# Making nodes in a draft

A node made in a draft is answered by itself or by an earlier node of the
same key. **Either way the draft has one more node and the others are as
they were**: where the answer is an earlier node, the new one loses its
operands and nothing ever refers to it.
-/

namespace SsaCompiler

open Graph Draft

variable {kind : Kind} {block n : NodeId} {operands : List NodeId} {d d' : Draft}

/-- The entries of the value table; none without sharing. -/
def Draft.known (d : Draft) : List (ValueKey × NodeId) :=
  (d.values.map (·.known)).getD []

/-- **What making a node does to a draft**, shared or not: there is one more
node, the others are as they were. -/
structure Draft.Adds (d : Draft) (kind : Kind) (block : NodeId) (d' : Draft) : Prop where
  name : d'.graph.name = d.graph.name
  roles : d'.graph.roles = d.graph.roles
  size : d'.graph.size = d.graph.size + 1
  kind : ∀ m, d'.graph.kind m = if m = d.graph.size then kind else d.graph.kind m
  blockOf : ∀ m, d'.graph.blockOf m = if m = d.graph.size then block else d.graph.blockOf m
  operands : ∀ m ≠ d.graph.size, d'.graph.operands m = d.graph.operands m

/-- **One more node**, perhaps a block: the others are as they were. -/
structure Draft.Appends (d : Draft) (kind : Kind) (block : NodeId) (d' : Draft) : Prop where
  name : d'.graph.name = d.graph.name
  size : d'.graph.size = d.graph.size + 1
  kind : ∀ m, d'.graph.kind m = if m = d.graph.size then kind else d.graph.kind m
  blockOf : ∀ m, d'.graph.blockOf m = if m = d.graph.size then block else d.graph.blockOf m
  operands : ∀ m ≠ d.graph.size, d'.graph.operands m = d.graph.operands m

theorem Draft.Adds.appends (h : d.Adds kind block d') : d.Appends kind block d' := { h with }

theorem Draft.exists_appends_newBlock (d : Draft) (role : String) :
    ∃ label, d.Appends (.block label) d.graph.size { d with graph := (d.graph.newBlock role).2 } := by
  obtain ⟨label, hn⟩ := exists_node_newBlock d.graph role
  refine ⟨label, rfl, size_newBlock _ _, fun m => ?_, blockOf_newBlock _ _,
    fun m _ => operands_newBlock _ _ m⟩
  unfold Graph.kind
  rw [hn]
  split <;> rfl

theorem Draft.Appends.of_isPhi (h : d.Appends kind block d') (hk : kind.isPhi = false)
    (hn : (d'.graph.kind n).isPhi) : d'.graph.kind n = d.graph.kind n ∧ (d.graph.kind n).isPhi ∧
      d'.graph.operands n = d.graph.operands n ∧ d'.graph.blockOf n = d.graph.blockOf n := by
  have hne : n ≠ d.graph.size := fun he => by
    rw [h.kind, if_pos he, hk] at hn
    cases hn
  have ho := (h.kind n).trans (if_neg hne)
  exact ⟨ho, ho ▸ hn, h.operands n hne, (h.blockOf n).trans (if_neg hne)⟩

/-- The key under which a new node is offered. -/
def ValueKey.of (kind : Kind) (block : NodeId) (operands : List NodeId) : ValueKey :=
  { kind, block, operands := if kind.isCommutative then sortOperands operands else operands }

theorem insertOperand_perm (a : NodeId) (l : List NodeId) : (insertOperand a l).Perm (a :: l) := by
  induction l with
  | nil => exact .refl _
  | cons b rest ih =>
    unfold insertOperand
    split
    · exact .refl _
    · exact (ih.cons b).trans (.swap a b rest)

theorem sortOperands_perm (l : List NodeId) : (sortOperands l).Perm l := by
  induction l with
  | nil => exact .refl _
  | cons a rest ih => exact (insertOperand_perm a _).trans (ih.cons a)

/-- Keys that are equal have the same operands, perhaps in another order. -/
theorem ValueKey.perm_of_of_eq {operands' : List NodeId}
    (h : ValueKey.of kind block operands = .of kind block operands') : operands.Perm operands' := by
  have h : (if kind.isCommutative then sortOperands operands else operands)
      = if kind.isCommutative then sortOperands operands' else operands' :=
    congrArg ValueKey.operands h
  split at h
  · exact (sortOperands_perm operands).symm.trans (h ▸ sortOperands_perm operands')
  · exact .of_eq h

theorem ValueKey.perm_operands_of (kind : Kind) (block : NodeId) (operands : List NodeId) :
    (ValueKey.of kind block operands).operands.Perm operands := by
  unfold ValueKey.of
  split
  · exact sortOperands_perm operands
  · exact .refl _

/-- **How a new node is answered**: by itself, or by an earlier one of the
same key, and then the new one has no operands. -/
inductive Draft.Answer (d : Draft) (kind : Kind) (block : NodeId) (operands : List NodeId) :
    NodeId → Draft → Prop
  | unshared {d' : Draft} (hops : d'.graph.operands d.graph.size = operands)
      (hknown : d'.known = d.known) : Answer d kind block operands d.graph.size d'
  | first {d' : Draft} (hkind : kind.isShareable = true)
      (hops : d'.graph.operands d.graph.size = operands)
      (hknown : d'.known = (.of kind block operands, d.graph.size) :: d.known) :
      Answer d kind block operands d.graph.size d'
  | again {n : NodeId} {d' : Draft} (hkind : kind.isShareable = true)
      (hmem : (ValueKey.of kind block operands, n) ∈ d.known)
      (hops : d'.graph.operands d.graph.size = []) (hknown : d'.known = d.known) :
      Answer d kind block operands n d'

theorem Draft.Answer.operands_new (h : d.Answer kind block operands n d') :
    d'.graph.operands d.graph.size = operands ∨ d'.graph.operands d.graph.size = [] := by
  cases h with
  | unshared ho | first _ ho => exact .inl ho
  | again _ _ ho => exact .inr ho

theorem Draft.Answer.eq_or_known (h : d.Answer kind block operands n d') :
    n = d.graph.size ∨ (ValueKey.of kind block operands, n) ∈ d.known := by
  cases h with
  | unshared | first => exact .inl rfl
  | again _ hmem => exact .inr hmem

theorem Draft.Answer.mem_known (h : d.Answer kind block operands n d') {e : ValueKey × NodeId}
    (he : e ∈ d'.known) : e ∈ d.known ∨ e = (.of kind block operands, d.graph.size) ∧
      d'.graph.operands d.graph.size = operands := by
  cases h with
  | unshared _ hk | again _ _ _ hk => exact .inl (hk ▸ he)
  | first _ hops hk =>
    rw [hk] at he
    exact (List.mem_cons.1 he).symm.imp_right fun heq => ⟨heq, hops⟩

theorem mem_of_lookup_eq_some {α β : Type} [BEq α] [LawfulBEq α] {l : List (α × β)} {a : α} {x : β}
    (h : l.lookup a = some x) : (a, x) ∈ l := by
  rw [List.lookup_eq_some_iff] at h
  obtain ⟨before, after, rfl, -⟩ := h
  simp

/-- **What offering a node does**: nothing, or it is the first of its key, or
an earlier one is found. -/
theorem Draft.offer_cases (d : Draft) (n : NodeId) : d.offer n = (n, d) ∨
      ∃ table, d.values = some table ∧ (d.graph.kind n).isShareable ∧
        ((table.known.lookup (d.graph.valueKey n) = none ∧
            d.offer n = (n, ⟨d.graph, some ⟨(d.graph.valueKey n, n) :: table.known,
              table.hits⟩, d.log⟩)) ∨
          ∃ earlier, table.known.lookup (d.graph.valueKey n) = some earlier ∧
            d.offer n = (earlier, Draft.report ⟨d.graph.detach n, some ⟨table.known,
              table.hits + 1⟩, d.log⟩ (.valueReused n earlier))) := by
  unfold Draft.offer
  cases hvalues : d.values with
  | none => exact .inl rfl
  | some table =>
    by_cases hs : (d.graph.kind n).isShareable = true
    · refine .inr ⟨table, rfl, hs, ?_⟩
      cases hl : table.known.lookup (d.graph.valueKey n) with
      | none => exact .inl ⟨rfl, by simp [hs, hl]⟩
      | some earlier => exact .inr ⟨earlier, rfl, by simp [hs, hl]⟩
    · exact .inl (by simp [hs])

section Add

variable (d : Draft) (kind : Kind) (block : NodeId) (operands : List NodeId)

theorem Draft.adds_addNode :
    d.Adds kind block { d with graph := (d.graph.addNode kind block operands).2 } where
  name := (sameNodes_linked d.graph d.graph.size operands).name
  roles := (sameNodes_linked d.graph d.graph.size operands).roles
  size := size_addNode d.graph kind block operands
  kind := kind_addNode d.graph kind block operands
  blockOf := blockOf_addNode d.graph kind block operands
  operands := fun m hm => (operands_addNode d.graph kind block operands m).trans (if_neg hm)

theorem valueKey_addNode : (d.graph.addNode kind block operands).2.valueKey d.graph.size =
      .of kind block operands := by
  unfold Graph.valueKey ValueKey.of
  rw [kind_addNode, blockOf_addNode, operands_addNode, if_pos rfl, if_pos rfl, if_pos rfl]

theorem Draft.add_spec : d.Adds kind block (d.add kind block operands).2 ∧
      d.Answer kind block operands (d.add kind block operands).1
        (d.add kind block operands).2 := by
  have ha := d.adds_addNode kind block operands
  have ho : (d.graph.addNode kind block operands).2.operands d.graph.size = operands :=
    (operands_addNode d.graph kind block operands _).trans (if_pos rfl)
  have hkind : (d.graph.addNode kind block operands).2.kind d.graph.size = kind :=
    (kind_addNode d.graph kind block operands _).trans (if_pos rfl)
  have hkey := valueKey_addNode d kind block operands
  have hadd : d.add kind block operands =
      Draft.offer { d with graph := (d.graph.addNode kind block operands).2 } d.graph.size := rfl
  rw [hadd]
  obtain h | ⟨table, hv, hshare, hc⟩ := offer_cases
    { d with graph := (d.graph.addNode kind block operands).2 } d.graph.size
  · rw [h]
    exact ⟨ha, .unshared ho rfl⟩
  · have hk : d.known = table.known := by
      unfold Draft.known
      rw [hv]
      rfl
    have hshare : kind.isShareable = true := hkind ▸ hshare
    rcases hc with ⟨-, h⟩ | ⟨earlier, hl, h⟩
    · rw [h]
      refine ⟨⟨ha.name, ha.roles, ha.size, ha.kind, ha.blockOf, ha.operands⟩, .first hshare ho ?_⟩
      rw [hk, ← hkey]
      rfl
    · -- The new node is detached, which changes no other node.
      have hs := sameNodes_detach (d.graph.addNode kind block operands).2 d.graph.size
      have hd := operands_detach (d.graph.addNode kind block operands).2 d.graph.size
      rw [h]
      refine ⟨⟨hs.name.trans ha.name, hs.roles.trans ha.roles,
        hs.size.trans ha.size, fun m => (hs.kind m).trans (ha.kind m),
        fun m => (hs.blockOf m).trans (ha.blockOf m), fun m hm => ?_⟩,
        .again hshare ?_ ((hd _).trans (if_pos rfl)) hk.symm⟩
      · exact ((hd m).trans (if_neg hm)).trans (ha.operands m hm)
      · rw [hk, ← hkey]
        exact mem_of_lookup_eq_some hl

theorem Draft.coherent_add (h : d.graph.Coherent) (hops : ∀ a ∈ operands, a < d.graph.size) :
    (d.add kind block operands).2.graph.Coherent := by
  have hn := h.addNode kind block hops
  have hadd : d.add kind block operands =
      Draft.offer { d with graph := (d.graph.addNode kind block operands).2 } d.graph.size := rfl
  rw [hadd]
  obtain h | ⟨table, -, -, ⟨-, h⟩ | ⟨earlier, -, h⟩⟩ := offer_cases
    { d with graph := (d.graph.addNode kind block operands).2 } d.graph.size
  · rw [h]
    exact hn
  · rw [h]
    exact hn
  · rw [h]
    exact hn.detach _

end Add

end SsaCompiler
