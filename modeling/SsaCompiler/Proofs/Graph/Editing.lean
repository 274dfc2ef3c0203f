import SsaCompiler.Proofs.Builder.Move
import SsaCompiler.Proofs.Graph.Lowering

/-!
# Editing a graph

An **edit** is one call of an operation on graphs: it makes a block or a node,
changes operands, replaces a node, takes one out of use, offers one to the value
table or lowers the conditional values. Edits name nodes of the graph, and
otherwise come in any order.

Every edit keeps a draft intact (`Draft.Edit.intact`). So after any number of
edits **the two records of every edge agree**, with multiplicity, and the users of
a node are the nodes that have it as an operand
(`Draft.operands_and_users_agree`).
-/

namespace SsaCompiler

open List Graph

variable {g : Graph} {d e : Draft} {n operand : NodeId} {index : Nat}

/-! ## Changing one operand -/

theorem count_set {l : List NodeId} {old : NodeId} (h : l[index]? = some old) (new a : NodeId) :
    (l.set index new).count a =
      l.count a - (if a = old then 1 else 0) + if a = new then 1 else 0 := by
  induction l generalizing index with
  | nil => cases h
  | cons x l ih =>
    cases index with
    | zero =>
      obtain rfl : x = old := Option.some.inj h
      simp only [set_cons_zero, count_cons, beq_iff_eq, @eq_comm _ _ a]
      split <;> omega
    | succ index =>
      have hle : (if a = old then 1 else 0) ≤ l.count a := by
        split
        next he => exact count_pos_iff.2 (he ▸ mem_of_getElem? h)
        next => exact Nat.zero_le _
      simp only [set_cons_succ, count_cons, ih h]
      omega

theorem Graph.sameNodes_setOperand? {g' : Graph} (h : g.setOperand? n index operand = some g') :
    g.SameNodes g' := by
  obtain ⟨old, -, rfl⟩ := Option.map_eq_some_iff.1 h
  exact ((g.sameNodes_mapOperands n _).trans (sameNodes_removeUser _ n old)).trans
    (sameNodes_addUser _ n operand)

/-- **Changing an operand keeps a graph coherent.** -/
theorem Graph.Coherent.setOperand? {g' : Graph} (h : g.Coherent) (hn : n < g.size)
    (hop : operand < g.size) (hset : g.setOperand? n index operand = some g') : g'.Coherent := by
  have hs := sameNodes_setOperand? hset
  obtain ⟨old, ho, rfl⟩ := Option.map_eq_some_iff.1 hset
  have hlt := h.closed n old (mem_of_getElem? ho)
  have hops : ∀ u, (((g.mapOperands n (·.set index operand)).removeUser n old).addUser n
      operand).operands u = if u = n then (g.operands n).set index operand else g.operands u :=
    fun u => by
      simp only [addUser, removeUser, operands_mapUsers, operands_mapOperands, hn, and_true]
      split
      next he => rw [he]
      next => rfl
  refine ⟨fun u a ha => hs.size ▸ ?_, fun a u => ?_⟩
  · rw [hops] at ha
    split at ha
    · rcases mem_or_eq_of_mem_set ha with ha | rfl
      · exact h.closed n a ha
      · exact hop
    · exact h.closed u a ha
  · rw [count_userEdges_addUser _ (by simpa [removeUser] using hop),
      count_userEdges_removeUser _ (by simpa using hlt), userEdges_mapOperands, h.agree, hops]
    by_cases hu : u = n
    · subst hu
      simp [count_set ho]
    · simp [hu]

/-! ## Edits -/

namespace Draft

/-- A draft with another graph. -/
def withGraph (d : Draft) (graph : Graph) : Draft :=
  { d with graph }

/-- **One call of an operation on graphs.** The nodes it names are nodes of the
graph. The value table may be exchanged for any other that names nodes of the
graph. -/
inductive Edit (d : Draft) : Draft → Prop
  | newBlock (role : String) : Edit d (d.withGraph (d.graph.newBlock role).2)
  | addNode (kind : Kind) {block : NodeId} {operands : List NodeId} (hblock : block < d.graph.size)
      (hops : ∀ a ∈ operands, a < d.graph.size) :
      Edit d (d.withGraph (d.graph.addNode kind block operands).2)
  | pushOperand {n operand : NodeId} (hn : n < d.graph.size) (hop : operand < d.graph.size) :
      Edit d (d.withGraph (d.graph.pushOperand n operand))
  | setOperand {n operand : NodeId} {index : Nat} {g : Graph} (hn : n < d.graph.size)
      (hop : operand < d.graph.size) (hset : d.graph.setOperand? n index operand = some g) :
      Edit d (d.withGraph g)
  | replaceUses {old new : NodeId} (hold : old < d.graph.size) (hnew : new < d.graph.size) :
      Edit d (d.withGraph (d.graph.replaceUses old new))
  | detach {n : NodeId} (hn : n < d.graph.size) : Edit d (d.withGraph (d.graph.detach n))
  | project {n : NodeId} (channel : Channel) (hn : n < d.graph.size) :
      Edit d (d.withGraph (d.graph.project n channel).2)
  | offer {n : NodeId} (hn : n < d.graph.size) : Edit d (d.offer n).2
  | lower : Edit d d.lowerConditionals.2
  | exchange {values : Option ValueTable}
      (h : ∀ e ∈ ({ d with values } : Draft).known, e.2 < d.graph.size) : Edit d { d with values }

/-- **Any number of edits.** -/
abbrev Edits : Draft → Draft → Prop :=
  Relation.ReflTransGen Edit

theorem Intact.withGraph (h : d.Intact) (hg : g.Coherent) (hle : d.graph.size ≤ g.size) :
    (d.withGraph g).Intact :=
  ⟨hg, fun e he => (h.table e he).trans_le hle⟩

theorem Intact.addNode (h : d.Intact) (kind : Kind) (block : NodeId) {operands : List NodeId}
    (hops : ∀ a ∈ operands, a < d.graph.size) :
    (d.withGraph (d.graph.addNode kind block operands).2).Intact :=
  h.withGraph (h.coherent.addNode kind block hops)
    (Nat.le_of_lt (by rw [size_addNode]; exact Nat.lt_succ_self _))

theorem Intact.offer (h : d.Intact) (hn : n < d.graph.size) : (d.offer n).2.Intact := by
  rcases d.offer_cases n with he | ⟨table, hv, -, ⟨-, he⟩ | ⟨earlier, -, he⟩⟩ <;> rw [he]
  · exact h
  · have hk : d.known = table.known := by rw [known, hv]; rfl
    exact ⟨h.coherent, forall_mem_cons.2 ⟨hn, fun x hx => h.table x (hk ▸ hx)⟩⟩
  · have hk : d.known = table.known := by rw [known, hv]; rfl
    exact ⟨h.coherent.detach n, fun x hx => Nat.lt_of_lt_of_eq (h.table x (hk ▸ hx))
      (sameNodes_detach d.graph n).size.symm⟩

/-- Lowering one conditional value takes no node away. -/
theorem Intact.lowers (h : d.Intact) (hs : Lowers d n e) (hn : n < d.graph.size) :
    e.Intact ∧ d.graph.size ≤ e.graph.size := by
  cases hs with
  | keep => exact ⟨h, le_rfl⟩
  | drop => exact ⟨h.drop n, (sameNodes_detach d.graph n).size.symm.le⟩
  | @choose cond ifTrue ifFalse value e event hops hc =>
    obtain ⟨known, f, hd, hmem, -⟩ := hc
    obtain ⟨he, hle, hk⟩ := h.derives hd fun p hp =>
      h.coherent.closed n _ (hops ▸ mem_of_mem_choiceArgs hp)
    have hr : (e.report event).Intact := ⟨he.coherent, he.table⟩
    refine ⟨hr.substitute (hn.trans_le hle) (hk _ hmem), hle.trans ?_⟩
    exact Nat.le_of_eq ((sameNodes_replaceUses e.graph n value).trans
      (sameNodes_detach _ n)).size.symm

/-- **An edit keeps a draft intact.** -/
theorem Edit.intact (h : d.Edit e) (hd : d.Intact) : e.Intact := by
  have hc := hd.coherent
  cases h with
  | newBlock role =>
    exact hd.withGraph (hc.newBlock role) (Nat.le_of_lt (by
      rw [size_newBlock]; exact Nat.lt_succ_self _))
  | addNode kind _ hops => exact hd.addNode kind _ hops
  | pushOperand hn hop =>
    exact hd.withGraph (hc.pushOperand hn hop)
      (d.graph.sameNodes_pushOperand _ _).size.symm.le
  | setOperand hn hop hset =>
    exact hd.withGraph (hc.setOperand? hn hop hset)
      (sameNodes_setOperand? hset).size.symm.le
  | replaceUses hold hnew =>
    exact hd.withGraph (hc.replaceUses hold hnew)
      (d.graph.sameNodes_replaceUses _ _).size.symm.le
  | detach hn => exact hd.drop _
  | project channel hn => exact hd.addNode _ _ (by simpa using hn)
  | offer hn => exact hd.offer hn
  | lower =>
    obtain ⟨-, -, h⟩ := exists_done_lowerConditionals
      (P := fun _ e => e.Intact ∧ d.graph.size ≤ e.graph.size) ⟨hd, le_rfl⟩
      fun _ n e e' hn _ he hs => by
        obtain ⟨h', hle⟩ := he.1.lowers hs (hn.trans_le he.2)
        exact ⟨h', he.2.trans hle⟩
    exact h.1
  | exchange h => exact ⟨hc, h⟩

/-- Any number of edits of an empty function's graph leaves a draft intact. -/
theorem Edits.intact {name : String} {sharing : Bool} (h : Edits (init name sharing) d) :
    d.Intact := by
  induction h with
  | refl =>
    exact ⟨(Builder.wellFormed_blank name sharing).coherent, by cases sharing <;> nofun⟩
  | tail _ he ih => exact he.intact ih

theorem nodup_eraseDups (l : List NodeId) : l.eraseDups.Nodup := by
  induction hk : l.length using Nat.strongRecOn generalizing l with
  | ind k ih =>
    cases l with
    | nil => exact nodup_nil
    | cons a l =>
      rw [eraseDups_cons]
      refine nodup_cons.2 ⟨fun h => ?_, ih _ ?_ _ rfl⟩
      · simp at h
      · exact hk ▸ Nat.lt_succ_of_le (length_filter_le _ l)

/-- **Operands and users agree** after any number of edits of an empty function's
graph: a node has as many entries for a user as the user has operand slots that
hold the node. So the users of a node are, without repeats, the nodes that have it
as an operand. -/
theorem operands_and_users_agree {name : String} {sharing : Bool}
    (h : Edits (init name sharing) d) (a u : NodeId) :
    (d.graph.userEdges a).count u = (d.graph.operands u).count a ∧
      (d.graph.users a).Nodup ∧ (u ∈ d.graph.users a ↔ a ∈ d.graph.operands u) := by
  have hd := h.intact
  exact ⟨hd.coherent.agree a u, nodup_eraseDups _, hd.coherent.mem_users⟩

/-- A sum of a constant with itself, which is then replaced by another constant in
one slot and given itself as an operand. -/
def selfishSum : Draft :=
  let g := (((Graph.init "f").addNode (.constInt 1) 0 []).2.addNode (.constInt 2) 0 []).2
  let g := (g.addNode (.binary (.arith .add)) 0 [3, 3]).2
  (init "f" true).withGraph (((g.setOperand? 5 0 4).getD g).pushOperand 5 5)

theorem edits_selfishSum : Edits (init "f" true) selfishSum :=
  ((((Relation.ReflTransGen.single
    (@Edit.addNode _ (.constInt 1) 0 [] (by decide) (by decide))).tail
    (@Edit.addNode _ (.constInt 2) 0 [] (by decide) (by decide))).tail
    (@Edit.addNode _ (.binary (.arith .add)) 0 [3, 3] (by decide) (by decide))).tail
    (@Edit.setOperand _ 5 4 0 _ (by decide) (by decide) rfl)).tail
    (@Edit.pushOperand _ 5 5 (by decide) (by decide))

/-- Its users, with and without repeats. -/
theorem selfishSum_users_agree : Edits (init "f" true) selfishSum ∧
    selfishSum.graph.operands 5 = [4, 3, 5] ∧ selfishSum.graph.users 3 = [5] ∧
    (selfishSum.graph.userEdges 5).count 5 = (selfishSum.graph.operands 5).count 5 :=
  ⟨edits_selfishSum, by decide, by decide, (operands_and_users_agree edits_selfishSum 5 5).1⟩

/-! ## Replacing a node -/

/-- **Replacing a node is exact substitution** in every graph that edits lead to: the slots
that held the old node hold the new one, and nothing else about any node changes. The old
node has no users left, whether it was used by itself, by the new node or by one node in
several slots. -/
theorem replacing_is_exact {name : String} {sharing : Bool} (h : Edits (init name sharing) d)
    {old new : NodeId} (hold : old < d.graph.size) (hnew : new < d.graph.size) :
    (∀ u i, (d.graph.replaceUses old new).operand? u i =
      (d.graph.operand? u i).map fun a => if a = old then new else a) ∧
    (d.graph.replaceUses old new).size = d.graph.size ∧
    (∀ n, (d.graph.replaceUses old new).kind n = d.graph.kind n ∧
      (d.graph.replaceUses old new).blockOf n = d.graph.blockOf n ∧
      (d.graph.replaceUses old new).label n = d.graph.label n) ∧
    (old ≠ new → (d.graph.replaceUses old new).users old = []) := by
  have hc := h.intact.coherent
  have hsame := d.graph.sameNodes_replaceUses old new
  have hops := hc.operands_replaceUses old new
  refine ⟨fun u i => ?_, hsame.size, fun n => ⟨hsame.kind n, hsame.blockOf n, ?_⟩, fun hne => ?_⟩
  · rw [operand?, hops, getElem?_map, operand?]
  · rw [label, hsame.blockOf, hsame.kind, label]
  · -- A user of the old node would hold it in a slot.
    refine eq_nil_iff_forall_not_mem.2 fun u hu => ?_
    rw [(hc.replaceUses hold hnew).mem_users, hops] at hu
    obtain ⟨a, -, ha⟩ := mem_map.1 hu
    split at ha
    · exact hne ha.symm
    · contradiction

/-- The sum, which uses itself and the first constant, put for that constant. -/
theorem selfishSum_replaces_constant : Edits (init "f" true) selfishSum ∧
    (selfishSum.graph.replaceUses 3 5).operands 5 = [4, 5, 5] ∧
    (selfishSum.graph.replaceUses 3 5).users 3 = [] :=
  ⟨edits_selfishSum, by decide,
    (replacing_is_exact edits_selfishSum (by decide) (by decide)).2.2.2 (by decide)⟩

end Draft

end SsaCompiler
