import Mathlib.Data.List.Basic
import Mathlib.Order.Nat
import SsaCompiler.Graph.Basic

/-!
# Both directions of the edges

A graph stores an edge twice. `Coherent` says that the two records agree,
**with multiplicity**: a node has as many entries for a user as the user has
operand slots that hold the node. Every operation on graphs keeps this.

What an operation does is told by what it does to four readings of a graph:
its size, the kinds, the blocks and the operands. The lists of users follow
from coherence, so nothing after this module looks at them. The point where
they matter is `operands_replaceUses`: the operation goes through the list
of users only, and coherence is the reason why **every slot of the graph**
that held the old node holds the new one afterwards.
-/

namespace SsaCompiler

open List

variable {n a u user operand old new : NodeId} {g : Graph} {α : Type} {operands : List NodeId}

/-- Up to order, the gap-filling removal is the plain one. -/
theorem swapErase_perm (l : List NodeId) (a : NodeId) : (swapErase l a).Perm (l.erase a) := by
  by_cases ha : a ∈ l
  · obtain ⟨before, after, rfl, hnot⟩ := eq_append_cons_of_mem ha
    have hi : (before ++ a :: after).idxOf? a = some before.length := by
      rw [idxOf?_eq_some_iff]
      refine ⟨by simp, by simp, fun j hj => ?_⟩
      rw [getElem_append_left hj]
      exact fun h => hnot (h ▸ getElem_mem hj)
    have he : (before ++ a :: after).erase a = before ++ after := by
      rw [erase_append_right _ hnot, erase_cons_head]
    rw [he]
    rcases eq_nil_or_concat after with rfl | ⟨middle, z, rfl⟩
    · simp [swapErase, hi]
    · -- The last entry `z` moves into the gap.
      rw [concat_eq_append] at hi ⊢
      have hs : swapErase (before ++ a :: (middle ++ [z])) a = before ++ z :: middle := by
        unfold swapErase
        rw [hi, show (before ++ a :: (middle ++ [z])).getLast? = some z by
          rw [← cons_append, ← append_assoc, getLast?_concat]]
        show ((before ++ a :: (middle ++ [z])).set before.length z).dropLast = _
        rw [set_append_right _ _ le_rfl, Nat.sub_self, set_cons_zero,
          ← cons_append, ← append_assoc, dropLast_concat]
      rw [hs]
      exact (perm_append_singleton z middle).symm.append_left before
  · have hn : l.idxOf? a = none := by
      rw [idxOf?_eq_none_iff]
      exact ha
    rw [erase_of_not_mem ha]
    unfold swapErase
    rw [hn]

theorem count_swapErase (l : List NodeId) (a x : NodeId) :
    (swapErase l a).count x = l.count x - if x = a then 1 else 0 := by
  rw [(swapErase_perm l a).count_eq]
  by_cases h : x = a
  · simp [h]
  · simp [h]

namespace Graph

/-! ## Readings after a change to one node -/

theorem node_modify (g : Graph) (n m : NodeId) (f : Node → Node) :
    (g.modify n f).node m = if m = n ∧ n < g.size then f (g.node m) else g.node m := by
  unfold node modify size
  rw [Array.getD_eq_getD_getElem?, Array.getElem?_modify]
  by_cases h : n = m
  · subst h
    by_cases hn : n < g.nodes.size
    · simp [hn]
    · simp [hn]
  · simp [h, Ne.symm h]

@[simp] theorem size_modify (g : Graph) (n : NodeId) (f : Node → Node) :
    (g.modify n f).size = g.size :=
  Array.size_modify

@[simp] theorem size_mapOperands (g : Graph) (n : NodeId) (f : List NodeId → List NodeId) :
    (g.mapOperands n f).size = g.size :=
  size_modify g n _

@[simp] theorem size_mapUsers (g : Graph) (n : NodeId) (f : List NodeId → List NodeId) :
    (g.mapUsers n f).size = g.size :=
  size_modify g n _

@[simp] theorem kind_mapOperands (g : Graph) (n m : NodeId) (f : List NodeId → List NodeId) :
    (g.mapOperands n f).kind m = g.kind m := by
  unfold kind mapOperands
  rw [node_modify]
  split <;> rfl

@[simp] theorem kind_mapUsers (g : Graph) (n m : NodeId) (f : List NodeId → List NodeId) :
    (g.mapUsers n f).kind m = g.kind m := by
  unfold kind mapUsers
  rw [node_modify]
  split <;> rfl

@[simp] theorem blockOf_mapOperands (g : Graph) (n m : NodeId)
    (f : List NodeId → List NodeId) : (g.mapOperands n f).blockOf m = g.blockOf m := by
  unfold blockOf mapOperands
  rw [node_modify]
  split <;> rfl

@[simp] theorem blockOf_mapUsers (g : Graph) (n m : NodeId) (f : List NodeId → List NodeId) :
    (g.mapUsers n f).blockOf m = g.blockOf m := by
  unfold blockOf mapUsers
  rw [node_modify]
  split <;> rfl

@[simp] theorem operands_mapUsers (g : Graph) (n m : NodeId)
    (f : List NodeId → List NodeId) : (g.mapUsers n f).operands m = g.operands m := by
  unfold operands mapUsers
  rw [node_modify]
  split <;> rfl

@[simp] theorem userEdges_mapOperands (g : Graph) (n m : NodeId)
    (f : List NodeId → List NodeId) : (g.mapOperands n f).userEdges m = g.userEdges m := by
  unfold userEdges mapOperands
  rw [node_modify]
  split <;> rfl

theorem operands_mapOperands (g : Graph) (n m : NodeId) (f : List NodeId → List NodeId) :
    (g.mapOperands n f).operands m =
      if m = n ∧ n < g.size then f (g.operands m) else g.operands m := by
  unfold operands mapOperands
  rw [node_modify]
  split <;> rfl

theorem userEdges_mapUsers (g : Graph) (n m : NodeId) (f : List NodeId → List NodeId) :
    (g.mapUsers n f).userEdges m =
      if m = n ∧ n < g.size then f (g.userEdges m) else g.userEdges m := by
  unfold userEdges mapUsers
  rw [node_modify]
  split <;> rfl

theorem operands_of_size_le (g : Graph) (h : g.size ≤ n) : g.operands n = [] := by
  unfold operands node
  rw [Array.getD_eq_getD_getElem?, Array.getElem?_eq_none h]
  rfl

theorem userEdges_of_size_le (g : Graph) (h : g.size ≤ n) : g.userEdges n = [] := by
  unfold userEdges node
  rw [Array.getD_eq_getD_getElem?, Array.getElem?_eq_none h]
  rfl

/-! ## Coherence -/

/-- **Both records of every edge agree**, and no operand is missing from the
graph. -/
structure Coherent (g : Graph) : Prop where
  closed : ∀ u, ∀ a ∈ g.operands u, a < g.size
  agree : ∀ a u, (g.userEdges a).count u = (g.operands u).count a

theorem Coherent.mem_users (h : g.Coherent) : u ∈ g.users a ↔ a ∈ g.operands u := by
  unfold users
  rw [mem_eraseDups, ← count_pos_iff, h.agree, count_pos_iff]

theorem lt_of_mem_operands (h : a ∈ g.operands u) : u < g.size := by
  by_contra hu
  rw [g.operands_of_size_le (not_lt.1 hu)] at h
  cases h

/-- **Two graphs with the same nodes**, whatever their edges. -/
structure SameNodes (g h : Graph) : Prop where
  name : h.name = g.name
  roles : h.roles = g.roles
  size : h.size = g.size
  kind : ∀ n, h.kind n = g.kind n
  blockOf : ∀ n, h.blockOf n = g.blockOf n

theorem SameNodes.refl (g : Graph) : g.SameNodes g := ⟨rfl, rfl, rfl, fun _ => rfl, fun _ => rfl⟩

theorem SameNodes.trans {h k : Graph} (e : g.SameNodes h) (e' : h.SameNodes k) : g.SameNodes k :=
  ⟨e'.name.trans e.name, e'.roles.trans e.roles, e'.size.trans e.size,
    fun n => (e'.kind n).trans (e.kind n), fun n => (e'.blockOf n).trans (e.blockOf n)⟩

theorem sameNodes_mapOperands (g : Graph) (n : NodeId) (f : List NodeId → List NodeId) :
    g.SameNodes (g.mapOperands n f) :=
  ⟨rfl, rfl, size_mapOperands g n f, fun m => kind_mapOperands g n m f,
    fun m => blockOf_mapOperands g n m f⟩

theorem sameNodes_mapUsers (g : Graph) (n : NodeId) (f : List NodeId → List NodeId) :
    g.SameNodes (g.mapUsers n f) :=
  ⟨rfl, rfl, size_mapUsers g n f, fun m => kind_mapUsers g n m f, fun m => blockOf_mapUsers g n m f⟩

theorem sameNodes_addUser (g : Graph) (user operand : NodeId) :
    g.SameNodes (g.addUser user operand) :=
  sameNodes_mapUsers g operand _

theorem sameNodes_removeUser (g : Graph) (user operand : NodeId) :
    g.SameNodes (g.removeUser user operand) :=
  sameNodes_mapUsers g operand _

theorem sameNodes_foldl (step : Graph → α → Graph)
    (hs : ∀ (g : Graph) a, g.SameNodes (step g a)) (l : List α) (g : Graph) :
    g.SameNodes (l.foldl step g) := by
  induction l generalizing g with
  | nil => exact .refl g
  | cons a l ih => exact (hs g a).trans (ih _)

theorem operands_foldl (step : Graph → α → Graph)
    (hs : ∀ (g : Graph) a m, (step g a).operands m = g.operands m) (l : List α) (g : Graph)
    (m : NodeId) : (l.foldl step g).operands m = g.operands m := by
  induction l generalizing g with
  | nil => rfl
  | cons a l ih => exact (ih _).trans (hs g a m)

/-! ## Records of edges -/

theorem count_userEdges_addUser (g : Graph) (h : operand < g.size) (a u : NodeId) :
    ((g.addUser user operand).userEdges a).count u =
      (g.userEdges a).count u + if a = operand ∧ u = user then 1 else 0 := by
  unfold addUser
  rw [userEdges_mapUsers]
  by_cases ha : a = operand
  · subst ha
    by_cases hu : u = user
    · simp [h, hu]
    · simp [h, hu, Ne.symm hu]
  · simp [ha]

theorem count_userEdges_removeUser (g : Graph) (h : operand < g.size) (a u : NodeId) :
    ((g.removeUser user operand).userEdges a).count u =
      (g.userEdges a).count u - if a = operand ∧ u = user then 1 else 0 := by
  unfold removeUser
  rw [userEdges_mapUsers]
  by_cases ha : a = operand
  · subst ha
    simp [h, count_swapErase]
  · simp [ha]

/-! ## New nodes -/

theorem node_push (g : Graph) (x : Node) (m : NodeId) :
    ({ g with nodes := g.nodes.push x } : Graph).node m =
      if m = g.size then x else g.node m := by
  unfold node size
  rw [Array.getD_eq_getD_getElem?, Array.getElem?_push, Array.getD_eq_getD_getElem?]
  split <;> rfl

/-- The edges of a new node are recorded before the node is there. -/
theorem sameNodes_linked (g : Graph) (user : NodeId) (operands : List NodeId) :
    g.SameNodes (operands.foldl (addUser · user) g) :=
  sameNodes_foldl _ (fun g _ => sameNodes_addUser g _ _) operands g

@[simp] theorem fst_addNode (g : Graph) (kind : Kind) (block : NodeId)
    (operands : List NodeId) : (g.addNode kind block operands).1 = g.size :=
  rfl

@[simp] theorem size_addNode (g : Graph) (kind : Kind) (block : NodeId)
    (operands : List NodeId) : (g.addNode kind block operands).2.size = g.size + 1 := by
  show (Array.push _ _).size = _
  rw [Array.size_push]
  exact congrArg (· + 1) (sameNodes_linked g g.size operands).size

theorem node_addNode (g : Graph) (kind : Kind) (block : NodeId) (operands : List NodeId)
    (m : NodeId) :
    (g.addNode kind block operands).2.node m = if m = g.size then { kind, block, operands }
      else (operands.foldl (addUser · g.size) g).node m := by
  have hs := (sameNodes_linked g g.size operands).size
  have hp := node_push (operands.foldl (addUser · g.size) g) { kind, block, operands } m
  rw [hs] at hp
  exact hp

theorem kind_addNode (g : Graph) (kind : Kind) (block : NodeId) (operands : List NodeId)
    (m : NodeId) :
    (g.addNode kind block operands).2.kind m = if m = g.size then kind else g.kind m := by
  unfold Graph.kind
  rw [node_addNode]
  split
  · rfl
  · exact (sameNodes_linked g g.size operands).kind m

theorem blockOf_addNode (g : Graph) (kind : Kind) (block : NodeId) (operands : List NodeId)
    (m : NodeId) :
    (g.addNode kind block operands).2.blockOf m = if m = g.size then block else g.blockOf m := by
  unfold Graph.blockOf
  rw [node_addNode]
  split
  · rfl
  · exact (sameNodes_linked g g.size operands).blockOf m

theorem operands_addNode (g : Graph) (kind : Kind) (block : NodeId) (operands : List NodeId)
    (m : NodeId) :
    (g.addNode kind block operands).2.operands m =
      if m = g.size then operands else g.operands m := by
  unfold Graph.operands
  rw [node_addNode]
  split
  · rfl
  · exact operands_foldl _ (fun g _ _ => operands_mapUsers g _ _ _) operands g m

theorem count_userEdges_linked (g : Graph) (user : NodeId) (h : ∀ a ∈ operands, a < g.size)
    (a u : NodeId) :
    ((operands.foldl (addUser · user) g).userEdges a).count u =
      (g.userEdges a).count u + if u = user then operands.count a else 0 := by
  induction operands generalizing g with
  | nil => simp
  | cons first rest ih =>
    have hf : first < g.size := h first (.head _)
    have hr : ∀ b ∈ rest, b < (g.addUser user first).size := fun b hb => by
      rw [(sameNodes_addUser g user first).size]
      exact h b (.tail _ hb)
    rw [foldl_cons, ih _ hr, count_userEdges_addUser g hf]
    by_cases hu : u = user <;> by_cases ha : a = first
    · simp [hu, ha]
      omega
    · simp [ha, Ne.symm ha]
    · simp [hu]
    · simp [hu]

theorem Coherent.addNode (h : g.Coherent) (kind : Kind) (block : NodeId)
    (ho : ∀ a ∈ operands, a < g.size) :
    (g.addNode kind block operands).2.Coherent := by
  refine ⟨fun u a ha => ?_, fun a u => ?_⟩
  · rw [operands_addNode] at ha
    rw [size_addNode]
    split at ha
    · exact Nat.lt_succ_of_lt (ho a ha)
    · exact Nat.lt_succ_of_lt (h.closed u a ha)
  · rw [operands_addNode]
    unfold userEdges
    rw [node_addNode]
    by_cases ha : a = g.size
    · -- Nothing uses the new node yet.
      have hc : ∀ l : List NodeId, (∀ b ∈ l, b < g.size) → l.count a = 0 :=
        fun l hl => count_eq_zero.2 fun hm => Nat.lt_irrefl _ (ha ▸ hl a hm)
      rw [if_pos ha]
      split
      · exact (hc _ ho).symm
      · exact (hc _ (h.closed u)).symm
    · rw [if_neg ha]
      refine (count_userEdges_linked g g.size ho a u).trans ?_
      rw [h.agree]
      split
      · rename_i hu
        rw [hu, g.operands_of_size_le le_rfl, count_nil, Nat.zero_add]
      · rfl

@[simp] theorem fst_newBlock (g : Graph) (role : String) : (g.newBlock role).1 = g.size :=
  rfl

@[simp] theorem size_newBlock (g : Graph) (role : String) : (g.newBlock role).2.size = g.size + 1 :=
  Array.size_push _

theorem exists_node_newBlock (g : Graph) (role : String) :
    ∃ label, ∀ m, (g.newBlock role).2.node m =
      if m = g.size then { kind := .block label, block := g.size } else g.node m :=
  ⟨_, fun m => node_push g _ m⟩

theorem kind_newBlock_of_ne (g : Graph) (role : String) {m : NodeId} (h : m ≠ g.size) :
    (g.newBlock role).2.kind m = g.kind m := by
  obtain ⟨label, hn⟩ := exists_node_newBlock g role
  unfold kind
  rw [hn, if_neg h]

theorem isBlock_newBlock (g : Graph) (role : String) :
    ((g.newBlock role).2.kind g.size).isBlock := by
  obtain ⟨label, hn⟩ := exists_node_newBlock g role
  unfold kind
  rw [hn, if_pos rfl]
  rfl

theorem blockOf_newBlock (g : Graph) (role : String) (m : NodeId) :
    (g.newBlock role).2.blockOf m = if m = g.size then g.size else g.blockOf m := by
  obtain ⟨label, hn⟩ := exists_node_newBlock g role
  unfold blockOf
  rw [hn]
  split <;> rfl

theorem operands_newBlock (g : Graph) (role : String) (m : NodeId) :
    (g.newBlock role).2.operands m = g.operands m := by
  obtain ⟨label, hn⟩ := exists_node_newBlock g role
  by_cases h : m = g.size
  · rw [h, g.operands_of_size_le le_rfl]
    unfold operands
    rw [hn, if_pos rfl]
  · unfold operands
    rw [hn, if_neg h]

theorem Coherent.newBlock (h : g.Coherent) (role : String) : (g.newBlock role).2.Coherent := by
  refine ⟨fun u a ha => ?_, fun a u => ?_⟩
  · rw [operands_newBlock] at ha
    rw [size_newBlock]
    exact Nat.lt_succ_of_lt (h.closed u a ha)
  · rw [operands_newBlock, ← h.agree]
    obtain ⟨label, hn⟩ := exists_node_newBlock g role
    by_cases ha : a = g.size
    · rw [ha, g.userEdges_of_size_le le_rfl]
      unfold userEdges
      rw [hn, if_pos rfl]
    · unfold userEdges
      rw [hn, if_neg ha]

/-! ## One more operand -/

theorem sameNodes_pushOperand (g : Graph) (n operand : NodeId) :
    g.SameNodes (g.pushOperand n operand) :=
  (sameNodes_mapOperands g n _).trans (sameNodes_addUser _ n operand)

theorem operands_pushOperand (g : Graph) (hn : n < g.size) (operand m : NodeId) :
    (g.pushOperand n operand).operands m =
      if m = n then g.operands n ++ [operand] else g.operands m := by
  unfold pushOperand addUser
  rw [operands_mapUsers, operands_mapOperands]
  by_cases h : m = n
  · rw [if_pos ⟨h, hn⟩, if_pos h, h]
  · rw [if_neg (fun e => h e.1), if_neg h]

theorem Coherent.pushOperand (h : g.Coherent) (hn : n < g.size) (hop : operand < g.size) :
    (g.pushOperand n operand).Coherent := by
  refine ⟨fun u a ha => ?_, fun a u => ?_⟩
  · rw [operands_pushOperand g hn] at ha
    rw [(sameNodes_pushOperand g n operand).size]
    split at ha
    · rcases mem_append.1 ha with ha | ha
      · exact h.closed n a ha
      · exact mem_singleton.1 ha ▸ hop
    · exact h.closed u a ha
  · rw [operands_pushOperand g hn]
    unfold Graph.pushOperand
    rw [count_userEdges_addUser _ (by rwa [size_mapOperands]), userEdges_mapOperands, h.agree]
    by_cases hu : u = n
    · subst hu
      by_cases ha : a = operand
      · simp [ha]
      · simp [ha, Ne.symm ha]
    · simp [hu]

/-! ## Replacing a node -/

theorem count_map_replace (hne : old ≠ new) (l : List NodeId) (a : NodeId) :
    (l.map fun m => if m = old then new else m).count a =
      if a = old then 0 else l.count a + if a = new then l.count old else 0 := by
  induction l with
  | nil => simp
  | cons m l ih =>
    rw [map_cons, count_cons, ih, count_cons]
    by_cases hm : m = old
    · subst hm
      by_cases ha : a = new
      · simp [ha, Ne.symm hne, hne]
        omega
      · by_cases ham : a = m
        · simp [ham, Ne.symm hne]
        · simp [ha, Ne.symm ha, Ne.symm ham]
    · by_cases ha : a = old
      · simp [ha, hm]
      · simp [ha, hm]
        omega

/-- Move `k` of the entries for `user` from one node to another. -/
theorem count_userEdges_move (g : Graph) (user : NodeId) (hne : old ≠ new) (ho : old < g.size)
    (hnew : new < g.size) (k : Nat) (a u : NodeId) :
    (((List.replicate k user).foldl
        (fun h u => (h.removeUser u old).addUser u new) g).userEdges a).count u =
      (g.userEdges a).count u - (if a = old ∧ u = user then k else 0) +
        if a = new ∧ u = user then k else 0 := by
  induction k generalizing g with
  | zero => simp
  | succ k ih =>
    have hs : ((g.removeUser user old).addUser user new).size = g.size :=
      ((sameNodes_removeUser g user old).trans (sameNodes_addUser _ user new)).size
    rw [replicate_succ, foldl_cons, ih _ (hs ▸ ho) (hs ▸ hnew),
      count_userEdges_addUser _ (by rwa [(sameNodes_removeUser g user old).size]),
      count_userEdges_removeUser g ho]
    by_cases hu : u = user
    · by_cases ha : a = old
      · subst ha
        simp [hu, hne]
        omega
      · simp [ha]
        split <;> omega
    · simp [hu]

theorem sameNodes_rewire (g : Graph) (old new user : NodeId) :
    g.SameNodes (g.rewire old new user) :=
  (sameNodes_mapOperands g user _).trans
    (sameNodes_foldl _ (fun g u => (sameNodes_removeUser g u old).trans
      (sameNodes_addUser _ u new)) _ _)

theorem operands_rewire (g : Graph) (old new user m : NodeId) : (g.rewire old new user).operands m =
      if m = user then (g.operands m).map fun a => if a = old then new else a
      else g.operands m := by
  have hf := operands_foldl (fun (h : Graph) u => (h.removeUser u old).addUser u new)
    (fun h u m => (operands_mapUsers _ _ m _).trans (operands_mapUsers _ _ m _))
    (List.replicate ((g.operands user).count old) user)
    (g.mapOperands user (·.map fun m => if m = old then new else m)) m
  unfold rewire
  rw [hf, operands_mapOperands]
  by_cases h : m = user
  · by_cases hm : user < g.size
    · rw [if_pos ⟨h, hm⟩, if_pos h]
    · rw [if_neg (fun e => hm e.2), if_pos h, h, g.operands_of_size_le (not_lt.1 hm)]
      rfl
  · rw [if_neg (fun e => h e.1), if_neg h]

theorem Coherent.rewire (h : g.Coherent) (user : NodeId) (hne : old ≠ new) (hold : old < g.size)
    (hnew : new < g.size) :
    (g.rewire old new user).Coherent := by
  refine ⟨fun u a ha => ?_, fun a u => ?_⟩
  · rw [operands_rewire] at ha
    rw [(sameNodes_rewire g old new user).size]
    split at ha
    · obtain ⟨m, hm, rfl⟩ := mem_map.1 ha
      split
      · exact hnew
      · exact h.closed u m hm
    · exact h.closed u a ha
  · rw [operands_rewire]
    unfold Graph.rewire
    rw [count_userEdges_move _ user hne (by rwa [size_mapOperands])
      (by rwa [size_mapOperands]), userEdges_mapOperands, h.agree]
    by_cases hu : u = user
    · subst hu
      rw [if_pos rfl, count_map_replace hne]
      by_cases ha : a = old
      · simp [ha, hne]
      · simp [ha]
    · simp [hu]

theorem sameNodes_replaceUses (g : Graph) (old new : NodeId) :
    g.SameNodes (g.replaceUses old new) := by
  unfold replaceUses
  split
  · exact .refl g
  · exact sameNodes_foldl _ (fun g u => sameNodes_rewire g old new u) _ g

theorem operands_foldl_rewire (g : Graph) (hne : old ≠ new) (l : List NodeId) (m : NodeId) :
    (l.foldl (·.rewire old new ·) g).operands m =
      if m ∈ l then (g.operands m).map fun a => if a = old then new else a
      else g.operands m := by
  induction l generalizing g with
  | nil => simp
  | cons u l ih =>
    rw [foldl_cons, ih, operands_rewire]
    by_cases hu : m = u
    · have hmem : m ∈ u :: l := hu ▸ mem_cons_self
      split
      · rw [map_map]
        refine map_congr_left fun a _ => ?_
        show (if (if a = old then new else a) = old then new else _) = _
        by_cases ha : a = old
        · rw [if_pos ha, if_neg (Ne.symm hne)]
        · rw [if_neg ha, if_neg ha]
      · rfl
    · simp [hu]

/-- **Every slot that held the old node holds the new one.** -/
theorem Coherent.operands_replaceUses (h : g.Coherent) (old new m : NodeId) :
    (g.replaceUses old new).operands m =
      (g.operands m).map fun a => if a = old then new else a := by
  have hs : ∀ l : List NodeId, (∀ a ∈ l, a = old → new = a) →
      l.map (fun a => if a = old then new else a) = l := fun l hl => by
    refine (map_congr_left fun a ha => ?_).trans (map_id l)
    split
    · exact hl a ha ‹_›
    · rfl
  unfold replaceUses
  split
  · rename_i he
    exact (hs _ fun a _ ha => he ▸ ha.symm).symm
  · rename_i hne
    rw [operands_foldl_rewire g hne]
    split
    · rfl
    · rename_i hm
      rw [h.mem_users] at hm
      exact (hs _ fun a ha e => absurd (e ▸ ha) hm).symm

theorem Coherent.foldl_rewire (h : g.Coherent) (hne : old ≠ new) (ho : old < g.size)
    (hn : new < g.size) (l : List NodeId) :
    (l.foldl (·.rewire old new ·) g).Coherent := by
  induction l generalizing g with
  | nil => exact h
  | cons u l ih =>
    have hs := (sameNodes_rewire g old new u).size
    exact ih (h.rewire u hne ho hn) (hs ▸ ho) (hs ▸ hn)

theorem Coherent.replaceUses (h : g.Coherent) (hold : old < g.size) (hnew : new < g.size) :
    (g.replaceUses old new).Coherent := by
  unfold Graph.replaceUses
  split
  · exact h
  · exact h.foldl_rewire ‹_› hold hnew _

/-! ## Taking a node out of use -/

theorem sameNodes_detach (g : Graph) (n : NodeId) : g.SameNodes (g.detach n) :=
  (sameNodes_mapOperands g n _).trans
    (sameNodes_foldl _ (fun g a => sameNodes_removeUser g n a) _ _)

theorem operands_detach (g : Graph) (n m : NodeId) :
    (g.detach n).operands m = if m = n then [] else g.operands m := by
  have hf := operands_foldl (fun (h : Graph) a => h.removeUser n a)
    (fun h a m => operands_mapUsers _ _ m _) (g.operands n) (g.mapOperands n fun _ => []) m
  unfold detach
  rw [hf, operands_mapOperands]
  by_cases h : m = n
  · by_cases hn : n < g.size
    · rw [if_pos ⟨h, hn⟩, if_pos h]
    · rw [if_neg (fun e => hn e.2), if_pos h, h, g.operands_of_size_le (not_lt.1 hn)]
  · rw [if_neg (fun e => h e.1), if_neg h]

theorem count_userEdges_unlinked (g : Graph) (user : NodeId) (h : ∀ a ∈ operands, a < g.size)
    (a u : NodeId) :
    ((operands.foldl (·.removeUser user ·) g).userEdges a).count u =
      (g.userEdges a).count u - if u = user then operands.count a else 0 := by
  induction operands generalizing g with
  | nil => simp
  | cons first rest ih =>
    have hf : first < g.size := h first (.head _)
    have hr : ∀ b ∈ rest, b < (g.removeUser user first).size := fun b hb => by
      rw [(sameNodes_removeUser g user first).size]
      exact h b (.tail _ hb)
    rw [foldl_cons, ih _ hr, count_userEdges_removeUser g hf]
    by_cases hu : u = user <;> by_cases ha : a = first
    · simp [hu, ha]
      omega
    · simp [ha, Ne.symm ha]
    · simp [hu]
    · simp [hu]

theorem Coherent.detach (h : g.Coherent) (n : NodeId) : (g.detach n).Coherent := by
  refine ⟨fun u a ha => ?_, fun a u => ?_⟩
  · rw [operands_detach] at ha
    rw [(sameNodes_detach g n).size]
    split at ha
    · cases ha
    · exact h.closed u a ha
  · rw [operands_detach]
    unfold Graph.detach
    rw [count_userEdges_unlinked _ n (fun b hb => by
      rw [size_mapOperands]
      exact h.closed n b hb), userEdges_mapOperands, h.agree]
    by_cases hu : u = n
    · simp [hu]
    · simp [hu]

end Graph

end SsaCompiler
