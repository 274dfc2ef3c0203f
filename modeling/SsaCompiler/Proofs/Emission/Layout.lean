import SsaCompiler.Proofs.Emission.Item

/-!
# The code of a function, line by line

The items of a schedule are emitted one after the other, so the code of a
function has a place for every line: `Allocated.codeFrom i` is the code from
line `i` on. A line in the middle of a block is followed by the next one,
and the label of a block stands before its first line.

No label is defined twice: blocks have different labels by assumption, and
the two labels of a comparison carry the number of their node, which is an
item once. Hence **every jump lands on the line it names**
(`Allocated.target_label`).
-/

namespace SsaCompiler

open List SsaCompiler.Except Asm

open Liveness (lineAt)

variable {instrs : List Instr} {s : Schedule} {item : Item} {b : ScheduledBlock}

/-! ## Labels of comparisons -/

theorem toString_injective : Function.Injective (toString : Nat → String) := by
  intro a b h
  have h : a.repr = b.repr := h
  rw [Nat.repr_eq_ofList_toDigits, Nat.repr_eq_ofList_toDigits] at h
  have digits := congrArg String.toList h
  rw [String.toList_ofList, String.toList_ofList] at digits
  rw [← Nat.ofDigitChars_ten_toDigits (n := a), digits, Nat.ofDigitChars_ten_toDigits]

namespace Placed

variable {p : Placed} {n n' : NodeId} {code : List Asm}

/-- The labels that the code of a node defines. -/
def nodeLabels (p : Placed) (n : NodeId) : List String :=
  match p.graph.kind n with
  | .compare _ => [(p.compareLabels n).1, (p.compareLabels n).2]
  | _ => []

theorem compareLabels_inj (h : (p.compareLabels n).1 = (p.compareLabels n').1
    ∨ (p.compareLabels n).2 = (p.compareLabels n').2) : n = n' := by
  rcases h with h | h <;>
    exact toString_injective ((String.append_right_inj _).1 ((String.append_left_inj _).1 h))

/-- The two labels of comparisons differ in their last letter. -/
theorem compareLabels_fst_ne_snd : (p.compareLabels n).1 ≠ (p.compareLabels n').2 := by
  have yes : ∀ s : String, (s ++ "_true").toList.getLast? = some 'e' := fun s => by
    rw [String.toList_append, getLast?_append]
    rfl
  have done : ∀ s : String, (s ++ "_end").toList.getLast? = some 'd' := fun s => by
    rw [String.toList_append, getLast?_append]
    rfl
  intro h
  have := congrArg (fun s : String => s.toList.getLast?) h
  exact absurd ((yes _).symm.trans (this.trans (done _))) (by decide)

/-- **What the code of an item looks like**, and where the values it works on are
kept. -/
inductive Writes (p : Placed) (s : Schedule) : Item → List Asm → Prop
  | constInt {n : NodeId} {value : Word} {target : Location}
      (hkind : p.graph.kind n = .constInt value) (htarget : p.location n = .ok target) :
      Writes p s (.node n) ((Instr.const value.toInt target).map .instr)
  | constBool {n : NodeId} {value : Bool} {target : Location}
      (hkind : p.graph.kind n = .constBool value) (htarget : p.location n = .ok target) :
      Writes p s (.node n) ((Instr.const (if value then 1 else 0) target).map .instr)
  | undefined {n : NodeId} {target : Location} (hkind : p.graph.kind n = .undefined)
      (htarget : p.location n = .ok target) :
      Writes p s (.node n) ((Instr.const 0 target).map .instr)
  | binary {n : NodeId} {op : BinOp} {lhs rhs target : Location}
      (hkind : p.graph.kind n = .binary op) (htarget : p.location n = .ok target)
      (hlhs : p.operandLocation n 0 = .ok lhs) (hrhs : p.operandLocation n 1 = .ok rhs) :
      Writes p s (.node n) ((Instr.binary op lhs rhs target).map .instr)
  | compare {n : NodeId} {op : CmpOp} {lhs rhs target : Location}
      (hkind : p.graph.kind n = .compare op) (htarget : p.location n = .ok target)
      (hlhs : p.operandLocation n 0 = .ok lhs) (hrhs : p.operandLocation n 1 = .ok rhs) :
      Writes p s (.node n) ((Instr.load rhs).1.map .instr
        ++ p.comparison n op lhs (Instr.load rhs).2 target)
  | jump {n block : NodeId} (hkind : p.graph.kind n = .jump block) :
      Writes p s (.node n) ([.jmp (p.graph.label block)].map .instr)
  | condJump {n ifTrue ifFalse : NodeId} {place : Location}
      (hkind : p.graph.kind n = .condJump ifTrue ifFalse)
      (hplace : p.operandLocation n 0 = .ok place) :
      Writes p s (.node n) ([.cmpl (.imm 0) place, .jcc .notEqual (p.graph.label ifTrue),
        .jmp (p.graph.label ifFalse)].map .instr)
  | ret {n : NodeId} {place : Location} (hkind : p.graph.kind n = .ret)
      (hplace : p.operandLocation n 1 = .ok place) :
      Writes p s (.node n) ((Instr.copy place (.reg .rax) ++ Instr.epilogue).map .instr)
  | phiMoves {target : NodeId} {edge : Nat} (moves : List (Location × Location))
      (hmoves : ∀ m ∈ moves,
        m.2 = Instr.destScratch ∨ ∃ phi ∈ s.valuePhis target, p.location phi = .ok m.2) :
      Writes p s (.phiMoves target edge) ((moves.flatMap fun m => Instr.copy m.1 m.2).map .instr)

theorem ofExcept_eq_ok {r : Except Failure (List Instr)} (h : Piece.ofExcept r = .ok code) :
    ∃ instrs, r = .ok instrs ∧ code = instrs.map .instr := by
  cases r with
  | error e => cases h
  | ok instrs => exact ⟨instrs, rfl, (Except.ok.inj h).symm⟩

theorem exists_const {value : Int}
    (h : Piece.ofExcept (do let target ← p.location n; pure (Instr.const value target)) = .ok code) :
    ∃ target, p.location n = .ok target ∧ code = (Instr.const value target).map .instr := by
  obtain ⟨instrs, hr, rfl⟩ := ofExcept_eq_ok h
  obtain ⟨target, ht, he⟩ := bind_eq_ok.1 hr
  obtain rfl := pure_eq_ok.1 he
  exact ⟨target, ht, rfl⟩

theorem exists_binary {op : BinOp} (h : p.binary n op = .ok instrs) :
    ∃ lhs rhs target, p.operandLocation n 0 = .ok lhs ∧ p.operandLocation n 1 = .ok rhs
      ∧ p.location n = .ok target ∧ instrs = Instr.binary op lhs rhs target := by
  obtain ⟨lhs, hlhs, h⟩ := bind_eq_ok.1 h
  obtain ⟨right, hr, h⟩ := bind_eq_ok.1 h
  obtain ⟨target, ht, h⟩ := bind_eq_ok.1 h
  obtain ⟨rhs, hrhs, he⟩ := bind_eq_ok.1 h
  exact ⟨lhs, rhs, target, hlhs, bind_eq_ok.2 ⟨right, hr, hrhs⟩, ht, (pure_eq_ok.1 he).symm⟩

theorem exists_comparison {op : CmpOp} (h : p.compare n op = .ok code) :
    ∃ lhs rhs target, p.operandLocation n 0 = .ok lhs ∧ p.operandLocation n 1 = .ok rhs
      ∧ p.location n = .ok target ∧ code = (Instr.load rhs).1.map .instr
        ++ p.comparison n op lhs (Instr.load rhs).2 target := by
  unfold compare at h
  cases hl : p.operandLocation n 0 with
  | error e => cases hl ▸ h
  | ok lhs =>
    cases hr : p.operandLocation n 1 with
    | error e => cases hr ▸ hl ▸ h
    | ok rhs =>
      cases ht : p.location n with
      | error e => cases ht ▸ hr ▸ hl ▸ h
      | ok target =>
        rw [hl, hr, ht] at h
        exact ⟨lhs, rhs, target, rfl, rfl, rfl, (Except.ok.inj h).symm⟩

theorem exists_phiMoves {phis : List NodeId} {edge : Nat} (h : p.phiMoves phis edge = .ok instrs) :
    ∃ moves : List (Location × Location), instrs = moves.flatMap (fun m => Instr.copy m.1 m.2)
      ∧ ∀ m ∈ moves, m.2 = Instr.destScratch ∨ ∃ phi ∈ phis, p.location phi = .ok m.2 := by
  obtain ⟨moves, hmoves, h⟩ := bind_eq_ok.1 h
  obtain ⟨ordered, ho, he⟩ := bind_eq_ok.1 h
  refine ⟨_, (pure_eq_ok.1 he).symm, fun m hm => ?_⟩
  refine (ParallelMove.snd_mem_sequentialize (Failure.require_eq_ok.1 ho) m hm).imp_right
    fun hmem => ?_
  obtain ⟨move, hmove, he⟩ := mem_map.1 hmem
  obtain ⟨phi, hphi, hr⟩ := exists_mem_of_mem_right (mapM_eq_ok.1 hmoves) hmove
  obtain ⟨source, -, hr⟩ := bind_eq_ok.1 hr
  obtain ⟨destination, hd, hr⟩ := bind_eq_ok.1 hr
  obtain rfl := pure_eq_ok.1 hr
  exact ⟨phi, hphi, he ▸ hd⟩

/-- **What emission of an item comes to.** -/
theorem writes_of_item (h : p.item s item = .ok code) : p.Writes s item code := by
  cases item with
  | phiMoves target edge =>
    obtain ⟨instrs, hr, rfl⟩ := ofExcept_eq_ok h
    obtain ⟨moves, rfl, hm⟩ := exists_phiMoves hr
    exact .phiMoves moves hm
  | node n =>
    have h : p.node n = .ok code := h
    unfold node at h
    cases hk : p.graph.kind n <;> rw [hk] at h
    case constInt =>
      obtain ⟨target, ht, rfl⟩ := exists_const h
      exact .constInt hk ht
    case constBool =>
      obtain ⟨target, ht, rfl⟩ := exists_const h
      exact .constBool hk ht
    case undefined =>
      obtain ⟨target, ht, rfl⟩ := exists_const h
      exact .undefined hk ht
    case binary op =>
      obtain ⟨instrs, hr, rfl⟩ := ofExcept_eq_ok h
      obtain ⟨lhs, rhs, target, hl, hrhs, ht, rfl⟩ := exists_binary hr
      exact .binary hk ht hl hrhs
    case compare op =>
      obtain ⟨lhs, rhs, target, hl, hrhs, ht, rfl⟩ := exists_comparison h
      exact .compare hk ht hl hrhs
    case jump =>
      cases h
      exact .jump hk
    case condJump =>
      obtain ⟨instrs, hr, rfl⟩ := ofExcept_eq_ok h
      obtain ⟨place, hp, he⟩ := bind_eq_ok.1 hr
      obtain rfl := pure_eq_ok.1 he
      exact .condJump hk hp
    case ret =>
      obtain ⟨instrs, hr, rfl⟩ := ofExcept_eq_ok h
      obtain ⟨place, hp, he⟩ := bind_eq_ok.1 hr
      obtain rfl := pure_eq_ok.1 he
      exact .ret hk hp
    all_goals cases h

/-- **The labels of an item's code** are those of a comparison. -/
theorem labels_item (h : p.item s item = .ok code) :
    Asm.labels code = item.node?.toList.flatMap p.nodeLabels := by
  cases writes_of_item h with
  | compare hk =>
    rw [labels_append, labels_map_instr]
    simp only [Item.node?, Option.toList_some, flatMap_singleton, nodeLabels, hk]
    rfl
  | phiMoves moves => exact labels_map_instr _
  | constInt hk | constBool hk | undefined hk | binary hk | jump hk | condJump hk
  | ret hk =>
    rw [labels_map_instr]
    simp [Item.node?, nodeLabels, hk]

/-- **Different nodes have different labels.** -/
theorem nodup_flatMap_nodeLabels {nodes : List NodeId} (h : nodes.Nodup) :
    (nodes.flatMap p.nodeLabels).Nodup := by
  refine nodup_flatMap.2 ⟨fun n _ => ?_, h.imp fun {n n'} hne label hn hn' => ?_⟩
  · unfold nodeLabels
    split
    · simpa using compareLabels_fst_ne_snd
    · exact nodup_nil
  · unfold nodeLabels at hn hn'
    split at hn
    · split at hn'
      · simp only [mem_cons, not_mem_nil, or_false] at hn hn'
        rcases hn with rfl | rfl <;> rcases hn' with h | h
        · exact hne (compareLabels_inj (.inl h))
        · exact compareLabels_fst_ne_snd h
        · exact compareLabels_fst_ne_snd h.symm
        · exact hne (compareLabels_inj (.inr h))
      · exact not_mem_nil hn'
    · exact not_mem_nil hn

end Placed

theorem Piece.join_map_ok {α : Type} {l : List α} {piece : α → Piece} {code : α → List Asm}
    (h : ∀ x ∈ l, piece x = .ok (code x)) :
    Piece.join (l.map piece) = .ok (l.flatMap code) := by
  induction l with
  | nil => rfl
  | cons x rest ih =>
    obtain ⟨hx, hr⟩ := forall_mem_cons.1 h
    rw [map_cons, hx, join, ih hr]
    rfl

/-! ## The code of items, blocks and functions -/

namespace Placed

variable (p : Placed) (s : Schedule)

/-- The code of an item. -/
def itemCode (item : Item) : List Asm :=
  match p.item s item with
  | .ok code => code
  | .error _ => []

/-- The label in front of a block. -/
def blockLabel (b : ScheduledBlock) : List Asm :=
  if b.block = Graph.startBlock then [] else [.label (p.graph.label b.block)]

/-- The code of a block. -/
def blockCode (b : ScheduledBlock) : List Asm :=
  p.blockLabel b ++ b.items.flatMap (p.itemCode s)

/-- The code of some blocks from one of their items on. -/
def codeFromIn : List ScheduledBlock → Nat → List Asm
  | [], _ => []
  | b :: rest, i =>
    if i < b.items.length then
      (b.items.drop i).flatMap (p.itemCode s) ++ rest.flatMap (p.blockCode s)
    else codeFromIn rest (i - b.items.length)

/-- **The code of a function from one of its lines on**: the code of the
line's item, and all that follows it. -/
def codeFrom (i : Nat) : List Asm :=
  p.codeFromIn s s.blocks i

variable {s} in
/-- **A function is emitted if all its items are.** -/
theorem function_of_items (h : ∀ item ∈ s.items, p.item s item = .ok (p.itemCode s item)) :
    p.function s = .ok (header p.graph.name ++ p.prologue ++ s.blocks.flatMap (p.blockCode s)) := by
  have block : ∀ b ∈ s.blocks, p.block s b = .ok (p.blockCode s b) := by
    intro b hb
    have items := Piece.join_map_ok fun item hi => h item (mem_flatMap.2 ⟨b, hb, hi⟩)
    unfold Placed.block
    rw [items]
    rfl
  unfold Placed.function
  rw [Piece.join_map_ok block]
  rfl

end Placed

namespace Allocated

variable (a : Allocated)

/-- **The code of the function.** -/
def code : List Asm :=
  Placed.header a.graph.name ++ a.placed.prologue
    ++ a.schedule.blocks.flatMap (a.placed.blockCode a.schedule)

variable {a} {i : Nat}

theorem size_lines : a.lines.size = a.schedule.items.length := (Line.ofSchedule_eq_ok a.lines_eq).1

theorem line_eq (hi : i < a.schedule.items.length) :
    a.context.line a.schedule.items[i] (i + 1) = .ok (lineAt a.lines i) :=
  (Line.ofSchedule_eq_ok a.lines_eq).2 i hi

/-- **Every item is emitted**, and its code does what its line does. -/
theorem item_eq (hi : i < a.schedule.items.length) : a.placed.item a.schedule a.schedule.items[i]
        = .ok (a.placed.itemCode a.schedule a.schedule.items[i])
      ∧ a.Realizes i (a.placed.itemCode a.schedule a.schedule.items[i]) := by
  obtain ⟨code, hc, realizes⟩ :=
    item_realizes (size_lines (a := a) ▸ hi) (getElem_mem hi) (line_eq hi)
  have : a.placed.itemCode a.schedule a.schedule.items[i] = code := by rw [Placed.itemCode, hc]
  exact this ▸ ⟨hc, realizes⟩

theorem item_eq_of_mem (h : item ∈ a.schedule.items) :
    a.placed.item a.schedule item = .ok (a.placed.itemCode a.schedule item) := by
  obtain ⟨i, hi, rfl⟩ := getElem_of_mem h
  exact (item_eq hi).1

/-- Emission succeeds. -/
theorem function_eq (a : Allocated) : a.placed.function a.schedule = .ok a.code :=
  a.placed.function_of_items fun _ hi => item_eq_of_mem hi

/-! ## Labels of the function -/

theorem mem_labels_blockLabel {name : String} (h : name ∈ Asm.labels (a.placed.blockLabel b)) :
    name = a.graph.label b.block := by
  unfold Placed.blockLabel at h
  split at h
  · cases h
  · exact mem_singleton.1 h

theorem labels_items (a : Allocated) :
    (a.schedule.blocks.flatMap fun b => Asm.labels (b.items.flatMap (a.placed.itemCode a.schedule)))
      = (a.schedule.items.filterMap Item.node?).flatMap a.placed.nodeLabels := by
  have one : ∀ b ∈ a.schedule.blocks, Asm.labels (b.items.flatMap (a.placed.itemCode a.schedule))
      = b.items.flatMap fun item => item.node?.toList.flatMap a.placed.nodeLabels := by
    intro b hb
    rw [labels_flatMap]
    refine flatMap_congr fun item hi => ?_
    exact Placed.labels_item (item_eq_of_mem (mem_flatMap.2 ⟨b, hb, hi⟩))
  calc (a.schedule.blocks.flatMap fun b =>
          Asm.labels (b.items.flatMap (a.placed.itemCode a.schedule)))
      = a.schedule.blocks.flatMap fun b => b.items.flatMap fun item =>
          item.node?.toList.flatMap a.placed.nodeLabels := flatMap_congr one
    _ = a.schedule.items.flatMap fun item => item.node?.toList.flatMap a.placed.nodeLabels := by
        rw [Schedule.items, flatMap_assoc]
    _ = (a.schedule.items.filterMap Item.node?).flatMap a.placed.nodeLabels := by
        rw [filterMap_eq_flatMap_toList, flatMap_assoc]

/-- **No label is defined twice.** -/
theorem nodup_labels (a : Allocated) : (Asm.labels a.code).Nodup := by
  obtain ⟨ends, built⟩ := a.built
  have front : Asm.labels (Placed.header a.graph.name ++ a.placed.prologue) = [] := by
    rw [labels_append, Placed.prologue, labels_map_instr]
    rfl
  have layout : ∀ b ∈ a.schedule.blocks, b.block ∈ a.graph.layout := fun b hb =>
    built.map_block ▸ mem_map_of_mem hb
  have perm := flatMap_append_perm a.schedule.blocks
    (fun b => Asm.labels (a.placed.blockLabel b))
    (fun b => Asm.labels (b.items.flatMap (a.placed.itemCode a.schedule)))
  rw [code, labels_append, front, nil_append, labels_flatMap]
  simp only [Placed.blockCode, labels_append]
  rw [← perm.nodup_iff, labels_items, nodup_append]
  refine ⟨nodup_flatMap.2 ⟨fun b _ => ?_, ?_⟩,
    Placed.nodup_flatMap_nodeLabels built.nodup_nodes, fun name hname name' hname' => ?_⟩
  · unfold Placed.blockLabel
    split
    · exact nodup_nil
    · exact nodup_singleton _
  · -- the labels of two blocks
    refine List.Pairwise.imp_of_mem ?_ (pairwise_map.1 built.nodup_map_block)
    intro b b' hb hb' hne name hl hl'
    exact hne (a.label_inj (layout b hb) (layout b' hb')
      ((mem_labels_blockLabel hl).symm.trans (mem_labels_blockLabel hl')))
  · -- the label of a block and that of a comparison
    rintro rfl
    obtain ⟨b, hb, hl⟩ := mem_flatMap.1 hname
    obtain ⟨n, -, hn⟩ := mem_flatMap.1 hname'
    obtain rfl := mem_labels_blockLabel hl
    unfold Placed.nodeLabels at hn
    split at hn
    case h_1 op hk =>
      have := a.label_ne (layout b hb) hk
      simp only [mem_cons, not_mem_nil, or_false] at hn
      exact hn.elim this.1 this.2
    case h_2 => exact not_mem_nil hn

/-! ## Where lines are -/

theorem codeFromIn_append (before after : List ScheduledBlock) {k : Nat} (hk : k < b.items.length) :
    a.placed.codeFromIn a.schedule (before ++ b :: after) ((before.flatMap (·.items)).length + k)
      = (b.items.drop k).flatMap (a.placed.itemCode a.schedule)
        ++ after.flatMap (a.placed.blockCode a.schedule) := by
  induction before with
  | nil => simp [Placed.codeFromIn, hk]
  | cons c before ih =>
    rw [cons_append, Placed.codeFromIn, flatMap_cons, length_append, if_neg (by omega)]
    rw [show c.items.length + (before.flatMap (·.items)).length + k - c.items.length
      = (before.flatMap (·.items)).length + k by omega]
    exact ih

/-- **Every line is in some block**, at some position. -/
theorem exists_position {blocks : List ScheduledBlock}
    (hi : i < (blocks.flatMap (·.items)).length) :
    ∃ (before : List ScheduledBlock) (b : ScheduledBlock) (after : List ScheduledBlock)
      (k : Nat) (hk : k < b.items.length), blocks = before ++ b :: after
      ∧ i = (before.flatMap (·.items)).length + k
      ∧ (blocks.flatMap (·.items))[i] = b.items[k] := by
  induction blocks generalizing i with
  | nil => simp at hi
  | cons c rest ih =>
    by_cases h : i < c.items.length
    · refine ⟨[], c, rest, i, h, rfl, by simp, ?_⟩
      simp [getElem_append_left h]
    · have hlen : (List.flatMap (·.items) (c :: rest)).length
          = c.items.length + (rest.flatMap (·.items)).length := by simp
      obtain ⟨before, b, after, k, hk, e, hi', get⟩ := ih (i := i - c.items.length) (by omega)
      refine ⟨c :: before, b, after, k, hk, by rw [e]; rfl, ?_, ?_⟩
      · rw [flatMap_cons, length_append]
        omega
      rw [← get]
      simp [getElem_append_right (not_lt.1 h)]

/-- **A jump to a block lands on its first line.** -/
theorem target_label {block : NodeId} {line : Nat} (hb : block ≠ Graph.startBlock)
    (h : a.context.target block = .ok line) :
    Asm.target a.code (a.graph.label block) = some (a.placed.codeFrom a.schedule line) := by
  obtain ⟨before, b, after, e, rfl, rfl⟩ := Line.lookup_starts (Line.Context.target_eq_ok.1 h)
  have e : a.schedule.blocks = before ++ b :: after := e
  obtain ⟨ends, built⟩ := a.built
  have nonempty : 0 < b.items.length := by
    obtain ⟨-, t, -, hi⟩ := built.of_mem_blocks (b := b) (by rw [e]; simp)
    rw [hi]
    simp
  have from_eq := codeFromIn_append (a := a) before after nonempty
  rw [Nat.add_zero] at from_eq
  refine target_eq a.nodup_labels ⟨Placed.header a.graph.name ++ a.placed.prologue
    ++ before.flatMap (a.placed.blockCode a.schedule), ?_⟩
  rw [Placed.codeFrom, code, e, Nat.zero_add, from_eq]
  simp [Placed.blockCode, Placed.blockLabel, hb, show a.placed.graph = a.graph from rfl]

end Allocated

end SsaCompiler
