import SsaCompiler.Proofs.Compile
import SsaCompiler.Proofs.Program.Regular

/-!
# Labels of a program

The code of a function defines a label for every block but the first and two for
every comparison, and it jumps to no others (`Function.exists_names`). The
labels of a function are told apart by what they name, and those of two functions
by the names of the functions. So **a label is defined once in a program, in the
function that jumps to it** (`Compile.labels_unique_and_resolved`).
-/

namespace SsaCompiler

open List SsaCompiler.Except Placed
open Graph (startBlock endBlock)

variable {α : Type} {code : List Asm} {g : Graph} {registers : List Register} {p : Program}
  {codes : List (List Asm)}

/-! ## Where code jumps to -/

/-- The label that an instruction jumps to. -/
def Instr.target? : Instr → Option String
  | jmp label | jcc _ label => some label
  | _ => none

namespace Asm

/-- The label that a line of assembly jumps to. -/
def target? : Asm → Option String
  | instr i => i.target?
  | _ => none

/-- **The labels that code jumps to**, in order. -/
def jumps (code : List Asm) : List String :=
  code.filterMap target?

theorem jumps_append (a b : List Asm) : jumps (a ++ b) = jumps a ++ jumps b := filterMap_append

theorem jumps_flatMap (l : List α) (f : α → List Asm) :
    jumps (l.flatMap f) = l.flatMap fun x => jumps (f x) := by
  induction l with
  | nil => rfl
  | cons x l ih => rw [flatMap_cons, jumps_append, ih, flatMap_cons]

theorem jumps_map_instr (code : List Instr) :
    jumps (code.map .instr) = code.filterMap Instr.target? := by
  unfold jumps
  rw [filterMap_map]
  rfl

end Asm

namespace Instr

theorem target?_copy (src dst : Location) : (copy src dst).filterMap target? = [] := by
  unfold copy
  split
  · rfl
  · split <;> rfl

theorem target?_load (src : Location) : (load src).1.filterMap target? = [] := by
  unfold load
  split
  · exact target?_copy _ _
  · rfl

/-- **Operations do not jump.** -/
theorem target?_binary (op : BinOp) (lhs rhs target : Location) :
    (binary op lhs rhs target).filterMap target? = [] := by
  have ha : ∀ op, (arithmetic op lhs rhs target).filterMap target? = [] := fun op => by
    rw [arithmetic]
    simp only [filterMap_append, target?_load, target?_copy]
    rfl
  have hs : ∀ op, (shifting op lhs rhs target).filterMap target? = [] := fun op => by
    rw [shifting]
    simp only [filterMap_append, target?_copy]
    rfl
  have hd : ∀ result, (division result lhs rhs target).filterMap target? = [] := fun r => by
    rw [division]
    simp only [filterMap_append, target?_load, target?_copy]
    rfl
  rcases op with op | op <;> cases op <;>
    first | exact ha _ | exact hs _ | exact hd _

end Instr

namespace Placed

variable {p : Placed} {n : NodeId} {code : List Asm}

/-- The labels that the code of a node jumps to. -/
def nodeTargets (p : Placed) (n : NodeId) : List String :=
  p.nodeLabels n ++ (p.graph.targets n).map p.graph.label

/-- **Where the code of an item jumps to.** -/
theorem jumps_item {s : Schedule} {item : Item} (h : p.item s item = .ok code) :
    Asm.jumps code = item.node?.toList.flatMap p.nodeTargets := by
  cases writes_of_item h with
  | phiMoves moves =>
    rw [Asm.jumps_map_instr, filterMap_flatMap]
    exact flatMap_eq_nil_iff.2 fun m _ => Instr.target?_copy _ _
  | compare hk =>
    rw [Asm.jumps_append, Asm.jumps_map_instr, Instr.target?_load]
    simp only [Item.node?, Option.toList_some, flatMap_singleton, nodeTargets, nodeLabels,
      Graph.targets, hk]
    rfl
  | binary hk =>
    rw [Asm.jumps_map_instr, Instr.target?_binary]
    simp [Item.node?, nodeTargets, nodeLabels, Graph.targets, Kind.targets, hk]
  | ret hk =>
    rw [Asm.jumps_map_instr, filterMap_append, Instr.target?_copy]
    simp [Item.node?, nodeTargets, nodeLabels, Graph.targets, Kind.targets, hk, Instr.epilogue,
      Instr.target?]
  | constInt hk | constBool hk | undefined hk | jump hk | condJump hk =>
    simp only [Item.node?, Option.toList_some, flatMap_singleton, nodeTargets, nodeLabels,
      Graph.targets, hk]
    rfl

end Placed

/-! ## The code of a function -/

theorem Piece.join_eq_ok {l : List α} {piece : α → Piece}
    (h : Piece.join (l.map piece) = .ok code) : ∀ x ∈ l, ∃ c, piece x = .ok c := by
  induction l generalizing code with
  | nil => exact forall_mem_nil _
  | cons x rest ih =>
    rw [map_cons] at h
    cases hx : piece x with
    | error e =>
      rw [hx] at h
      cases h
    | ok c =>
      rw [hx] at h
      unfold join at h
      cases hr : Piece.join (rest.map piece) with
      | error e =>
        rw [hr] at h
        cases h
      | ok more => exact forall_mem_cons.2 ⟨⟨c, hx⟩, ih hr⟩

theorem Piece.after_eq_ok {whole : List Asm} {piece : Piece}
    (h : Piece.after code piece = .ok whole) : ∃ more, piece = .ok more ∧ whole = code ++ more := by
  cases piece with
  | error e => cases h
  | ok more => exact ⟨more, rfl, (Except.ok.inj h).symm⟩

namespace Placed

variable {p : Placed} {s : Schedule} {code : List Asm}

/-- **Code that was emitted** is that of the items, block by block. -/
theorem function_eq_ok (h : p.function s = .ok code) :
    (∀ item ∈ s.items, p.item s item = .ok (p.itemCode s item)) ∧
      code = header p.graph.name ++ p.prologue ++ s.blocks.flatMap (p.blockCode s) := by
  obtain ⟨more, hm, rfl⟩ := Piece.after_eq_ok h
  have hitems : ∀ b ∈ s.blocks, ∀ item ∈ b.items, p.item s item = .ok (p.itemCode s item) := by
    intro b hb item hi
    obtain ⟨c, hc⟩ := Piece.join_eq_ok hm b hb
    obtain ⟨d, hd, -⟩ := Piece.after_eq_ok hc
    obtain ⟨e, he⟩ := Piece.join_eq_ok hd item hi
    rw [itemCode, he]
  have hblocks : ∀ b ∈ s.blocks, p.block s b = .ok (p.blockCode s b) := fun b hb => by
    unfold block
    rw [Piece.join_map_ok (hitems b hb)]
    rfl
  refine ⟨fun item hi => ?_, ?_⟩
  · obtain ⟨b, hb, hmem⟩ := mem_flatMap.1 hi
    exact hitems b hb item hmem
  · rw [Piece.join_map_ok hblocks] at hm
    rw [Except.ok.inj hm]

theorem labels_front (p : Placed) : Asm.labels (header p.graph.name ++ p.prologue) = [] := by
  rw [Asm.labels_append, prologue, Asm.labels_map_instr]
  rfl

theorem jumps_front (p : Placed) : Asm.jumps (header p.graph.name ++ p.prologue) = [] := by
  rw [Asm.jumps_append, prologue]
  by_cases hf : p.allocation.frameSize = 0
  · simp only [hf]
    rfl
  · simp only [hf]
    rfl

theorem jumps_blockLabel (p : Placed) (b : ScheduledBlock) : Asm.jumps (p.blockLabel b) = [] := by
  unfold blockLabel
  split <;> rfl

theorem flatMap_node? (s : Schedule) (f : NodeId → List String) :
    (s.blocks.flatMap fun b => b.items.flatMap fun item => item.node?.toList.flatMap f)
      = (s.items.filterMap Item.node?).flatMap f := by
  rw [filterMap_eq_flatMap_toList, flatMap_assoc, Schedule.items, flatMap_assoc]

/-- **The labels of emitted code** are those of the blocks and of the
comparisons. -/
theorem labels_function (h : p.function s = .ok code) :
    (Asm.labels code).Perm ((s.blocks.flatMap fun b => Asm.labels (p.blockLabel b))
      ++ (s.items.filterMap Item.node?).flatMap p.nodeLabels) := by
  obtain ⟨hi, rfl⟩ := function_eq_ok h
  have hone : ∀ b ∈ s.blocks, Asm.labels (p.blockCode s b)
      = Asm.labels (p.blockLabel b)
        ++ b.items.flatMap fun item => item.node?.toList.flatMap p.nodeLabels := fun b hb => by
    rw [blockCode, Asm.labels_append, Asm.labels_flatMap]
    exact congrArg _ (flatMap_congr fun item hitem =>
      labels_item (hi item (mem_flatMap.2 ⟨b, hb, hitem⟩)))
  rw [Asm.labels_append, labels_front, Asm.labels_flatMap, flatMap_congr hone, ← flatMap_node?]
  exact (flatMap_append_perm _ _ _).symm

/-- **Emitted code jumps** to where its nodes do. -/
theorem jumps_function (h : p.function s = .ok code) :
    Asm.jumps code = (s.items.filterMap Item.node?).flatMap p.nodeTargets := by
  obtain ⟨hi, rfl⟩ := function_eq_ok h
  have hone : ∀ b ∈ s.blocks, Asm.jumps (p.blockCode s b)
      = b.items.flatMap fun item => item.node?.toList.flatMap p.nodeTargets := fun b hb => by
    rw [blockCode, Asm.jumps_append, jumps_blockLabel, Asm.jumps_flatMap]
    exact flatMap_congr fun item hitem =>
      jumps_item (hi item (mem_flatMap.2 ⟨b, hb, hitem⟩))
  rw [Asm.jumps_append, jumps_front, nil_append, Asm.jumps_flatMap,
    flatMap_congr hone, ← flatMap_node?]

end Placed

/-! ## The labels of a function by name -/

/-- The names of the labels of a node. -/
def Graph.nodeNames (g : Graph) (n : NodeId) : List LocalName :=
  match g.kind n with
  | .compare _ => [.yes n, .done n]
  | _ => []

/-- **The names of the labels of a schedule**, when blocks are named. -/
def Schedule.localNames (g : Graph) (names : NodeId → LocalName) (s : Schedule) : List LocalName :=
  ((s.blocks.map (·.block)).filter (· != startBlock)).map names
    ++ (s.items.filterMap Item.node?).flatMap g.nodeNames

section Names

variable {p : Placed} {s : Schedule} {ends : List NodeId} {code : List Asm}
  {names : NodeId → LocalName}

theorem Placed.nodeLabels_eq (p : Placed) (n : NodeId) :
    p.nodeLabels n = (p.graph.nodeNames n).map (·.text p.graph.name) := by
  unfold Placed.nodeLabels Graph.nodeNames
  generalize p.graph.kind n = kind
  cases kind <;> rfl

theorem Graph.Labelled.label_eq (h : g.Labelled names) (hg : g.Regular) {b : NodeId}
    (hb : (g.kind b).isBlock) : g.label b = (names b).text g.name := by
  unfold Graph.label
  rw [hg.self b hb, h.kind b hb]

theorem Schedule.Built.isBlock (hs : s.Built g ends) (hg : g.Regular) {b : ScheduledBlock}
    (hb : b ∈ s.blocks) :
    b.block ∈ g.layout ∧ (g.kind b.block).isBlock ∧ b.block ≠ endBlock := by
  have hm : b.block ∈ g.layout := hs.map_block ▸ mem_map_of_mem hb
  obtain ⟨hblock, -, hend⟩ := hg.reaches_of_mem_layout hm
  exact ⟨hm, hblock, hend⟩

/-- **The labels of a function** are the texts of its local names. -/
theorem Placed.labels_perm (hs : s.Built p.graph ends) (hg : p.graph.Regular)
    (hn : p.graph.Labelled names) (h : p.function s = .ok code) :
    (Asm.labels code).Perm ((s.localNames p.graph names).map (·.text p.graph.name)) := by
  refine (labels_function h).trans ?_
  have hblocks : ∀ b ∈ s.blocks, Asm.labels (p.blockLabel b)
      = if b.block = startBlock then [] else [(names b.block).text p.graph.name] := by
    intro b hb
    unfold Placed.blockLabel
    split
    · rfl
    · rw [← hn.label_eq hg (hs.isBlock hg hb).2.1]
      rfl
  have hf : ∀ blocks : List ScheduledBlock, (blocks.flatMap fun b =>
      if b.block = startBlock then [] else [(names b.block).text p.graph.name])
        = (((blocks.map (·.block)).filter (· != startBlock)).map names).map
          (·.text p.graph.name) := by
    intro blocks
    induction blocks with
    | nil => rfl
    | cons b rest ih =>
      rw [flatMap_cons, ih]
      by_cases hb : b.block = startBlock <;> simp [hb]
  rw [flatMap_congr hblocks, hf, Schedule.localNames, map_append, map_flatMap]
  exact .of_eq (congrArg _ (flatMap_congr fun n _ => p.nodeLabels_eq n))

/-- A comparison is named by its node, in two ways. -/
theorem Graph.nodup_nodeNames {nodes : List NodeId} (h : nodes.Nodup) :
    (nodes.flatMap g.nodeNames).Nodup := by
  have hof : ∀ {n l}, l ∈ g.nodeNames n → l = .yes n ∨ l = .done n := fun {n l} hl => by
    unfold Graph.nodeNames at hl
    split at hl
    · simpa using hl
    · cases hl
  refine nodup_flatMap.2 ⟨fun n _ => ?_, h.imp fun {n n'} hne l hl hl' => ?_⟩
  · unfold Graph.nodeNames
    split
    · simp
    · exact nodup_nil
  · rcases hof hl with rfl | rfl <;> rcases hof hl' with he | he <;> cases he <;> exact hne rfl

/-- **No name is given twice**, and all of them are known. -/
theorem Schedule.Built.nodup_localNames (hs : s.Built g ends) (hg : g.Regular)
    (hn : g.Labelled names) :
    (s.localNames g names).Nodup ∧ ∀ l ∈ s.localNames g names, l.Known := by
  have hblock : ∀ {b}, b ∈ (s.blocks.map (·.block)).filter (· != startBlock) →
      (g.kind b).isBlock = true ∧ b ≠ endBlock := fun {b} hb => by
    obtain ⟨b', hb', rfl⟩ := mem_map.1 (mem_filter.1 hb).1
    exact (hs.isBlock hg hb').2
  have hnode : ∀ {l}, l ∈ (s.items.filterMap Item.node?).flatMap g.nodeNames →
      ∃ n, l = .yes n ∨ l = .done n := fun {l} hl => by
    obtain ⟨n, -, hl⟩ := mem_flatMap.1 hl
    unfold Graph.nodeNames at hl
    split at hl
    · exact ⟨n, by simpa using hl⟩
    · cases hl
  refine ⟨nodup_append.2 ⟨?_, Graph.nodup_nodeNames hs.nodup_nodes, ?_⟩, fun l hl => ?_⟩
  · refine (hs.nodup_map_block.filter _).map_on fun b hb b' hb' he => ?_
    exact hn.inj b b' (hblock hb).1 (hblock hb').1 he
  · -- the name of a block is that of no comparison
    rintro l hl l' hl' rfl
    obtain ⟨b, hb, rfl⟩ := mem_map.1 hl
    obtain ⟨role, earlier, hname, -⟩ := hn.counted b (hblock hb).1
    obtain ⟨n, he | he⟩ := hnode hl' <;> cases hname.symm.trans he
  · rcases mem_append.1 hl with hl | hl
    · obtain ⟨b, hb, rfl⟩ := mem_map.1 hl
      exact hn.known b (hblock hb).1 (hblock hb).2
    · obtain ⟨n, rfl | rfl⟩ := hnode hl <;> trivial

/-- **A jump goes to a label of the function.** -/
theorem Placed.mem_labels_of_mem_jumps (hs : s.Built p.graph ends) (hg : p.graph.Regular)
    (h : p.function s = .ok code) {label : String} (hm : label ∈ Asm.jumps code) :
    label ∈ Asm.labels code := by
  rw [jumps_function h] at hm
  obtain ⟨n, hn, hm⟩ := mem_flatMap.1 hm
  refine (labels_function h).mem_iff.2 (mem_append.2 ?_)
  rcases mem_append.1 hm with hm | hm
  · exact .inr (mem_flatMap.2 ⟨n, hn, hm⟩)
  · -- only the end of a block goes to other blocks
    obtain ⟨target, ht, rfl⟩ := mem_map.1 hm
    obtain ⟨item, hi, hn⟩ := mem_filterMap.1 hn
    obtain ⟨b, hb, hi⟩ := mem_flatMap.1 hi
    have hterm : (p.graph.kind n).isTerminator = true := by
      unfold Graph.targets at ht
      generalize p.graph.kind n = k at ht
      cases k <;> first | rfl | cases ht
    have hof := hs.blockOf_of_mem_items hb (mem_filterMap.2 ⟨item, hi, hn⟩)
    have hl := hg.mem_layout_of_target hterm (hof ▸ (hs.isBlock hg hb).1) ht
    have hstart := hg.ne_startBlock hterm (Kind.mem_exits_of_mem_targets ht)
    rw [← hs.map_block] at hl
    obtain ⟨b', hb', rfl⟩ := mem_map.1 hl
    refine .inl (mem_flatMap.2 ⟨b', hb', ?_⟩)
    rw [Placed.blockLabel, if_neg hstart]
    exact .head _

end Names

/-- **The labels of a function** are those of local names, each given once, and
the function jumps to no others. -/
theorem Function.exists_names {f : Function} (h : f.code registers = .ok code) :
    (∃ names : List LocalName, (Asm.labels code).Perm (names.map (·.text f.name)) ∧ names.Nodup ∧
        ∀ l ∈ names, l.Known) ∧
      ∀ label ∈ Asm.jumps code, label ∈ Asm.labels code := by
  obtain ⟨st, flow, r, hr⟩ := f.exists_translated
  obtain ⟨r', hr', h⟩ := bind_eq_ok.1 h
  cases hr.toGraph.symm.trans (mapError_eq_ok.1 hr')
  obtain ⟨s, hs, h⟩ := bind_eq_ok.1 h
  obtain ⟨numbering, -, h⟩ := bind_eq_ok.1 h
  obtain ⟨lines, -, h⟩ := bind_eq_ok.1 h
  have h := mapError_eq_ok.1 h
  obtain ⟨ends, hs⟩ := Schedule.build_eq_ok (mapError_eq_ok.1 hs)
  obtain ⟨names, hn⟩ := hr.labelled
  have hp := labels_perm hs hr.regular hn h
  rw [hr.name_eq] at hp
  obtain ⟨hnodup, hk⟩ := hs.nodup_localNames hr.regular hn
  exact ⟨⟨_, hp, hnodup, hk⟩, fun label => mem_labels_of_mem_jumps hs hr.regular h⟩

/-! ## Programs -/

theorem localLabel_injective : Function.Injective localLabel :=
  fun _ _ h => (String.append_right_inj _).1 h

namespace Compile

theorem exists_function
    (h : List.Forall₂ (fun f code => Function.code registers f = .ok code) p codes)
    (hc : code ∈ codes) : ∃ f ∈ p, f.code registers = .ok code := by
  induction h with
  | nil => cases hc
  | cons hf _ ih =>
    rcases mem_cons.1 hc with rfl | hc
    · exact ⟨_, .head _, hf⟩
    · obtain ⟨f, hmem, hf⟩ := ih hc
      exact ⟨f, .tail _ hmem, hf⟩

/-- **Functions with different names share no label**, and no function defines
one twice. -/
theorem nodup_labels (hp : (p.map (·.name)).Nodup)
    (h : List.Forall₂ (fun f code => Function.code registers f = .ok code) p codes) :
    (codes.flatMap Asm.labels).Nodup := by
  induction h with
  | nil => exact nodup_nil
  | @cons f code p codes hcode hc ih =>
    rw [map_cons, nodup_cons] at hp
    obtain ⟨⟨names, hperm, hn, hk⟩, -⟩ := Function.exists_names hcode
    refine nodup_append.2 ⟨hperm.nodup_iff.2 ?_, ih hp.2, ?_⟩
    · exact hn.map_on fun l hl l' hl' he =>
        (LocalName.text_inj (hk l hl) (hk l' hl') he).2
    · rintro label hlabel label' hlabel' rfl
      obtain ⟨code', hcode', hlabel'⟩ := mem_flatMap.1 hlabel'
      obtain ⟨f', hf', hcode'⟩ := exists_function hc hcode'
      obtain ⟨⟨names', hperm', -, hk'⟩, -⟩ := Function.exists_names hcode'
      obtain ⟨l, hl, rfl⟩ := mem_map.1 (hperm.mem_iff.1 hlabel)
      obtain ⟨l', hl', he⟩ := mem_map.1 (hperm'.mem_iff.1 hlabel')
      have hname := (LocalName.text_inj (hk' l' hl') (hk l hl) he).1
      exact hp.1 (mem_map.2 ⟨f', hf', hname⟩)

/-- **The local labels of a program are unique, and every jump finds its
label.** When the functions of a program have different names and the program is
compiled, its text is made of the codes of the functions; no two definitions of
local labels in it have the same text; and the label of a jump is defined in the
function that jumps, and nowhere else in the program. -/
theorem labels_unique_and_resolved {o : Options} {p : Program} {s s' : Session} {text : String}
    (hp : (p.map (·.name)).Nodup) (h : runIn s (program o p) = (.ok text, s')) :
    ∃ codes, List.Forall₂ (fun f code => Function.code o.registers f = .ok code) p codes ∧
      text = ".text\n" ++ String.join (codes.map fun code => "\n" ++ Asm.render code) ∧
      ((codes.flatMap Asm.labels).map localLabel).Nodup ∧
      ∀ code ∈ codes, ∀ label ∈ Asm.jumps code, label ∈ Asm.labels code ∧
        ((codes.flatMap Asm.labels).map localLabel).count (localLabel label) = 1 := by
  obtain ⟨codes, hcodes, htext⟩ := exists_codes h
  have hnodup := (nodup_labels hp hcodes).map localLabel_injective
  refine ⟨codes, hcodes, htext, hnodup, fun code hcode label hlabel => ?_⟩
  obtain ⟨f, -, hf⟩ := exists_function hcodes hcode
  have hdefined := (Function.exists_names hf).2 label hlabel
  exact ⟨hdefined, List.count_eq_one_of_mem hnodup
    (List.mem_map_of_mem (List.mem_flatMap.2 ⟨code, hcode, hdefined⟩))⟩

/-- A function that compares, and returns in both arms of a branch. -/
def branching (name : String) : Function :=
  ⟨name, .ifElse (.binary (.compare .less) (.var "x") (.int 1)) (.ret (.int 1)) (.ret (.int 2))⟩

theorem exists_runIn_eq {c : Compile α} {s : Session} (h : (runIn s c).1.toOption.isSome) :
    ∃ a s', runIn s c = (.ok a, s') := by
  obtain ⟨a, ha⟩ := Option.isSome_iff_exists.1 h
  exact ⟨a, (runIn s c).2, Prod.ext (toOption_eq_some.1 ha) rfl⟩

/-- The labels of two functions stay apart when the name of one is a label of the
other. -/
theorem branching_labels_resolved : ∃ (text : String) (s' : Session) (codes : List (List Asm)),
    runIn {} (program {} [branching "f", branching "f_then"]) = (.ok text, s') ∧
      text = ".text\n" ++ String.join (codes.map fun code => "\n" ++ Asm.render code) ∧
      ((codes.flatMap Asm.labels).map localLabel).Nodup ∧
      ∀ code ∈ codes, ∀ label ∈ Asm.jumps code, label ∈ Asm.labels code := by
  obtain ⟨text, s', hrun⟩ := exists_runIn_eq
    (by decide +kernel :
      (runIn {} (program {} [branching "f", branching "f_then"])).1.toOption.isSome = true)
  obtain ⟨codes, -, htext, hnodup, hjumps⟩ := labels_unique_and_resolved (by decide) hrun
  exact ⟨text, s', codes, hrun, htext, hnodup, fun code hcode label hlabel =>
    (hjumps code hcode label hlabel).1⟩

end Compile

end SsaCompiler
