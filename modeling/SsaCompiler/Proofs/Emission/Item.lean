import SsaCompiler.Proofs.Emission.Places
import SsaCompiler.Proofs.ParallelMove

/-!
# The code of one line

What the code of an item does when it is run, in a machine that holds the
registers live into the item's line. `Placed.Meets` is the specification:
the code **ends as the line ends**, with the registers live into the line
that follows in their places. Each kind of item has a lemma.

Where control goes is a parameter here: `landing j` is the code of line
`j`. A line in the middle of a block falls through, and the end of a block
jumps to a label.
-/

namespace SsaCompiler

open List SsaCompiler.Except Instr Placed Execution

open Liveness (lineAt)

variable {name : String} {w : Word} {op : CmpOp} {place : Location} {r d : VReg} {item : Item}

/-! ## Labels -/

namespace Asm

/-- The label that a line of assembly defines. -/
def label? : Asm → Option String
  | label name => some name
  | _ => none

/-- **The labels that code defines**, in order. -/
def labels (code : List Asm) : List String :=
  code.filterMap label?

theorem labels_append (a b : List Asm) : labels (a ++ b) = labels a ++ labels b := filterMap_append

theorem labels_flatMap {α : Type} (l : List α) (f : α → List Asm) :
    labels (l.flatMap f) = l.flatMap fun x => labels (f x) :=
  filterMap_flatMap

/-- Instructions define no label. -/
@[simp] theorem labels_map_instr (code : List Instr) : labels (code.map .instr) = [] := by
  rw [labels, filterMap_map]
  exact filterMap_eq_nil_iff.2 fun _ _ => rfl

/-- **A jump finds the label it names**, where no label is defined twice. -/
theorem target_eq {program rest : List Asm} (h : (labels program).Nodup)
    (hs : label name :: rest <:+ program) : target program name = some rest := by
  obtain ⟨front, rfl⟩ := hs
  have absent : label name ∉ front := by
    intro hm
    rw [labels_append, nodup_append] at h
    refine h.2.2 name ?_ name ?_ rfl
    · exact mem_filterMap.2 ⟨_, hm, rfl⟩
    · exact mem_filterMap.2 ⟨_, .head _, rfl⟩
  have all : ∀ x ∈ front, decide (x ≠ label name) = true := fun x hx =>
    decide_eq_true fun e => absent (e ▸ hx)
  have stop : (label name :: rest).dropWhile (· ≠ label name) = label name :: rest :=
    dropWhile_cons_of_neg (p := fun x => decide (x ≠ label name))
      fun h => of_decide_eq_true h rfl
  rw [target, dropWhile_append_of_pos all, stop]

end Asm

namespace Execution

variable {program rest code : List Asm} {m : Machine} {name : String} {condition : Condition}
  {flags : Flags}

theorem step_jmp (h : Asm.target program name = some rest) :
    step program ⟨m, .instr (.jmp name) :: code⟩ = some ⟨m, rest⟩ := by
  show (Asm.target program name).map _ = _
  rw [h]
  rfl

theorem step_jcc_taken (hf : m.flags = some flags) (hc : condition.holds flags)
    (h : Asm.target program name = some rest) :
    step program ⟨m, .instr (.jcc condition name) :: code⟩ = some ⟨m, rest⟩ := by
  unfold step
  simp only [hf, hc, h, if_true, Option.map_some]

theorem step_jcc_passed (hf : m.flags = some flags) (hc : condition.holds flags = false) :
    step program ⟨m, .instr (.jcc condition name) :: code⟩ = some ⟨m, code⟩ := by
  unfold step
  simp only [hf, hc, Bool.false_eq_true, if_false]

end Execution

/-! ## What is emitted for an item -/

namespace Placed

variable {p : Placed} {n : NodeId} {lhs rhs target : Location}

theorem node_of_constant (hk : (p.graph.kind n).constant? = some w)
    (hn : p.location n = .ok target) :
    ∃ v : Int, BitVec.ofInt 32 v = w
      ∧ p.node n = .ok ((Instr.const v target).map .instr) := by
  unfold node
  generalize p.graph.kind n = kind at hk
  cases kind with
  | constInt v =>
    obtain rfl := Option.some.inj hk
    exact ⟨v.toInt, BitVec.ofInt_toInt, by rw [hn]; rfl⟩
  | constBool b =>
    obtain rfl := Option.some.inj hk
    exact ⟨if b then 1 else 0, by cases b <;> decide, by rw [hn]; rfl⟩
  | undefined =>
    obtain rfl := Option.some.inj hk
    exact ⟨0, by decide, by rw [hn]; rfl⟩
  | _ => cases hk

theorem operandLocation_eq_ok {k : Nat} {l : Location} : p.operandLocation n k = .ok l
    ↔ ∃ m, p.operand n k = .ok m ∧ p.location m = .ok l :=
  bind_eq_ok

theorem node_of_binary {op : BinOp} (hk : p.graph.kind n = .binary op)
    (hl : p.operandLocation n 0 = .ok lhs) (hr : p.operandLocation n 1 = .ok rhs)
    (hn : p.location n = .ok target) :
    p.node n = .ok ((Instr.binary op lhs rhs target).map .instr) := by
  obtain ⟨right, hright, hr⟩ := operandLocation_eq_ok.1 hr
  have : p.binary n op = .ok (Instr.binary op lhs rhs target) :=
    bind_eq_ok.2 ⟨lhs, hl, bind_eq_ok.2 ⟨right, hright,
      bind_eq_ok.2 ⟨target, hn, bind_eq_ok.2 ⟨rhs, hr, rfl⟩⟩⟩⟩
  unfold node
  rw [hk]
  show Piece.ofExcept (p.binary n op) = _
  rw [this]
  rfl

theorem node_of_compare (hk : p.graph.kind n = .compare op) (hl : p.operandLocation n 0 = .ok lhs)
    (hr : p.operandLocation n 1 = .ok rhs) (hn : p.location n = .ok target) :
    p.node n = .ok ((Instr.load rhs).1.map .instr
      ++ p.comparison n op lhs (Instr.load rhs).2 target) := by
  unfold node
  rw [hk]
  unfold compare
  rw [hl, hr, hn]
  rfl

theorem node_of_jump {block : NodeId} (hk : p.graph.kind n = .jump block) :
    p.node n = .ok [.instr (.jmp (p.graph.label block))] := by
  unfold node
  rw [hk]

theorem node_of_condJump {ifTrue ifFalse : NodeId}
    (hk : p.graph.kind n = .condJump ifTrue ifFalse) (hp : p.operandLocation n 0 = .ok place) :
    p.node n = .ok [.instr (.cmpl (.imm 0) place), .instr (.jcc .notEqual (p.graph.label ifTrue)),
      .instr (.jmp (p.graph.label ifFalse))] := by
  unfold node
  rw [hk, hp]
  rfl

theorem node_of_ret (hk : p.graph.kind n = .ret) (hp : p.operandLocation n 1 = .ok place) :
    p.node n = .ok ((Instr.copy place (.reg .rax) ++ Instr.epilogue).map .instr) := by
  unfold node
  rw [hk, hp]
  rfl

theorem phiMoves_eq {phis : List NodeId} {edge : Nat} (moves : List (Location × Location))
    (h : List.Forall₂ (fun phi move => p.operandLocation phi edge = .ok move.1
      ∧ p.location phi = .ok move.2) phis moves) :
    p.phiMoves phis edge = (do
      let ordered ← Failure.require .endlessMoves
        (ParallelMove.sequentialize Instr.destScratch moves)
      pure (ordered.flatMap fun m => Instr.copy m.1 m.2)) := by
  unfold phiMoves
  rw [mapM_eq_ok.2 (h.imp fun phi move hm => by rw [hm.1, hm.2]; rfl)]
  rfl

/-- **What the code of a line has to do**, given how the line ends: go to the
code of the line that follows, with the registers live into it in their
places; or come to the return with the result in its register and the two
pointers as the caller had them; or come to a division that traps. -/
def Meets (p : Placed) (live : Nat → List VReg) (f : Frame) (program : List Asm)
    (landing : Nat → List Asm) (start : Execution) : Line.Outcome → Prop
  | .goto j file => ∃ m, Execution.Steps program start ⟨m, landing j⟩ ∧ m.Framed f
      ∧ p.allocation.Holds (live j) file m
  | .returns w => ∃ e, Execution.Steps program start e ∧ e.Returns
      ∧ e.machine.get (.reg .rax) = w
      ∧ e.machine.regs .rsp = f.base + BitVec.ofNat 64 f.size + 8
      ∧ e.machine.regs .rbp = f.saved
  | .traps => ∃ e, Execution.Steps program start e ∧ e.Traps

end Placed

namespace Allocated

variable {a : Allocated} {i : Nat} {n : NodeId} {m : Machine} {f : Frame}
  {file : RegisterFile} {program rest : List Asm} {landing : Nat → List Asm} {l : Line}

/-- What the code of a line has to do, in terms of the registers live into
each line. -/
abbrev Meets (a : Allocated) (f : Frame) (program : List Asm) (landing : Nat → List Asm)
    (start : Execution) (o : Line.Outcome) : Prop :=
  a.placed.Meets a.liveness.liveInAt f program landing start o

/-- The state in which the code of a line is entered. -/
structure Entered (a : Allocated) (i : Nat) (f : Frame) (file : RegisterFile) (m : Machine) :
    Prop where
  lt : i < a.lines.size
  framed : m.Framed f
  size_eq : f.size = a.allocation.frameSize
  holds : a.allocation.Holds (a.liveness.liveInAt i) file m

namespace Entered

section

variable (h : a.Entered i f file m) (hr : r ∈ (lineAt a.lines i).defs ∨ r ∈ (lineAt a.lines i).uses)

include h hr

theorem location?_eq : a.allocation.location? r = some (a.place r) := Allocated.location?_eq h.lt hr

theorem assignable : (a.place r).Assignable f.size :=
  h.size_eq ▸ Allocated.assignable (h.location?_eq hr)

end

theorem get_place (h : a.Entered i f file m) (hr : r ∈ (lineAt a.lines i).uses) :
    m.get (a.place r) = file r :=
  Allocated.get_place h.lt h.holds hr

/-- **A line that sets one register** and may use scratch registers. -/
theorem meets_goto (h : a.Entered i f file m) {m' : Machine} {j : Nat}
    (hd : (lineAt a.lines i).defs = [d]) (hj : j ∈ (lineAt a.lines i).succs)
    (differs : Machine.Differs f (a.place d :: Instr.scratchPlaces) m m')
    (hw : m'.get (a.place d) = w) {start : Execution}
    (steps : Execution.Steps program start ⟨m', landing j⟩) :
    a.Meets f program landing start (.goto j (Function.update file d w)) := by
  refine ⟨m', steps, differs.framed, ?_⟩
  refine holds_of_differs h.lt hj h.holds h.size_eq differs ?_ ?_ ?_
  · intro l hl
    rcases mem_cons.1 hl with rfl | hl
    · exact .inr ⟨d, hd ▸ mem_singleton_self d, rfl⟩
    · exact .inl hl
  · intro r hr
    rw [hd, mem_singleton] at hr
    exact Function.update_of_ne hr _ _
  · intro d' hd'
    rw [hd, mem_singleton] at hd'
    rw [hd', Function.update_self]
    exact hw

end Entered

/-! ## Constants and operations -/

section Operations

variable {d u w : VReg} {k : Nat}

theorem Entered.meets_load (h : a.Entered i f file m) {v : Int}
    (hd : (lineAt a.lines i).defs = [d]) (hs : (lineAt a.lines i).succs = [i + 1]) :
    a.Meets f program landing ⟨m, (Instr.const v (a.place d)).map .instr ++ landing (i + 1)⟩
      (.goto (i + 1) (Function.update file d (BitVec.ofInt 32 v))) := by
  have hmem : d ∈ (lineAt a.lines i).defs := hd ▸ mem_singleton_self d
  have place := (h.assignable (.inl hmem)).inFrame
  have run : Instr.run (Instr.const v (a.place d)) m
      = some (m.set (a.place d) (BitVec.ofInt 32 v)) :=
    run_singleton (exec_movl rfl)
  refine h.meets_goto hd (hs ▸ mem_singleton_self _) ?_ (Machine.get_set_self _ _ _)
    (steps_of_run run program _)
  exact (Machine.Differs.set h.framed place _).mono (by simp)

theorem Entered.meets_binary (h : a.Entered i f file m) {op : BinOp}
    (hl : lineAt a.lines i
      = { item := .node n, op := .binary op, defs := [d], uses := [u, w], succs := [i + 1] })
    (hne : d ≠ w) :
    a.Meets f program landing
      ⟨m, (Instr.binary op (a.place u) (a.place w) (a.place d)).map .instr ++ landing (i + 1)⟩
      (.set file d (i + 1) (op.eval (file u) (file w))) := by
  have hu : u ∈ (lineAt a.lines i).uses := by simp [hl]
  have hw : w ∈ (lineAt a.lines i).uses := by simp [hl]
  have hd : d ∈ (lineAt a.lines i).defs := by simp [hl]
  have apart : a.place w ≠ a.place d := by
    have sep : (lineAt a.lines i).Separates w d := by
      rw [hl]
      exact .inr ⟨rfl, rfl⟩
    exact place_ne h.lt (.inr (.inr (.inr sep))) hne.symm (h.location?_eq (.inr hw))
      (h.location?_eq (.inl hd))
  have left := h.assignable (.inr hu)
  have right := h.assignable (.inr hw)
  have target := h.assignable (.inl hd)
  rw [← h.get_place hu, ← h.get_place hw]
  cases hv : op.eval (m.get (a.place u)) (m.get (a.place w)) with
  | some v =>
    obtain ⟨m', run, get, differs⟩ := run_binary h.framed left right target apart hv
    exact h.meets_goto (by rw [hl]) (by simp [hl]) differs get
      (steps_of_run run program _)
  | none =>
    obtain ⟨head, divisor, tail, m', e, run, trap⟩ :=
      run_binary_traps (a.place d) h.framed left right hv
    refine ⟨⟨m', .instr (.idivl divisor) :: (tail.map .instr ++ landing (i + 1))⟩, ?_,
      _, _, rfl, trap⟩
    rw [e, map_append, append_assoc]
    exact steps_of_run run program _

/-- **The code of a comparison** sets its target to the outcome. -/
theorem steps_comparison {p : Placed} {lhs rhs target : Location}
    (hl : (Asm.labels program).Nodup)
    (hs : p.comparison n op lhs rhs target ++ rest <:+ program) (hrhs : rhs.isStack = false) :
    Execution.Steps program ⟨m, p.comparison n op lhs rhs target ++ rest⟩
      ⟨{ m with flags := some (.ofCompare (m.get lhs) (m.get rhs)) }.set target
        (.ofBool (op.eval (m.get lhs) (m.get rhs))), rest⟩ := by
  let compared : Machine := { m with flags := some (.ofCompare (m.get lhs) (m.get rhs)) }
  let yes := (p.compareLabels n).1
  let done := (p.compareLabels n).2
  have code : p.comparison n op lhs rhs target ++ rest
      = .instr (.cmpl (.loc rhs) lhs) :: .instr (.jcc (Instr.condition op) yes)
        :: .instr (.movl (.imm 0) target) :: .instr (.jmp done) :: .label yes
        :: .instr (.movl (.imm 1) target) :: .label done :: rest := rfl
  have compare : (Instr.cmpl (.loc rhs) lhs).exec m = some compared := by
    refine if_pos ?_
    show (!(rhs.isStack && lhs.isStack)) = true
    rw [hrhs]
    rfl
  have outcome := condition_holds op (m.get lhs) (m.get rhs)
  have set : ∀ v : Int, (Instr.movl (.imm v) target).exec compared
      = some (compared.set target (BitVec.ofInt 32 v)) := fun v => exec_movl rfl
  refine .head (step_of_exec compare program _) ?_
  have skip : ∀ front back : List Asm, front ++ back <:+ program → back <:+ program :=
    fun front back => (suffix_append front back).trans
  cases hv : op.eval (m.get lhs) (m.get rhs) with
  | true =>
    -- the jump is taken, and the code runs off its end
    rw [hv] at outcome
    have found := Asm.target_eq hl (skip [_, _, _, _] (.label yes :: _) hs)
    exact .head (step_jcc_taken rfl outcome found)
      (.head (step_of_exec (set 1) program _) (.single rfl))
  | false =>
    rw [hv] at outcome
    have found := Asm.target_eq hl (skip [_, _, _, _, _, _] (.label done :: _) hs)
    exact .head (step_jcc_passed rfl outcome)
      (.head (step_of_exec (set 0) program _) (.single (step_jmp found)))

theorem Entered.meets_compare (h : a.Entered i f file m) (hl : lineAt a.lines i
      = { item := .node n, op := .compare op, defs := [d], uses := [u, w], succs := [i + 1] })
    (hlabels : (Asm.labels program).Nodup) (hs : (Instr.load (a.place w)).1.map .instr
      ++ a.placed.comparison n op (a.place u) (Instr.load (a.place w)).2 (a.place d)
      ++ landing (i + 1) <:+ program) :
    a.Meets f program landing
      ⟨m, (Instr.load (a.place w)).1.map .instr
        ++ a.placed.comparison n op (a.place u) (Instr.load (a.place w)).2 (a.place d)
        ++ landing (i + 1)⟩
      (.set file d (i + 1) (some (.ofBool (op.eval (file u) (file w))))) := by
  have hu : u ∈ (lineAt a.lines i).uses := by simp [hl]
  have hw : w ∈ (lineAt a.lines i).uses := by simp [hl]
  have hd : d ∈ (lineAt a.lines i).defs := by simp [hl]
  have left := h.assignable (.inr hu)
  have target := h.assignable (.inl hd)
  obtain ⟨m₁, run, right, loaded, hreg, -⟩ := run_load (a.place w) h.framed
  have kept : m₁.get (a.place u) = m.get (a.place u) :=
    loaded.keeps _ left.inFrame (mt mem_singleton.1 (left.ne_reg rfl))
  rw [append_assoc] at hs ⊢
  have suffix := (suffix_append _ _).trans hs
  have compared := steps_comparison (m := m₁) hlabels suffix hreg
  rw [kept, right, h.get_place hu, h.get_place hw] at compared
  refine h.meets_goto (by rw [hl]) (by simp [hl]) ?_ (Machine.get_set_self _ _ _)
    ((steps_of_run run program _).trans compared)
  refine (loaded.trans (Machine.Differs.trans ?_ (Machine.Differs.set ?_ target.inFrame _))).mono
    (p := _ ++ ([] ++ _)) ?_
  · exact ⟨⟨loaded.framed.stackPointer, loaded.framed.framePointer, loaded.framed.saved⟩,
      fun l _ _ => by cases l <;> rfl⟩
  · exact ⟨loaded.framed.stackPointer, loaded.framed.framePointer, loaded.framed.saved⟩
  · simp [Instr.scratchPlaces]

/-! ## Ends of blocks -/

theorem Entered.meets_jump (h : a.Entered i f file m) {line : Nat}
    (hl : lineAt a.lines i = { item := .node n, op := .jump, succs := [line] })
    (ht : Asm.target program name = some (landing line)) :
    a.Meets f program landing ⟨m, .instr (.jmp name) :: rest⟩ (.goto line file) := by
  refine ⟨m, .single (step_jmp ht), h.framed, ?_⟩
  exact holds_of_succ h.lt (by simp [hl]) (by rw [hl]) h.holds

theorem Entered.meets_condJump (h : a.Entered i f file m) {ifTrue ifFalse : String}
    {yes no : Nat}
    (hline : lineAt a.lines i
      = { item := .node n, op := .condJump, uses := [u], succs := [yes, no] })
    (hyes : Asm.target program ifTrue = some (landing yes))
    (hno : Asm.target program ifFalse = some (landing no)) :
    a.Meets f program landing
      ⟨m, .instr (.cmpl (.imm 0) (a.place u)) :: .instr (.jcc .notEqual ifTrue)
        :: .instr (.jmp ifFalse) :: rest⟩
      (.goto (if file u ≠ 0 then yes else no) file) := by
  have hu : u ∈ (lineAt a.lines i).uses := by simp [hline]
  let compared : Machine := { m with flags := some (.ofCompare (file u) 0) }
  have compare : (Instr.cmpl (.imm 0) (a.place u)).exec m = some compared := by
    refine (if_pos rfl).trans ?_
    show some { m with flags := some (.ofCompare (m.get (a.place u)) (BitVec.ofInt 32 0)) } = _
    rw [h.get_place hu, show BitVec.ofInt 32 0 = (0 : Word) by decide]
  have outcome : Condition.notEqual.holds (.ofCompare (file u) 0) = (file u != 0) :=
    condition_holds .notEqual (file u) 0
  have framed : compared.Framed f :=
    ⟨h.framed.stackPointer, h.framed.framePointer, h.framed.saved⟩
  have same : ∀ l, compared.get l = m.get l := fun l => by cases l <;> rfl
  have holds : ∀ j ∈ (lineAt a.lines i).succs,
      a.allocation.Holds (a.liveness.liveInAt j) file compared := fun j hj r hr => by
    obtain ⟨l, hl, get⟩ := holds_of_succ h.lt hj (by rw [hline]) h.holds r hr
    exact ⟨l, hl, (same l).trans get⟩
  by_cases hc : file u = 0
  · rw [if_neg (not_not.2 hc)]
    have passed : Condition.notEqual.holds (.ofCompare (file u) 0) = false := by
      rw [hc]
      rfl
    exact ⟨compared, .head (step_of_exec compare program _)
      (.head (step_jcc_passed rfl passed) (.single (step_jmp hno))),
      framed, holds no (by simp [hline])⟩
  · rw [if_pos hc]
    have taken := outcome.trans (bne_iff_ne.2 hc)
    exact ⟨compared, .head (step_of_exec compare program _)
      (.single (step_jcc_taken rfl taken hyes)), framed, holds yes (by simp [hline])⟩

theorem Entered.meets_ret (h : a.Entered i f file m)
    (hu : u ∈ (lineAt a.lines i).uses) :
    a.Meets f program landing
      ⟨m, (Instr.copy (a.place u) (.reg .rax) ++ Instr.epilogue).map .instr ++ rest⟩
      (.returns (file u)) := by
  have rax : Location.InFrame f.size (.reg .rax) := ⟨by decide, by decide⟩
  obtain ⟨m₁, run, get, differs⟩ := run_copy_reg (a.place u) h.framed rax rfl
  rw [h.get_place hu] at get
  let m₂ := m₁.setReg .rsp (m₁.regs .rbp)
  have pointer : m₁.regs .rbp = f.base + BitVec.ofNat 64 f.size := differs.framed.framePointer
  let m₃ := (m₂.setReg .rsp (m₁.regs .rbp + 8)).setReg .rbp
    (BitVec.ofNat 64 (m₁.mem.read (m₁.regs .rbp) 8))
  have undo : Instr.run [.movq .rbp .rsp, .pop .rbp] m₁ = some m₃ := rfl
  refine ⟨⟨m₃, .instr .ret :: rest⟩, ?_, ⟨rest, rfl⟩, get, ?_, ?_⟩
  · have both := run_append_of run undo
    have := steps_of_run both program (.instr .ret :: rest)
    rw [map_append, append_assoc] at this
    rw [map_append, append_assoc]
    exact this
  · show m₁.regs .rbp + 8 = _
    rw [pointer]
  · show BitVec.ofNat 64 (m₁.mem.read (m₁.regs .rbp) 8) = f.saved
    rw [pointer, differs.framed.saved, BitVec.ofNat_toNat, BitVec.setWidth_eq]

end Operations

/-! ## Simultaneous copies -/

/-- **Copies between places that may be given to values, and the scratch
place**, do to a machine what they do to a store. -/
theorem run_copies {store : Location → Word} {moves : List (Location × Location)}
    (hm : m.Framed f)
    (hmoves : ∀ x ∈ moves, (x.1.Assignable f.size ∨ x.1 = Instr.destScratch)
      ∧ (x.2.Assignable f.size ∨ x.2 = Instr.destScratch))
    (hs : ∀ l : Location, l.Assignable f.size ∨ l = Instr.destScratch → m.get l = store l) :
    ∃ m', Instr.run (moves.flatMap fun x => Instr.copy x.1 x.2) m = some m' ∧ m'.Framed f
      ∧ ∀ l : Location, l.Assignable f.size ∨ l = Instr.destScratch →
          m'.get l = ParallelMove.run moves store l := by
  induction moves generalizing m store with
  | nil => exact ⟨m, rfl, hm, hs⟩
  | cons x rest ih =>
    have inFrame : ∀ {l : Location}, l.Assignable f.size ∨ l = Instr.destScratch →
        l.InFrame f.size ∧ l ≠ Instr.sourceScratch := by
      rintro l (hl | rfl)
      · exact ⟨hl.inFrame, hl.ne_reg rfl⟩
      · exact ⟨destScratch_inFrame, by decide⟩
    obtain ⟨hx, hrest⟩ := forall_mem_cons.1 hmoves
    obtain ⟨m₁, run, get, differs⟩ := run_copy x.1 hm (inFrame hx.2).1
    have assigned : ∀ l : Location, l.Assignable f.size ∨ l = Instr.destScratch →
        m₁.get l = ParallelMove.assign store x l := by
      intro l hl
      unfold ParallelMove.assign
      by_cases e : l = x.2
      · rw [e, Function.update_self, get, hs _ hx.1]
      · rw [Function.update_of_ne e, ← hs l hl]
        exact differs.keeps l (inFrame hl).1 (by simp [e, (inFrame hl).2])
    obtain ⟨m₂, run', framed, gets⟩ := ih differs.framed hrest assigned
    exact ⟨m₂, run_append_of run run', framed, gets⟩

theorem Entered.meets_phiMoves (h : a.Entered i f file m) {copies : List (VReg × VReg)}
    {ordered : List (Location × Location)}
    (hn : (copies.map (·.1)).Nodup) (hline : lineAt a.lines i
      = { item := item, op := .phiAssign, defs := copies.map (·.1), uses := copies.map (·.2),
          succs := [i + 1] })
    (ho : ParallelMove.sequentialize Instr.destScratch
      (copies.map fun c => (a.place c.2, a.place c.1)) = some ordered) :
    a.Meets f program landing
      ⟨m, (ordered.flatMap fun x => Instr.copy x.1 x.2).map .instr ++ landing (i + 1)⟩
      (.goto (i + 1) (file.assignAll (copies.map (·.1)) (copies.map (·.2)))) := by
  have hdefs : (lineAt a.lines i).defs = copies.map (·.1) := by rw [hline]
  have hdef : ∀ c ∈ copies, c.1 ∈ (lineAt a.lines i).defs := fun c hc =>
    hdefs ▸ mem_map_of_mem hc
  have hu : ∀ c ∈ copies, c.2 ∈ (lineAt a.lines i).uses := fun c hc => by
    rw [hline]
    exact mem_map_of_mem hc
  generalize hmoves : (copies.map fun c => (a.place c.2, a.place c.1)) = moves at ho
  have destinations : moves.map (·.2) = copies.map fun c => a.place c.1 := by
    rw [← hmoves, map_map]
    rfl
  -- registers that are set together have different places
  have nodup : (moves.map (·.2)).Nodup := by
    rw [destinations]
    refine pairwise_map.2 (List.Pairwise.imp_of_mem ?_ (pairwise_map.1 hn))
    intro c c' hc hc' hne
    have sep : (lineAt a.lines i).Separates c.1 c'.1 := by
      rw [hline]
      exact ⟨mem_map_of_mem hc, mem_map_of_mem hc'⟩
    exact place_ne h.lt (.inr (.inr (.inr sep))) hne (h.location?_eq (.inl (hdef c hc)))
      (h.location?_eq (.inl (hdef c' hc')))
  have scratch : Instr.destScratch ∉ moves.map (·.2) := by
    rw [destinations]
    intro hm
    obtain ⟨c, hc, e⟩ := mem_map.1 hm
    exact (h.assignable (.inl (hdef c hc))).ne_reg rfl e
  have places : ∀ x ∈ moves, (x.1.Assignable f.size ∨ x.1 = Instr.destScratch)
      ∧ (x.2.Assignable f.size ∨ x.2 = Instr.destScratch) := by
    rw [← hmoves]
    intro x hx
    obtain ⟨c, hc, rfl⟩ := mem_map.1 hx
    exact ⟨.inl (h.assignable (.inr (hu c hc))), .inl (h.assignable (.inl (hdef c hc)))⟩
  obtain ⟨m', run, framed, gets⟩ := run_copies h.framed
    (ParallelMove.mem_sequentialize ho (P := fun l => l.Assignable f.size ∨ l = Instr.destScratch)
      (.inr rfl) places) (fun _ _ => rfl)
  refine ⟨m', steps_of_run run program _, framed, holds_iff.2 fun r hr => ?_⟩
  by_cases hd : r ∈ copies.map (·.1)
  · obtain ⟨c, hc, rfl⟩ := mem_map.1 hd
    have zip : (c.1, c.2) ∈ (copies.map (·.1)).zip (copies.map (·.2)) := by
      rw [zip_map', mem_map]
      exact ⟨c, hc, rfl⟩
    have move : (a.place c.2, a.place c.1) ∈ moves := hmoves ▸ mem_map_of_mem hc
    rw [RegisterFile.assignAll_of_mem hn zip, ← h.get_place (hu c hc),
      gets _ (.inl (h.assignable (.inl (hdef c hc))))]
    exact ParallelMove.run_sequentialize_of_mem ho nodup scratch move
  · -- a register that is not set was live before, and away from the places that are set
    have next : i + 1 ∈ (lineAt a.lines i).succs := by simp [hline]
    have live : r ∈ a.liveness.liveInAt i :=
      Liveness.mem_liveInAt_of_mem_succs h.lt next hr (hdefs ▸ hd)
    have hl := location?_eq_of_live live
    have assignable := h.size_eq ▸ Allocated.assignable hl
    rw [RegisterFile.assignAll_of_not_mem hd, ← holds_iff.1 h.holds r live,
      gets _ (.inl assignable)]
    refine ParallelMove.run_sequentialize_of_not_mem ho nodup scratch (assignable.ne_reg rfl) ?_
    rw [destinations]
    intro hm
    obtain ⟨c, hc, e⟩ := mem_map.1 hm
    have out : r ∈ a.liveness.liveOutAt i :=
      Liveness.mem_liveOutAt_of_mem_succs next hr
    refine place_ne h.lt (.inr (.inl ⟨hdef c hc, out⟩)) ?_
      (h.location?_eq (.inl (hdef c hc))) hl e
    rintro rfl
    exact hd (mem_map_of_mem hc)

/-! ## Items -/

/-- **Code that does what a line does**, in every program without a label
defined twice: it falls through to the next line, or jumps to the code of
the blocks it names. -/
def Realizes (a : Allocated) (i : Nat) (code : List Asm) : Prop :=
  ∀ ⦃f : Frame⦄ ⦃file : RegisterFile⦄ ⦃m : Machine⦄ ⦃program rest : List Asm⦄
    ⦃landing : Nat → List Asm⦄, a.Entered i f file m → (Asm.labels program).Nodup →
    code ++ rest <:+ program →
    ((lineAt a.lines i).op.endsBlock = false → landing (i + 1) = rest) →
    (∀ block line, block ≠ Graph.startBlock → a.context.target block = .ok line →
      Asm.target program (a.graph.label block) = some (landing line)) →
    ∃ o, (lineAt a.lines i).step file = some o ∧ a.Meets f program landing ⟨m, code ++ rest⟩ o

/-- The registers of a line are places of its node and of its operands. -/
theorem locations_of_operands {u w : VReg} (hi : i < a.lines.size)
    (hdefs : (lineAt a.lines i).defs = [d]) (huses : (lineAt a.lines i).uses = [u, w])
    (hd : a.context.register n = .ok d) (hu : a.context.operand n 0 = .ok u)
    (hw : a.context.operand n 1 = .ok w) :
    a.placed.location n = .ok (a.place d) ∧ a.placed.operandLocation n 0 = .ok (a.place u)
      ∧ a.placed.operandLocation n 1 = .ok (a.place w) :=
  ⟨location_eq hd (location?_eq hi (.inl (by simp [hdefs]))),
    operandLocation_eq hu (location?_eq hi (.inr (by simp [huses]))),
    operandLocation_eq hw (location?_eq hi (.inr (by simp [huses])))⟩

/-- **A node is emitted, and its code does what its line does.** -/
theorem node_realizes (hi : i < a.lines.size) (hmem : .node n ∈ a.schedule.items)
    (hl : a.context.NodeLine n (i + 1) (lineAt a.lines i)) :
    ∃ code, a.placed.node n = .ok code ∧ a.Realizes i code := by
  unfold Realizes
  generalize hline : lineAt a.lines i = l at hl ⊢
  cases hl with
  | @load w d hk hd =>
    obtain ⟨v, rfl, hc⟩ := node_of_constant (p := a.placed) hk
      (location_eq hd (location?_eq hi (.inl (by simp [hline]))))
    refine ⟨_, hc, fun f file m program rest landing h _ _ hn _ => ⟨_, rfl, ?_⟩⟩
    obtain rfl := hn rfl
    exact h.meets_load (by rw [hline]) (by rw [hline])
  | @binary op d u w hk hd hu hw =>
    obtain ⟨target, left, right⟩ := locations_of_operands hi (by rw [hline]) (by rw [hline])
      hd hu hw
    have hne : d ≠ w := register_ne hmem (by rw [show a.graph.kind n = _ from hk]; rfl) hd hw
    refine ⟨_, node_of_binary (p := a.placed) hk left right target,
      fun f file m program rest landing h _ _ hn _ => ⟨_, rfl, ?_⟩⟩
    obtain rfl := hn rfl
    exact h.meets_binary hline hne
  | @compare op d u w hk hd hu hw =>
    obtain ⟨target, left, right⟩ := locations_of_operands hi (by rw [hline]) (by rw [hline])
      hd hu hw
    refine ⟨_, node_of_compare (p := a.placed) hk left right target,
      fun f file m program rest landing h hlabels hs hn _ => ⟨_, rfl, ?_⟩⟩
    obtain rfl := hn rfl
    exact h.meets_compare hline hlabels hs
  | @jump block line hk ht =>
    refine ⟨_, node_of_jump (p := a.placed) hk,
      fun f file m program rest landing h _ _ _ hj => ⟨_, rfl, ?_⟩⟩
    exact h.meets_jump hline (hj block line (a.ne_start_of_mem_targets (n := n) (by
      rw [Graph.targets, show a.graph.kind n = _ from hk]; simp [Kind.targets])) ht)
  | @condJump ifTrue ifFalse u yes no hk hu hyes hno =>
    have place := operandLocation_eq hu (location?_eq hi (.inr (by simp [hline])))
    have targets : a.graph.targets n = [ifTrue, ifFalse] := by
      rw [Graph.targets, show a.graph.kind n = _ from hk]
      rfl
    refine ⟨_, node_of_condJump (p := a.placed) hk place,
      fun f file m program rest landing h _ _ _ hj => ⟨_, rfl, ?_⟩⟩
    exact h.meets_condJump hline
      (hj _ _ (a.ne_start_of_mem_targets (n := n) (by simp [targets])) hyes)
      (hj _ _ (a.ne_start_of_mem_targets (n := n) (by simp [targets])) hno)
  | @ret u hk hu =>
    have hu' : u ∈ (lineAt a.lines i).uses := by simp [hline]
    refine ⟨_, node_of_ret (p := a.placed) hk (operandLocation_eq hu (location?_eq hi (.inr hu'))),
      fun f file m program rest landing h _ _ _ _ => ⟨_, rfl, h.meets_ret hu'⟩⟩

/-- **An item is emitted, and its code does what its line does.** -/
theorem item_realizes (hi : i < a.lines.size) (hmem : item ∈ a.schedule.items)
    (hl : a.context.line item (i + 1) = .ok (lineAt a.lines i)) :
    ∃ code, a.placed.item a.schedule item = .ok code ∧ a.Realizes i code := by
  cases item with
  | node n => exact node_realizes hi hmem (Line.Context.nodeLine_eq_ok hl)
  | phiMoves target edge =>
    obtain ⟨copies, all, hline⟩ := Line.Context.phiMoves_eq_ok hl
    obtain ⟨ends, built⟩ := a.built
    have hn := built.nodup_registers all
    have hdef : ∀ c ∈ copies, a.allocation.location? c.1 = some (a.place c.1) := fun c hc =>
      location?_eq hi (.inl (by rw [hline]; exact mem_map_of_mem hc))
    have huse : ∀ c ∈ copies, a.allocation.location? c.2 = some (a.place c.2) := fun c hc =>
      location?_eq hi (.inr (by rw [hline]; exact mem_map_of_mem hc))
    have hf : Instr.destScratch ∉
        (copies.map fun c => (a.place c.2, a.place c.1)).map (·.2) := fun hm => by
      rw [map_map] at hm
      obtain ⟨c, hc, e⟩ := mem_map.1 hm
      exact (assignable (hdef c hc)).ne_reg rfl e
    obtain ⟨ordered, ho⟩ := ParallelMove.exists_sequentialize hf
    have moves : a.placed.phiMoves (a.schedule.valuePhis target) edge = _ :=
      phiMoves_eq (copies.map fun c => (a.place c.2, a.place c.1)) <| by
        rw [List.forall₂_map_right_iff]
        refine List.forall₂_iff_zip.2 ⟨all.length_eq, fun {phi c} hz => ?_⟩
        have hc := (of_mem_zip hz).2
        obtain ⟨hd, hu⟩ := (List.forall₂_iff_zip.1 all).2 hz
        exact ⟨operandLocation_eq hu (huse c hc), location_eq hd (hdef c hc)⟩
    rw [ho] at moves
    refine ⟨_, congrArg Piece.ofExcept moves,
      fun f file m program rest landing h _ _ hnext _ => ⟨_, by rw [hline]; rfl, ?_⟩⟩
    obtain rfl := hnext (by rw [hline]; rfl)
    exact h.meets_phiMoves hn hline ho

end Allocated

end SsaCompiler
