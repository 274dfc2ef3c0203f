import SsaCompiler.Proofs.Liveness
import SsaCompiler.Proofs.Meaning
import SsaCompiler.Proofs.Schedule

/-!
# Running the lines of a program

The lines of a function are a program for a machine with an unbounded file
of registers. A line either goes on to one of its successors with changed
registers, or returns a word, or traps. The copies of one line are made at
the same time: **every source is read before any register is set**
(`RegisterFile.assignAll`).

The second half opens the construction of lines: a line is made from the
item with its number, and from what the item's node is.
-/

namespace SsaCompiler

open List SsaCompiler.Except

variable {r : VReg} {block : NodeId} {line : Nat}

/-- **The contents of the virtual registers.** -/
abbrev RegisterFile := VReg → Word

namespace RegisterFile

/-- **Set registers at the same time**, each to what its source holds. -/
def assignAll (defs uses : List VReg) (file : RegisterFile) : RegisterFile := fun r =>
  match (defs.zip uses).lookup r with
  | some u => file u
  | none => file r

variable {defs uses : List VReg} {file : RegisterFile}

theorem assignAll_of_not_mem (h : r ∉ defs) : assignAll defs uses file r = file r := by
  have : (defs.zip uses).lookup r = none :=
    lookup_eq_none_iff.2 fun p hp => by
      have : r ≠ p.1 := fun e => h (e ▸ (of_mem_zip hp).1)
      simpa using this
  rw [assignAll, this]

theorem assignAll_of_mem (hn : defs.Nodup) {d u : VReg} (h : (d, u) ∈ defs.zip uses) :
    assignAll defs uses file d = file u := by
  have : (defs.zip uses).lookup d = some u := by
    induction defs generalizing uses with
    | nil => simp at h
    | cons a defs ih =>
      cases uses with
      | nil => simp at h
      | cons b uses =>
        obtain ⟨ha, hn⟩ := nodup_cons.1 hn
        rw [zip_cons_cons, mem_cons] at h
        rcases h with h | h
        · cases h
          simp
        · have : (d == a) = false := by
            simpa using fun e : d = a => ha (e ▸ (of_mem_zip h).1)
          rw [zip_cons_cons, lookup_cons, this]
          exact ih hn h
  rw [assignAll, this]

end RegisterFile

/-- Whether control does not go on to the line below. -/
def LineOp.endsBlock : LineOp → Bool
  | jump | condJump | ret => true
  | load _ | binary _ | compare _ | phiAssign => false

namespace Line

/-- **How a line ends**: at another line, by returning a word, or in a
trap. -/
inductive Outcome where
  | goto (line : Nat) (file : RegisterFile)
  | returns (value : Word)
  | traps

/-- The outcome of setting one register, none of them if there is no word to
set it to. -/
def Outcome.set (file : RegisterFile) (d : VReg) (next : Nat) : Option Word → Outcome
  | some w => .goto next (Function.update file d w)
  | none => .traps

/-- **Run one line.** A line of another shape than its operation has does
not run. -/
def step (l : Line) (file : RegisterFile) : Option Outcome :=
  match l.op, l.defs, l.uses, l.succs with
  | .load w, [d], [], [next] => some (.set file d next (some w))
  | .binary op, [d], [a, b], [next] => some (.set file d next (op.eval (file a) (file b)))
  | .compare op, [d], [a, b], [next] =>
    some (.set file d next (some (.ofBool (op.eval (file a) (file b)))))
  | .jump, [], [], [next] => some (.goto next file)
  | .condJump, [], [c], [ifTrue, ifFalse] =>
    some (.goto (if file c ≠ 0 then ifTrue else ifFalse) file)
  | .ret, [], [r], [] => some (.returns (file r))
  | .phiAssign, defs, uses, [next] => some (.goto next (file.assignAll defs uses))
  | _, _, _, _ => none

/-! ## How lines are made -/

end Line

/-- The word of a node that only loads one. -/
def Kind.constant? : Kind → Option Word
  | constInt w => some w
  | constBool b => some (.ofBool b)
  | undefined => some 0
  | _ => none

theorem Kind.constant?_of_isTerminator {k : Kind} (h : k.isTerminator) : k.constant? = none := by
  cases k <;> first | rfl | cases h

theorem Failure.require_eq_ok {α : Type} {cause : Fault} {x : Option α} {a : α} :
    Failure.require cause x = .ok a ↔ x = some a := by
  cases x <;> simp [Failure.require]

namespace Line

namespace Context

variable {c : Context} {n : NodeId} {next : Nat} {l : Line}

theorem operand_eq_ok {index : Nat} : c.operand n index = .ok r
    ↔ ∃ m, c.graph.operand? n index = some m ∧ c.register m = .ok r := by
  simp only [operand, bind_eq_ok, Failure.require_eq_ok]

theorem register_eq_ok : c.register n = .ok r
    ↔ c.numbering.owners.idxOf? (c.graph.producer n) = some r := by
  rw [register, Numbering.register]
  cases c.numbering.owners.idxOf? (c.graph.producer n) <;> simp

/-- A register belongs to one node. -/
theorem producer_eq_of_register {m : NodeId} (hn : c.register n = .ok r)
    (hm : c.register m = .ok r) : c.graph.producer n = c.graph.producer m := by
  rw [register_eq_ok, idxOf?_eq_some_iff] at hn hm
  obtain ⟨_, hn, -⟩ := hn
  obtain ⟨_, hm, -⟩ := hm
  exact hn.symm.trans hm

/-- **What the line of a node is**, by the kind of the node. -/
inductive NodeLine (c : Context) (n : NodeId) (next : Nat) : Line → Prop
  | load {w : Word} {d : VReg} (hk : (c.graph.kind n).constant? = some w)
      (hd : c.register n = .ok d) :
      NodeLine c n next { item := .node n, op := .load w, defs := [d], succs := [next] }
  | binary {op : BinOp} {d a b : VReg} (hk : c.graph.kind n = .binary op)
      (hd : c.register n = .ok d) (ha : c.operand n 0 = .ok a) (hb : c.operand n 1 = .ok b) :
      NodeLine c n next
        { item := .node n, op := .binary op, defs := [d], uses := [a, b], succs := [next] }
  | compare {op : CmpOp} {d a b : VReg} (hk : c.graph.kind n = .compare op)
      (hd : c.register n = .ok d) (ha : c.operand n 0 = .ok a) (hb : c.operand n 1 = .ok b) :
      NodeLine c n next
        { item := .node n, op := .compare op, defs := [d], uses := [a, b], succs := [next] }
  | jump {block : NodeId} {line : Nat} (hk : c.graph.kind n = .jump block)
      (ht : c.target block = .ok line) :
      NodeLine c n next { item := .node n, op := .jump, succs := [line] }
  | condJump {ifTrue ifFalse : NodeId} {u : VReg} {yes no : Nat}
      (hk : c.graph.kind n = .condJump ifTrue ifFalse) (hu : c.operand n 0 = .ok u)
      (hyes : c.target ifTrue = .ok yes) (hno : c.target ifFalse = .ok no) :
      NodeLine c n next
        { item := .node n, op := .condJump, uses := [u], succs := [yes, no] }
  | ret {u : VReg} (hk : c.graph.kind n = .ret) (hu : c.operand n 1 = .ok u) :
      NodeLine c n next { item := .node n, op := .ret, uses := [u] }

theorem nodeLine_eq_ok (h : c.nodeLine n next = .ok l) : NodeLine c n next l := by
  unfold nodeLine at h
  cases hk : c.graph.kind n with
  | constInt w | constBool b | undefined =>
    simp only [hk, bind_eq_ok, pure_eq_ok] at h
    obtain ⟨d, hd, rfl⟩ := h
    exact .load (by rw [hk]; rfl) hd
  | binary op =>
    simp only [hk, bind_eq_ok, pure_eq_ok] at h
    obtain ⟨d, hd, a, ha, b, hb, rfl⟩ := h
    exact .binary hk hd ha hb
  | compare op =>
    simp only [hk, bind_eq_ok, pure_eq_ok] at h
    obtain ⟨d, hd, a, ha, b, hb, rfl⟩ := h
    exact .compare hk hd ha hb
  | jump block =>
    simp only [hk, bind_eq_ok, pure_eq_ok] at h
    obtain ⟨line, ht, rfl⟩ := h
    exact .jump hk ht
  | condJump ifTrue ifFalse =>
    simp only [hk, bind_eq_ok, pure_eq_ok] at h
    obtain ⟨u, hu, yes, hyes, no, hno, rfl⟩ := h
    exact .condJump hk hu hyes hno
  | ret =>
    simp only [hk, bind_eq_ok, pure_eq_ok] at h
    obtain ⟨u, hu, rfl⟩ := h
    exact .ret hk hu
  | start | block label | condValue | phi channel | proj channel => simp [hk] at h

/-- **What the line of some copies is**: one register and one source for
every merge of the target. -/
theorem phiMoves_eq_ok {target edge : Nat} (h : c.line (.phiMoves target edge) next = .ok l) :
    ∃ copies : List (VReg × VReg),
      List.Forall₂ (fun phi copy => c.register phi = .ok copy.1
        ∧ c.operand phi edge = .ok copy.2) (c.schedule.valuePhis target) copies
      ∧ l = { item := .phiMoves target edge, op := .phiAssign, defs := copies.map (·.1),
              uses := copies.map (·.2), succs := [next] } := by
  obtain ⟨copies, hc, h⟩ := bind_eq_ok.1 h
  refine ⟨copies, (mapM_eq_ok.1 hc).imp fun phi copy h => ?_, (pure_eq_ok.1 h).symm⟩
  simp only [bind_eq_ok, pure_eq_ok] at h
  obtain ⟨d, hd, u, hu, rfl⟩ := h
  exact ⟨hd, hu⟩

/-- A jump goes to the first line of its target. -/
theorem target_eq_ok : c.target block = .ok line
    ↔ (starts 0 c.schedule.blocks).lookup block = some line := by
  unfold target
  cases (starts 0 c.schedule.blocks).lookup block <;> simp

end Context

/-- **Every item has its line.** -/
theorem ofSchedule_eq_ok {g : Graph} {s : Schedule} {r : Numbering} {lines : Array Line}
    (h : ofSchedule g s r = .ok lines) :
    lines.size = s.items.length ∧ ∀ i (hi : i < s.items.length),
      (⟨g, s, r⟩ : Context).line s.items[i] (i + 1) = .ok (Liveness.lineAt lines i) := by
  obtain ⟨list, hlist, h⟩ := bind_eq_ok.1 h
  obtain rfl := pure_eq_ok.1 h
  obtain ⟨len, all⟩ := List.forall₂_iff_get.1 (mapM_eq_ok.1 hlist)
  rw [length_zipIdx] at len
  refine ⟨by simp [len], fun i hi => ?_⟩
  have hl : i < list.length := len ▸ hi
  have := all i (by simpa using hi) hl
  simpa [Liveness.lineAt, Array.getD, hl] using this

theorem lookup_starts {blocks : List ScheduledBlock} {first : Nat}
    (h : (starts first blocks).lookup block = some line) :
    ∃ before b after, blocks = before ++ b :: after ∧ b.block = block
      ∧ line = first + (before.flatMap (·.items)).length := by
  induction blocks generalizing first with
  | nil => simp [starts] at h
  | cons b rest ih =>
    rw [starts, lookup_cons] at h
    by_cases e : block = b.block
    · simp only [e, beq_self_eq_true, Option.some.injEq] at h
      exact ⟨[], b, rest, rfl, e.symm, by simp [h]⟩
    · have ne : (block == b.block) = false := by simpa using e
      rw [ne] at h
      obtain ⟨before, b', after, rfl, hb, rfl⟩ := ih h
      exact ⟨b :: before, b', after, rfl, hb, by simp; omega⟩

end Line

end SsaCompiler
